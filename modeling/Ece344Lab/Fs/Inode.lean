import Ece344Lab.Fs.Super

/-!
# Inodes: on disk, in memory and in the inode hash table

The data of `inode.h`, and the part of `inode.c` below the block-allocation
layer. An in-memory inode is named by its number, as the hash table holds at
most one for each; its reference count is kept beside it, because only
`testfs_get_inode` and `testfs_put_inode` use it.
-/
namespace Ece344Lab.Fs

open Ece344Lab.Library

abbrev nrDirectBlocks : Nat := 10
/-- `BLOCK_SIZE / sizeof(int)` -/
abbrev nrIndirectBlocks : Nat := 2048
/-- `BLOCK_SIZE / sizeof(struct dinode)` -/
abbrev inodesPerBlock : Nat := 128
abbrev sizeofDinode : Nat := 64

/-- `inode_type` -/
inductive InodeType
  | none
  | file
  | dir
  deriving DecidableEq

/-- The value of the enumerator, as stored in `i_type`. -/
def InodeType.val : InodeType → Int
  | .none => 0
  | .file => 1
  | .dir => 2

/-- `struct dinode`, the inode on disk. -/
@[ext] structure Dinode where
  iType : Int
  iBlockNr : Fin nrDirectBlocks → Int
  iIndirect : Int
  iDindirect : Int
  blockCount : Int
  iSize : Int

namespace Dinode

/-- What `bzero` makes of an inode. -/
def zero : Dinode :=
  { iType := 0, iBlockNr := fun _ => 0, iIndirect := 0, iDindirect := 0, blockCount := 0, iSize := 0 }

/-- `i_block_nr[i]` -/
def blockNr (d : Dinode) (i : Nat) : Int := if h : i < nrDirectBlocks then d.iBlockNr ⟨i, h⟩ else 0

/-- `i_block_nr[i] = v` -/
def setBlockNr (d : Dinode) (i : Nat) (v : Int) : Dinode :=
  { d with iBlockNr := fun j => if j.val = i then v else d.iBlockNr j }

/-- The fourteen `s32` fields in order. -/
def word (d : Dinode) (j : Nat) : Int :=
  if j = 0 then d.iType
  else if j ≤ 10 then d.blockNr (j - 1)
  else if j = 11 then d.iIndirect
  else if j = 12 then d.iDindirect
  else d.blockCount

/-- Byte `i` of the 64 bytes of the structure. -/
def byte (d : Dinode) (i : Nat) : UInt8 :=
  if i < 56 then leByte (leRep 4 (d.word (i / 4))) (i % 4) else leByte (leRep 8 d.iSize) (i - 56)

/-- The structure at byte `offset` of a block. -/
def decode (b : Block) (offset : Nat) : Dinode :=
  let word (j : Nat) := leInt (fun k => b.get (offset + 4 * j + k)) 4
  { iType := word 0, iBlockNr := fun i => word (i.val + 1), iIndirect := word 11,
    iDindirect := word 12, blockCount := word 13,
    iSize := leInt (fun k => b.get (offset + 56 + k)) 8 }

end Dinode

/-- `struct inode` without its reference count. `dirty` is `I_FLAGS_DIRTY`, the only flag. -/
structure Inode where
  din : Dinode
  dirty : Bool
  iNr : Nat

/-- An inode with the super block its `sb` field points to. -/
structure InodeSt where
  sb : SuperBlock
  ino : Inode

/-- Programs on an inode and its super block. -/
abbrev InodeM := Program Halt Event InodeSt

/-- A super block operation on `in->sb`. -/
def onSb {α : Type} (m : SbM α) : InodeM α :=
  Program.zoom InodeSt.sb (fun sb s => { s with sb := sb }) m

/-- An assignment to a field of the disk inode. -/
def setDin (f : Dinode → Dinode) : InodeM Unit :=
  Program.modify fun s => { s with ino.din := f s.ino.din }

/-- `in->i_flags |= I_FLAGS_DIRTY` -/
def setDirty : InodeM Unit := Program.modify fun s => { s with ino.dirty := true }

/-- The block of the inode table that holds inode `nr`, relative to its start. -/
def testfsInodeToBlockNr (nr : Nat) : Except Halt Nat := do
  let blockNr := nr / inodesPerBlock
  assertC .inodeBlockNrInRange (blockNr < nrInodeBlocks)
  return blockNr

def testfsInodeToBlockOffset (nr : Nat) : Nat := nr % inodesPerBlock * sizeofDinode

def testfsReadInodeBlock (sb : SuperBlock) (nr : Nat) : Except Halt Block := do
  let blockNr ← testfsInodeToBlockNr nr
  sb.dev.read (sb.sb.inodeBlocksStart + blockNr : Nat)

def testfsWriteInodeBlock (sb : SuperBlock) (nr : Nat) (block : Block) : Except Halt SuperBlock := do
  let blockNr ← testfsInodeToBlockNr nr
  return { sb with dev := sb.dev.write (sb.sb.inodeBlocksStart + blockNr) block }

/-- Synchronize the inode in memory to disk. -/
def testfsSyncInode : InodeM Unit := do
  let s ← Program.get
  if s.ino.dirty then
    let block ← Program.reads fun s => testfsReadInodeBlock s.sb s.ino.iNr
    let block := block.copyIn (testfsInodeToBlockOffset s.ino.iNr) s.ino.din.byte sizeofDinode
    let sb ← Program.reads fun s => testfsWriteInodeBlock s.sb s.ino.iNr block
    Program.set { sb := sb, ino := { s.ino with dirty := false } }

/-- Allocate a new physical block for the inode; the physical block number or an error. -/
def testfsAllocBlockForInode : InodeM Int := do
  let phyBlockNr ← onSb testfsAllocBlock
  if phyBlockNr ≥ 0 then
    setDin fun d => { d with blockCount := d.blockCount + 1 }
    setDirty
  return phyBlockNr

/-- Deallocate a physical block that was previously allocated to this inode. -/
def testfsFreeBlockFromInode (phyBlockNr : Int) : InodeM Unit := do
  if phyBlockNr = 0 then return
  onSb (testfsFreeBlock phyBlockNr)
  setDin fun d => { d with blockCount := d.blockCount - 1 }
  setDirty

/-- An entry of the hash table: the inode and `i_count`. -/
structure HashNode where
  inode : Inode
  iCount : Nat

/-- `inode_hash_table`: the chains of its 256 buckets. -/
abbrev HashTable := Nat → List HashNode

abbrev inodeHashSize : Nat := 256

/-- `inode_hashfn`: the high eight bits of the number times `GOLDEN_RATIO_PRIME_32`. -/
def inodeHashfn (nr : Nat) : Nat := nr * 0x9e370001 % 2 ^ 32 / 2 ^ 24

def inodeHashInit : HashTable := fun _ => []

def inodeHashFind (h : HashTable) (nr : Nat) : Option HashNode :=
  (h (inodeHashfn nr)).find? fun n => n.inode.iNr = nr

/-- `hlist_add_head` to the bucket of the inode. -/
def inodeHashInsert (h : HashTable) (n : HashNode) : HashTable :=
  Function.update h (inodeHashfn n.inode.iNr) (n :: h (inodeHashfn n.inode.iNr))

/-- `hlist_del` of the entry of inode `nr`. -/
def inodeHashRemove (h : HashTable) (nr : Nat) : HashTable :=
  Function.update h (inodeHashfn nr) ((h (inodeHashfn nr)).filter fun n => n.inode.iNr ≠ nr)

/-- A change to the entry of inode `nr`, which stays where it is in its chain. -/
def inodeHashModify (h : HashTable) (nr : Nat) (f : HashNode → HashNode) : HashTable :=
  Function.update h (inodeHashfn nr)
    ((h (inodeHashfn nr)).map fun n => if n.inode.iNr = nr then f n else n)

/-- `inode_hash_destroy` -/
def inodeHashDestroy (h : HashTable) : Except Halt Unit :=
  assertC .inodeHashDestroyEmpty (∀ i < inodeHashSize, (h i).isEmpty)

/-- The state of the program: the super block, the hash table and the current directory. -/
structure FileSystem where
  sb : SuperBlock
  hash : HashTable
  curDir : Nat

/-- Programs on the whole file system. -/
abbrev FsM := Program Halt Event FileSystem

/-- The state after an operation on the in-memory inode `nr`. -/
abbrev FileSystem.withInode (s : FileSystem) (nr : Nat) (st : InodeSt) : FileSystem :=
  { s with sb := st.sb, hash := inodeHashModify s.hash nr fun n => { n with inode := st.ino } }

/-- A super block operation. -/
def onSuper {α : Type} (m : SbM α) : FsM α :=
  Program.zoom FileSystem.sb (fun sb s => { s with sb := sb }) m

/-- An operation on the in-memory inode `nr`. Using one that is not in memory is undefined. -/
def onInode {α : Type} (nr : Nat) (m : InodeM α) : FsM α where
  exec s :=
    match inodeHashFind s.hash nr with
    | none => .error .undefined
    | some n =>
      match m.run { sb := s.sb, ino := n.inode } with
      | .error e => .error e
      | .ok r => .ok {
          val := r.val
          st := s.withInode nr r.st
          log := r.log }
  final s :=
    match inodeHashFind s.hash nr with
    | none => s
    | some n => s.withInode nr (m.final { sb := s.sb, ino := n.inode })
  final_eq s r h := by
    cases hn : inodeHashFind s.hash nr with
    | none =>
      rw [hn] at h
      cases h
    | some n =>
      rw [hn] at h
      dsimp only at h
      cases hm : m.run { sb := s.sb, ino := n.inode } with
      | error e =>
        rw [hm] at h
        cases h
      | ok a =>
        rw [hm] at h
        cases h
        dsimp only
        rw [m.final_eq _ _ hm]

/-- An operation that only reads the in-memory inode `nr` and the device. -/
def onInodeRead {α : Type} (nr : Nat) (f : Dinode → Dev → Except Halt α) : FsM α :=
  Program.reads fun s =>
    match inodeHashFind s.hash nr with
    | none => .error .undefined
    | some n => f n.inode.din s.sb.dev

/-- Read an inode from disk unless it is in memory already; take a reference. -/
def testfsGetInode (nr : Nat) : FsM Unit := do
  let s ← Program.get
  match inodeHashFind s.hash nr with
  | some _ =>
    Program.modify fun s =>
      { s with hash := inodeHashModify s.hash nr fun n => { n with iCount := n.iCount + 1 } }
  | none =>
    let block ← Program.reads fun s => testfsReadInodeBlock s.sb nr
    let inode : Inode :=
      { din := Dinode.decode block (testfsInodeToBlockOffset nr), dirty := false, iNr := nr }
    Program.modify fun s => { s with hash := inodeHashInsert s.hash { inode := inode, iCount := 1 } }

/-- Drop a reference; the last one takes the inode out of the hash table. -/
def testfsPutInode (nr : Nat) : FsM Unit := do
  let n ← Program.reads fun s =>
    match inodeHashFind s.hash nr with
    | none => .error .undefined
    | some n => .ok n
  Program.reads fun _ => assertC .putInodeClean (n.inode.dirty = false)
  if n.iCount = 1 then
    Program.modify fun s => { s with hash := inodeHashRemove s.hash nr }
  else
    Program.modify fun s =>
      { s with hash := inodeHashModify s.hash nr fun n => { n with iCount := n.iCount - 1 } }

/-- `testfs_inode_get_type` -/
def testfsInodeGetType (nr : Nat) : FsM Int := onInodeRead nr fun d _ => .ok d.iType

/-- `testfs_inode_get_size` -/
def testfsInodeGetSize (nr : Nat) : FsM Int := onInodeRead nr fun d _ => .ok d.iSize

/-- `testfs_inode_get_block_count` -/
def testfsInodeGetBlockCount (nr : Nat) : FsM Int := onInodeRead nr fun d _ => .ok d.blockCount

/-- Create a new inode for a file or directory: 0 and its number, or an error. -/
def testfsCreateInode (type : InodeType) : FsM (Int × Nat) := do
  let inodeNr ← onSuper testfsGetInodeFreemap
  if inodeNr < 0 then return (inodeNr, 0)
  if inodeNr.toNat / inodesPerBlock ≥ nrInodeBlocks then
    -- undo the freemap and return error
    onSuper (testfsPutInodeFreemap inodeNr.toNat)
    return (-ENOSPC, 0)
  testfsGetInode inodeNr.toNat
  onInode inodeNr.toNat do
    setDin fun d => { d with iType := type.val }
    setDirty
  return (0, inodeNr.toNat)

end Ece344Lab.Fs
