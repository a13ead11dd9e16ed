import Ece344Lab.Fs.Bitmap

/-!
# The super block and the two freemaps

`super.h` and `super.c`. The in-memory super block holds the device, and every
operation that changes a count or a freemap writes the changed block through.
-/
namespace Ece344Lab.Fs

open Ece344Lab.Library

/-- `struct dsuper_block`, the super block on disk. -/
structure DsuperBlock where
  inodeFreemapStart : Nat
  blockFreemapStart : Nat
  inodeBlocksStart : Nat
  dataBlocksStart : Nat
  usedInodeCount : Nat
  usedBlockCount : Nat
  maxFsBlocks : Nat

namespace DsuperBlock

/-- The six `u32` fields in order. -/
def word (d : DsuperBlock) : Nat → Nat
  | 0 => d.inodeFreemapStart
  | 1 => d.blockFreemapStart
  | 2 => d.inodeBlocksStart
  | 3 => d.dataBlocksStart
  | 4 => d.usedInodeCount
  | _ => d.usedBlockCount

/-- The 32 bytes of the structure, `memcpy`ed into a zeroed block. -/
def encode (d : DsuperBlock) : Block := Block.ofFn fun i =>
  if i < 24 then leByte (d.word (i / 4)) (i % 4)
  else if i < 32 then leByte d.maxFsBlocks (i - 24)
  else 0

def decode (b : Block) : DsuperBlock :=
  let word (j : Nat) := leVal (fun k => b.get (4 * j + k)) 4
  { inodeFreemapStart := word 0, blockFreemapStart := word 1, inodeBlocksStart := word 2,
    dataBlocksStart := word 3, usedInodeCount := word 4, usedBlockCount := word 5,
    maxFsBlocks := leVal (fun k => b.get (24 + k)) 8 }

end DsuperBlock

/-- `struct super_block`: the in-memory super block with its device and freemaps. -/
structure SuperBlock where
  sb : DsuperBlock
  dev : Dev
  inodeFreemap : Bitmap
  blockFreemap : Bitmap

/-- Programs on the super block. -/
abbrev SbM := Program Halt Event SuperBlock

def testfsWriteSuperBlock (s : SuperBlock) : SuperBlock :=
  { s with dev := s.dev.write 0 s.sb.encode }

def testfsWriteInodeFreemap (s : SuperBlock) (inodeNr : Nat) : SuperBlock :=
  let nr := inodeNr / (blockSize * bitsPerWord)
  { s with dev := s.dev.write (s.sb.inodeFreemapStart + nr) (bitmapGetdata s.inodeFreemap nr) }

def testfsWriteBlockFreemap (s : SuperBlock) (blockNr : Nat) : SuperBlock :=
  let nr := blockNr / (blockSize * bitsPerWord)
  { s with dev := s.dev.write (s.sb.blockFreemapStart + nr) (bitmapGetdata s.blockFreemap nr) }

/-- Return a free block number or a negative value. -/
def testfsGetBlockFreemap : SbM Int := do
  let (ret, index, map) ← Program.reads fun s => bitmapAlloc s.blockFreemap
  if ret < 0 then return ret
  Program.modify fun s => testfsWriteBlockFreemap { s with blockFreemap := map } index
  return index

/-- Release an allocated block. -/
def testfsPutBlockFreemap (blockNr : Nat) : SbM Unit := do
  let map ← Program.reads fun s => bitmapUnmark s.blockFreemap blockNr
  Program.modify fun s => testfsWriteBlockFreemap { s with blockFreemap := map } blockNr

def testfsGetInodeFreemap : SbM Int := do
  let (ret, index, map) ← Program.reads fun s => bitmapAlloc s.inodeFreemap
  if ret < 0 then return ret
  Program.modify fun s => testfsWriteInodeFreemap { s with inodeFreemap := map } index
  Program.modify fun s =>
    testfsWriteSuperBlock { s with sb.usedInodeCount := s.sb.usedInodeCount + 1 }
  return index

def testfsPutInodeFreemap (inodeNr : Nat) : SbM Unit := do
  let map ← Program.reads fun s => bitmapUnmark s.inodeFreemap inodeNr
  Program.modify fun s => testfsWriteInodeFreemap { s with inodeFreemap := map } inodeNr
  Program.reads fun s => assertC .putInodeFreemapUsedCount (0 < s.sb.usedInodeCount)
  Program.modify fun s =>
    testfsWriteSuperBlock { s with sb.usedInodeCount := s.sb.usedInodeCount - 1 }

def testfsAllocBlock : SbM Int := do
  let s ← Program.get
  -- the file system size is limited to max_fs_blocks
  if s.sb.usedBlockCount ≥ s.sb.maxFsBlocks then
    Program.emit .allocBlockFailed
    return -ENOSPC
  let phyBlockNr ← testfsGetBlockFreemap
  if phyBlockNr < 0 then
    Program.emit .allocBlockFailed
    return phyBlockNr
  Program.modify fun s =>
    testfsWriteSuperBlock { s with sb.usedBlockCount := s.sb.usedBlockCount + 1 }
  return s.sb.dataBlocksStart + phyBlockNr

def testfsFreeBlock (blockNr : Int) : SbM Unit := do
  Program.reads fun _ => if blockNr < 0 then .error .exitFseek else .ok ()
  Program.modify fun s => { s with dev := s.dev.zeroMany blockNr.toNat 1 }
  let s ← Program.get
  let blockNr := blockNr - s.sb.dataBlocksStart
  Program.reads fun _ => assertC .freeBlockNrNonneg (0 ≤ blockNr)
  testfsPutBlockFreemap blockNr.toNat
  Program.reads fun s => assertC .freeBlockUsedCount (0 < s.sb.usedBlockCount)
  Program.modify fun s =>
    testfsWriteSuperBlock { s with sb.usedBlockCount := s.sb.usedBlockCount - 1 }

/-- The super block that `testfs_make_super_block` writes to a new device. -/
def newDsuperBlock (maxFsBlocks : Nat) : DsuperBlock :=
  let inodeFreemapStart := superBlockSize
  let blockFreemapStart := inodeFreemapStart + inodeFreemapSize
  let inodeBlocksStart := blockFreemapStart + blockFreemapSize
  { inodeFreemapStart := inodeFreemapStart, blockFreemapStart := blockFreemapStart,
    inodeBlocksStart := inodeBlocksStart, dataBlocksStart := inodeBlocksStart + nrInodeBlocks,
    usedInodeCount := 0, usedBlockCount := 0, maxFsBlocks := maxFsBlocks }

def emptyDev : Dev := { blocks := fun _ => Block.zero, size := 0 }

/-- `testfs_make_super_block`, `testfs_make_inode_freemap`, `testfs_make_block_freemap` and
`testfs_make_inode_blocks` in the order of mktestfs.c, then `testfs_close_super_block`, which
at this point has no freemaps to write. -/
def testfsMakeDev (maxFsBlocks : Nat) : Dev :=
  let sb := newDsuperBlock maxFsBlocks
  let dev := emptyDev.write 0 sb.encode
  let dev := dev.zeroMany sb.inodeFreemapStart inodeFreemapSize
  let dev := dev.zeroMany sb.blockFreemapStart blockFreemapSize
  let dev := dev.zeroMany sb.inodeBlocksStart nrInodeBlocks
  dev.write 0 sb.encode

/-- Read `nr` blocks of the device over the bytes of a bitmap. -/
def readFreemap (dev : Dev) (b : Bitmap) (start nr : Nat) : Except Halt Bitmap := do
  let buf ← dev.readMany start nr
  return { b with v := fun i =>
    if i < nr * blockSize then (buf (i / blockSize)).get (i % blockSize) else b.v i }

def testfsInitSuperBlock (dev : Dev) : Except Halt SuperBlock := do
  let block ← dev.read 0
  let sb := DsuperBlock.decode block
  let inodeFreemap ← readFreemap dev (bitmapCreate (blockSize * inodeFreemapSize * bitsPerWord))
    sb.inodeFreemapStart inodeFreemapSize
  let blockFreemap ← readFreemap dev (bitmapCreate (blockSize * blockFreemapSize * bitsPerWord))
    sb.blockFreemapStart blockFreemapSize
  return { sb := sb, dev := dev, inodeFreemap := inodeFreemap, blockFreemap := blockFreemap }

/-- The device after `testfs_close_super_block` of an open file system. -/
def testfsCloseSuperBlock (s : SuperBlock) : Dev :=
  let s := testfsWriteSuperBlock s
  let dev := s.dev.writeMany (bitmapGetdata s.inodeFreemap) s.sb.inodeFreemapStart inodeFreemapSize
  dev.writeMany (bitmapGetdata s.blockFreemap) s.sb.blockFreemapStart blockFreemapSize

end Ece344Lab.Fs
