import Ece344Lab.Fs.ReadWrite

/-!
# Directories

`dir.h` and the operations of `dir.c` on directory entries. The search loops of
the source differ only in the entry they look for, so they are one search with a
parameter. An entry takes at least nine bytes, which bounds every search by the
size of the directory.
-/
namespace Ece344Lab.Fs

open Ece344Lab.Library

abbrev sizeofDirent : Nat := 8
abbrev invalidInodeNr : Int := -1

/-- `struct dirent` with the `d_name_len` bytes of the name behind it. -/
@[ext] structure Dirent where
  nameLen : Int
  inodeNr : Int
  name : List UInt8

/-- Byte `k` of the entry as it lies in memory and on disk. -/
def Dirent.byte (e : Dirent) (k : Nat) : UInt8 :=
  if k < 4 then leByte (leRep 4 e.nameLen) k
  else if k < 8 then leByte (leRep 4 e.inodeNr) (k - 4)
  else e.name.getD (k - 8) 0

/-- The C string at the start of some bytes. Reading on behind bytes without an end is undefined. -/
def cString (bytes : List UInt8) : Except Halt (List UInt8) :=
  if 0 ∈ bytes then .ok (bytes.takeWhile (· ≠ 0)) else .error .undefined

/-- `strcmp(D_NAME(d), name) == 0` -/
def Dirent.nameIs (e : Dirent) (name : List UInt8) : Except Halt Bool := do
  let s ← cString e.name
  return s = name

/-- `malloc` refuses only requests beyond `PTRDIFF_MAX`: memory is taken to be available. -/
def mallocFails (n : Nat) : Bool := 2 ^ 63 ≤ n

/-- The bytes of the name of an entry; `.` and `..`. -/
def dot : List UInt8 := [46]
def dotdot : List UInt8 := [46, 46]

/-- The next entry of a directory and the offset behind it; `none` is `NULL`. -/
def testfsNextDirent (dir : Dinode) (dev : Dev) (offset : Int) :
    Except Halt (Option (Dirent × Int)) := do
  assertC .direntDirectory (dir.iType = InodeType.dir.val)
  if offset ≥ dir.iSize then return none
  let (ret, d) ← testfsReadData dir dev (fun _ => 0) offset sizeofDirent
  if ret < 0 then return none
  -- a shorter read leaves part of the local variable uninitialised
  if ret < sizeofDirent then .error .undefined
  let nameLen := leInt d 4
  let inodeNr := leInt (fun k => d (4 + k)) 4
  assertC .direntNameLenPos (0 < nameLen)
  let (ret, name) ← testfsReadData dir dev (fun _ => 0) (offset + sizeofDirent) nameLen.toNat
  if ret < 0 then return none
  if ret < nameLen then .error .undefined
  return some ({ nameLen := nameLen, inodeNr := inodeNr, name := (List.range nameLen.toNat).map name },
    offset + sizeofDirent + nameLen)

/-- How a search through a directory ends. -/
inductive Search
  /-- the entry looked for, and its offset -/
  | found (d : Dirent) (pOffset : Int)
  /-- the offset at which `testfs_next_dirent` returned `NULL` -/
  | atEnd (pOffset : Int)

/-- The loops `for (; …; free(d))` of the source: step through the entries from `offset` on
until one is looked for. -/
def searchDirent (dir : Dinode) (dev : Dev) (wanted : Dirent → Except Halt Bool) :
    Nat → Int → Except Halt Search
  | 0, _ => .error .undefined
  | n + 1, offset => do
    match ← testfsNextDirent dir dev offset with
    | none => return .atEnd offset
    | some (d, next) =>
      if ← wanted d then return .found d offset
      searchDirent dir dev wanted n next

/-- A search from the start of the directory. -/
def searchDir (dir : Dinode) (dev : Dev) (wanted : Dirent → Except Halt Bool) :
    Except Halt Search :=
  searchDirent dir dev wanted (dir.iSize.toNat + 1) 0

/-- `d->d_inode_nr >= 0 && strcmp(D_NAME(d), name) == 0` -/
def Dirent.liveNamed (name : List UInt8) (d : Dirent) : Except Halt Bool :=
  if d.inodeNr < 0 then .ok false else d.nameIs name

/-- The inode number of the file or directory called `name`; negative if there is none. -/
def testfsDirNameToInodeNr (dir : Dinode) (dev : Dev) (name : List UInt8) : Except Halt Int := do
  assertC .direntDirectory (dir.iType = InodeType.dir.val)
  match ← searchDir dir dev (Dirent.liveNamed name) with
  | .found d _ => return d.inodeNr
  | .atEnd _ => return -ENOENT

/-- The entry associated with `inodeNr`. -/
def testfsFindDirent (dir : Dinode) (dev : Dev) (inodeNr : Int) : Except Halt (Option Dirent) := do
  assertC .direntDirectory (dir.iType = InodeType.dir.val)
  assertC .direntInodeNrNonneg (0 ≤ inodeNr)
  match ← searchDir dir dev (fun d => .ok (d.inodeNr = inodeNr)) with
  | .found d _ => return some d
  | .atEnd _ => return none

/-- Write an entry at an offset of the directory. The offset is passed as an `int`. -/
def testfsWriteDirent (name : List UInt8) (len inodeNr offset : Int) : InodeM Int := do
  if mallocFails (toSizeT (sizeofDirent + len)) then return -ENOMEM
  Program.reads fun _ => assertC .direntInodeNrNonneg (0 ≤ inodeNr)
  -- strcpy to the end of the allocated structure
  Program.reads fun _ => if name.length + 1 ≤ len then .ok () else .error .undefined
  let d : Dirent := { nameLen := len, inodeNr := inodeNr, name := name ++ [0] }
  testfsWriteData d.byte offset (toSizeT (sizeofDirent + len))

/-- The entries at which the loop of `testfs_add_dirent` stops: a live one with the name,
or a removed one of the same length. -/
def Dirent.taken (name : List UInt8) (len : Int) (d : Dirent) : Except Halt Bool := do
  if ← d.liveNamed name then return true
  return ¬ (d.inodeNr ≥ 0 ∨ d.nameLen ≠ len)

/-- Add an entry to the directory: in the first removed entry of the same length before a
live one with the name, or at the end. -/
def testfsAddDirent (name : List UInt8) (inodeNr : Int) : InodeM Int := do
  let len := toInt (name.length + 1 : Nat)
  Program.reads fun s => assertC .direntDirectory (s.ino.din.iType = InodeType.dir.val)
  let r ← Program.reads fun s => searchDir s.ino.din s.sb.dev (Dirent.taken name len)
  match r with
  | .found d pOffset =>
    if d.inodeNr ≥ 0 then return -EEXIST
    testfsWriteDirent name len inodeNr (toInt pOffset)
  | .atEnd pOffset =>
    Program.reads fun s => assertC .addDirentFoundOrAtEnd (pOffset = s.ino.din.iSize)
    testfsWriteDirent name len inodeNr (toInt pOffset)

/-- A live entry other than `.` and `..`. -/
def Dirent.keeps (d : Dirent) : Except Halt Bool := do
  if d.inodeNr < 0 then return false
  if ← d.nameIs dot then return false
  if ← d.nameIs dotdot then return false
  return true

/-- May the directory `inodeNr` be removed? Negative if it is not empty. -/
def testfsRemoveDirentAllowed (inodeNr : Nat) : FsM Int := do
  testfsGetInode inodeNr
  let ret ← onInodeRead inodeNr fun dir dev => do
    if dir.iType ≠ InodeType.dir.val then return 0
    match ← searchDir dir dev Dirent.keeps with
    | .found _ _ => return -ENOTEMPTY
    | .atEnd _ => return 0
  testfsPutInode inodeNr
  return ret

/-- Remove the entry called `name`: the inode number it had, or a negative value. -/
def testfsRemoveDirent (dir : Nat) (name : List UInt8) : FsM Int := do
  if name = dot ∨ name = dotdot then return -EINVAL
  let r ← onInodeRead dir fun d dev => searchDir d dev (Dirent.liveNamed name)
  match r with
  | .atEnd _ => return -ENOENT
  | .found d pOffset =>
    -- found the entry
    let inodeNr := d.inodeNr
    let ret ← testfsRemoveDirentAllowed inodeNr.toNat
    if ret < 0 then return ret
    let removed := { d with inodeNr := invalidInodeNr }
    let ret ← onInode dir
      (testfsWriteData removed.byte pOffset (toSizeT (sizeofDirent + d.nameLen)))
    if ret ≥ 0 then return inodeNr
    return ret

/-- Write the entries of a new directory. `pInodeNr` is the number of its parent. -/
def testfsCreateEmptyDir (pInodeNr cdir : Nat) : FsM Int := do
  let type ← testfsInodeGetType cdir
  Program.reads fun _ => assertC .direntDirectory (type = InodeType.dir.val)
  let ret ← onInode cdir (testfsAddDirent dot cdir)
  if ret < 0 then return ret
  let ret ← onInode cdir (testfsAddDirent dotdot pInodeNr)
  if ret < 0 then
    let _ ← testfsRemoveDirent cdir dot
    return ret
  return 0

/-- The part of `testfs_create_file_or_dir` between the creation of the inode `nr` and its
success or failure exit. -/
def fillInode (dir : Option Nat) (type : InodeType) (name : List UInt8) (nr : Nat) : FsM Int := do
  if type = .dir then
    let ret ← testfsCreateEmptyDir (dir.getD nr) nr
    if ret < 0 then return ret
  -- then add directory entry in dir for the newly created inode
  match dir with
  | none => return 0
  | some dir =>
    let ret ← onInode dir (testfsAddDirent name nr)
    if ret < 0 then return ret
    onInode dir testfsSyncInode
    return 0

/-- Create a new file or directory called `name` in the directory `dir`; `none` is `NULL`,
for the root directory. -/
def testfsCreateFileOrDir (dir : Option Nat) (type : InodeType) (name : List UInt8) : FsM Int := do
  let found ← match dir with
    | none => pure (-ENOENT)
    | some dir => onInodeRead dir fun d dev => testfsDirNameToInodeNr d dev name
  if found ≥ 0 then return -EEXIST
  -- first create inode
  let (ret, nr) ← testfsCreateInode type
  if ret < 0 then return ret
  let ret ← fillInode dir type name nr
  if ret < 0 then
    testfsRemoveInode nr
    return ret
  onInode nr testfsSyncInode
  testfsPutInode nr
  return 0

def testfsMakeRootDir : FsM Int := testfsCreateFileOrDir none .dir []

/-- The recursion depth that no tree of the inodes exceeds: a longer path repeats an inode,
and then the recursion has no end. -/
abbrev maxDepth : Nat := nrInodeBlocks * inodesPerBlock

def slash : List UInt8 := [47]
def newline : List UInt8 := [10]

/-- Print the path of the directory `nr`; 1 for the root. -/
def testfsPwd : Nat → Nat → FsM Int
  | 0, _ => Program.stop .stackOverflow
  | depth + 1, nr => do
    let pInodeNr ← onInodeRead nr fun d dev => testfsDirNameToInodeNr d dev dotdot
    Program.reads fun _ => assertC .pwdParentFound (0 ≤ pInodeNr)
    if pInodeNr = nr then
      Program.emit (.printf slash)
      return 1
    testfsGetInode pInodeNr.toNat
    let d ← onInodeRead pInodeNr.toNat fun d dev => testfsFindDirent d dev nr
    match d with
    | none => Program.stop (.assertion .pwdNameFound)
    | some d =>
      let ret ← testfsPwd depth pInodeNr.toNat
      testfsPutInode pInodeNr.toNat
      let name ← Program.reads fun _ => cString d.name
      Program.emit (.printf ((if ret = 1 then [] else slash) ++ name))
      return 0

/-- The loop of `testfs_ls` from `offset` on. -/
def lsLoop (recurse : Nat → FsM Unit) (recursive : Bool) (nr : Nat) : Nat → Int → FsM Unit
  | 0, _ => Program.stop .undefined
  | n + 1, offset => do
    let next ← onInodeRead nr fun d dev => testfsNextDirent d dev offset
    match next with
    | none => return ()
    | some (d, offset) =>
      if d.inodeNr < 0 then lsLoop recurse recursive nr n offset
      else
        let cin := d.inodeNr.toNat
        testfsGetInode cin
        let type ← testfsInodeGetType cin
        let name ← Program.reads fun _ => cString d.name
        Program.emit (.printf (name ++ (if type = InodeType.dir.val then slash else []) ++ newline))
        if recursive ∧ type = InodeType.dir.val ∧ name ≠ dot ∧ name ≠ dotdot then
          recurse cin
        testfsPutInode cin
        lsLoop recurse recursive nr n offset

/-- List files or directories in the directory `nr`. -/
def testfsLs (recursive : Bool) : Nat → Nat → FsM Unit
  | 0, _ => Program.stop .stackOverflow
  | depth + 1, nr => do
    let size ← testfsInodeGetSize nr
    lsLoop (testfsLs recursive depth) recursive nr (size.toNat + 1) 0

end Ece344Lab.Fs
