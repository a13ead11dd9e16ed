import Ece344Lab.Fs.Dir

/-!
# The commands and the two programs

The `cmd_` functions of `dir.c`, `file.c` and `super.c`, the conversions of
`common.c`, and `main` of `mktestfs.c` and `testfs.c`.
-/
namespace Ece344Lab.Fs

open Ece344Lab.Library

/-- An argument of a command: `strtok_r` yields nonempty strings only, and a C string has no
zero byte. -/
structure Token where
  bytes : List UInt8
  ne_nil : bytes ≠ []
  no_nul : 0 ∉ bytes

def isSpaceC (c : UInt8) : Bool := c = 32 ∨ (9 ≤ c ∧ c ≤ 13)

def isDigitC (c : UInt8) : Bool := 48 ≤ c ∧ c ≤ 57

/-- The value of a string of decimal digits. -/
def digitsVal (ds : List UInt8) : Nat := ds.foldl (fun n c => 10 * n + (c.toNat - 48)) 0

/-- The common part of `strtoll` and `strtoull`: sign, magnitude and the rest of the string,
or `none` when there are no digits and nothing is converted. -/
def strtoNum (str : List UInt8) : Option (Bool × Nat × List UInt8) :=
  let s := str.dropWhile isSpaceC
  let neg := s.head? = some 45
  let s := if s.head? = some 45 ∨ s.head? = some 43 then s.tail else s
  let ds := s.takeWhile isDigitC
  if ds = [] then none else some (neg, digitsVal ds, s.dropWhile isDigitC)

/-- `str_to_offset`: 0 and the value, saturated to 64 bits, or an error. -/
def strToOffset (str : List UInt8) : Int × Int :=
  match strtoNum str with
  | some (neg, n, []) =>
    (0, if neg then max (-2 ^ 63) (-n) else min (2 ^ 63 - 1) n)
  | some _ => (-EINVAL, 0)
  | none => if str = [] then (0, 0) else (-EINVAL, 0)

/-- `str_to_size`: a minus sign negates in the unsigned type. -/
def strToSize (str : List UInt8) : Int × Nat :=
  match strtoNum str with
  | some (neg, n, []) =>
    (0, if n ≥ 2 ^ 64 then 2 ^ 64 - 1 else if neg then (2 ^ 64 - n) % 2 ^ 64 else n)
  | some _ => (-EINVAL, 0)
  | none => if str = [] then (0, 0) else (-EINVAL, 0)

def asciiBytes (s : String) : List UInt8 := s.toList.map fun c => UInt8.ofNat c.toNat

def decimal (x : Int) : List UInt8 := asciiBytes (toString x)

/-- `testfs_dir_name_to_inode_nr(c->cur_dir, name)` -/
def lookupCurDir (name : Token) : FsM Int := do
  let s ← Program.get
  onInodeRead s.curDir fun d dev => testfsDirNameToInodeNr d dev name.bytes

def cmdCd : List Token → FsM Int
  | [name] => do
    let inodeNr ← lookupCurDir name
    if inodeNr < 0 then return inodeNr
    let dirInode := inodeNr.toNat
    testfsGetInode dirInode
    let type ← testfsInodeGetType dirInode
    if type ≠ InodeType.dir.val then
      testfsPutInode dirInode
      return -ENOTDIR
    let s ← Program.get
    testfsPutInode s.curDir
    Program.modify fun s => { s with curDir := dirInode }
    return 0
  | _ => return -EINVAL

def cmdPwd : List Token → FsM Int
  | [] => do
    let s ← Program.get
    let _ ← testfsPwd maxDepth s.curDir
    Program.emit (.printf newline)
    return 0
  | _ => return -EINVAL

def cmdLsInternal (recursive : Bool) : List Token → FsM Int
  | [cdir] => do
    let inodeNr ← lookupCurDir cdir
    if inodeNr < 0 then return inodeNr
    testfsGetInode inodeNr.toNat
    let type ← testfsInodeGetType inodeNr.toNat
    if type = InodeType.dir.val then
      testfsLs recursive maxDepth inodeNr.toNat
    else return -ENOTDIR
    testfsPutInode inodeNr.toNat
    return 0
  | _ => return -EINVAL

def cmdLs : List Token → FsM Int := cmdLsInternal false

def cmdLsr : List Token → FsM Int := cmdLsInternal true

/-- `cmd_create` and `cmd_mkdir`, which differ in the type they pass on. -/
def cmdMake (type : InodeType) : List Token → FsM Int
  | [name] => do
    let s ← Program.get
    testfsCreateFileOrDir (some s.curDir) type name.bytes
  | _ => return -EINVAL

def cmdCreate : List Token → FsM Int := cmdMake .file

def cmdMkdir : List Token → FsM Int := cmdMake .dir

def cmdRm : List Token → FsM Int
  | [name] => do
    let s ← Program.get
    let inodeNr ← testfsRemoveDirent s.curDir name.bytes
    if inodeNr < 0 then return inodeNr
    testfsGetInode inodeNr.toNat
    testfsRemoveInode inodeNr.toNat
    onInode s.curDir testfsSyncInode
    return 0
  | _ => return -EINVAL

def cmdStat : List Token → FsM Int
  | [name] => do
    let inodeNr ← lookupCurDir name
    if inodeNr < 0 then return inodeNr
    let nr := inodeNr.toNat
    testfsGetInode nr
    let type ← testfsInodeGetType nr
    let size ← testfsInodeGetSize nr
    let count ← testfsInodeGetBlockCount nr
    Program.emit (.printf (name.bytes ++ asciiBytes ": i_nr = " ++ decimal nr ++
      asciiBytes ", i_type = " ++ decimal type ++ asciiBytes ", i_size = " ++ decimal size ++
      asciiBytes ", block_count = " ++ decimal count ++ newline))
    testfsPutInode nr
    return 0
  | _ => return -EINVAL

/-- `cmd_fsstat` of `super.c`. -/
def cmdFsstat : List Token → FsM Int
  | [] => do
    let s ← Program.get
    Program.emit (.printf (asciiBytes "nr of allocated inodes = " ++
      decimal s.sb.sb.usedInodeCount ++ newline))
    Program.emit (.printf (asciiBytes "nr of allocated blocks = " ++
      decimal s.sb.sb.usedBlockCount ++ newline))
    return 0
  | _ => return -EINVAL

/-- Get the inode of a file called `name` in the current directory: 0 and its number, or an
error. -/
def testfsGetFileInode (name : Token) : FsM (Int × Nat) := do
  let inodeNr ← lookupCurDir name
  if inodeNr < 0 then return (inodeNr, 0)
  let nr := inodeNr.toNat
  testfsGetInode nr
  let type ← testfsInodeGetType nr
  if type = InodeType.dir.val then
    testfsPutInode nr
    return (-EISDIR, 0)
  return (0, nr)

/-- The part of `cmd_read` that works on the inode, and its output. -/
def readFile (d : Dinode) (dev : Dev) (offset : Int) (size : Nat) :
    Except Halt (Int × List UInt8) := do
  let stop ← addOff offset (toOffT size)
  if stop > d.iSize then return (-EINVAL, [])
  if mallocFails ((size + 1) % 2 ^ 64) then return (-ENOMEM, [])
  let (ret, buf) ← testfsReadData d dev (fun _ => 0) offset size
  if ret ≥ 0 then
    let text ← cString ((List.range size).map buf ++ [0])
    return (ret, text ++ newline)
  return (ret, [])

def cmdRead : List Token → FsM Int
  | [filename, offsetArg, sizeArg] => do
    let (ret, offset) := strToOffset offsetArg.bytes
    if ret < 0 then return ret
    if offset < 0 then return -EINVAL
    let (ret, size) := strToSize sizeArg.bytes
    if ret < 0 then return ret
    let (ret, nr) ← testfsGetFileInode filename
    if ret < 0 then return ret
    let (ret, text) ← onInodeRead nr fun d dev => readFile d dev offset size
    if ret ≥ 0 then
      Program.emit (.printf text)
    testfsPutInode nr
    return ret
  | _ => return -EINVAL

def cmdWrite : List Token → FsM Int
  | [filename, offsetArg, data] => do
    let (ret, offset) := strToOffset offsetArg.bytes
    if ret < 0 then return ret
    if offset < 0 then return -EINVAL
    let (ret, nr) ← testfsGetFileInode filename
    if ret < 0 then return ret
    let ret ← onInode nr
      (testfsWriteData (fun k => data.bytes.getD k 0) offset data.bytes.length)
    onInode nr testfsSyncInode
    testfsPutInode nr
    return ret
  | _ => return -EINVAL

/-- The commands of `cmdtable` that work on the file system. -/
inductive CmdName
  | cd | pwd | ls | lsr | create | stat | rm | mkdir | read | write | fsstat
  deriving DecidableEq

/-- A command with its arguments, `c->cmd[1]` onwards. -/
structure Command where
  name : CmdName
  args : List Token

/-- `cmdtable[i].func(sb, c)` -/
def Command.func (c : Command) : FsM Int :=
  match c.name with
  | .cd => cmdCd c.args
  | .pwd => cmdPwd c.args
  | .ls => cmdLs c.args
  | .lsr => cmdLsr c.args
  | .create => cmdCreate c.args
  | .stat => cmdStat c.args
  | .rm => cmdRm c.args
  | .mkdir => cmdMkdir c.args
  | .read => cmdRead c.args
  | .write => cmdWrite c.args
  | .fsstat => cmdFsstat c.args

/-- The end of both programs: the super block is closed and the hash table destroyed. -/
def closeFileSystem (s : FileSystem) : Except Halt Dev := do
  inodeHashDestroy s.hash
  return testfsCloseSuperBlock s.sb

/-- The sizes in MB that mktestfs accepts. -/
structure FsSize where
  mb : Nat
  pos : 1 ≤ mb
  le_max : mb ≤ 8192

/-- `max_fs_blocks = (fs_size_mb << 20) / BLOCK_SIZE` -/
def FsSize.maxFsBlocks (size : FsSize) : Nat := size.mb * 2 ^ 20 / blockSize

/-- The second half of `main` of mktestfs.c: the root directory of a new device. -/
def makeRoot (dev : Dev) : Except Halt FileSystem := do
  let sb ← testfsInitSuperBlock dev
  let r ← testfsMakeRootDir.run { sb := sb, hash := inodeHashInit, curDir := 0 }
  return r.st

/-- The device that mktestfs leaves. -/
def mktestfs (size : FsSize) : Except Halt Dev := do
  let s ← makeRoot (testfsMakeDev size.maxFsBlocks)
  closeFileSystem s

/-- testfs before its first command. -/
def openTestfs (dev : Dev) : Except Halt FileSystem := do
  let sb ← testfsInitSuperBlock dev
  -- root dir
  let r ← (testfsGetInode 0).run { sb := sb, hash := inodeHashInit, curDir := 0 }
  return r.st

/-- `quit` or the end of the input: the current directory is put and the device closed. -/
def quitTestfs (s : FileSystem) : Except Halt Dev := do
  let r ← (testfsPutInode s.curDir).run s
  closeFileSystem r.st

/-- The state of testfs on a file system just made by mktestfs. -/
def startTestfs (size : FsSize) : Except Halt FileSystem := do
  let dev ← mktestfs size
  openTestfs dev

/-- The states between two commands of the runs whose steps all satisfy `ok`, a condition on
the state before the step, the command and what the step returns. -/
inductive Reachable (ok : FileSystem → Command → Ret Event FileSystem Int → Prop) :
    FileSystem → Prop
  | start {size : FsSize} {s : FileSystem} (h : startTestfs size = .ok s) : Reachable ok s
  | step {s : FileSystem} {c : Command} {r : Ret Event FileSystem Int} (hs : Reachable ok s)
      (h : c.func.run s = .ok r) (hok : ok s c r) : Reachable ok r.st

end Ece344Lab.Fs
