import Mathlib.Logic.Function.Basic
import Ece344Lab.Library.LittleEndian
import Ece344Lab.Library.Program

/-!
# Blocks, the device and the ways a testfs process stops

`testfs.h`, `block.h` and `block.c`. Signed C values are `Int`, sizes and
unsigned values `Nat`; a conversion that can change a value is written out
where the source makes it.
-/
namespace Ece344Lab.Fs

open Ece344Lab.Library

abbrev blockSize : Nat := 8192
abbrev superBlockSize : Nat := 1
abbrev inodeFreemapSize : Nat := 1
abbrev blockFreemapSize : Nat := 16
abbrev nrInodeBlocks : Nat := 128

abbrev ENOENT : Int := 2
abbrev ENOMEM : Int := 12
abbrev EEXIST : Int := 17
abbrev ENOTDIR : Int := 20
abbrev EISDIR : Int := 21
abbrev EINVAL : Int := 22
abbrev EFBIG : Int := 27
abbrev ENOSPC : Int := 28
abbrev ENOTEMPTY : Int := 39

/-- The `assert`s of the source that a run can reach, by function and condition. -/
inductive Assertion
  | bitmapAllocInRange
  | bitmapAllocByteHasClearBit
  | bitmapMarkInRange
  | bitmapMarkClear
  | bitmapUnmarkInRange
  | bitmapUnmarkSet
  | inodeHashDestroyEmpty
  | inodeBlockNrInRange
  | putInodeClean
  | removeInodeBlockCountZero
  | putInodeFreemapUsedCount
  | freeBlockNrNonneg
  | freeBlockUsedCount
  | readBlockNrNonneg
  | allocateBlockNrNonneg
  | allocateBlockEntryZero
  | direntDirectory
  | direntNameLenPos
  | direntInodeNrNonneg
  | addDirentFoundOrAtEnd
  | pwdParentFound
  | pwdNameFound
  deriving DecidableEq

/-- How a process ends without returning from a call. -/
inductive Halt
  /-- an `assert` of the source fails -/
  | assertion (a : Assertion)
  /-- `EXIT` after a failed `fseek` to a negative position -/
  | exitFseek
  /-- `EXIT` after a short `fread`: the block lies beyond the end of the device -/
  | exitFread
  /-- the C standard gives the operation no meaning: signed overflow, an access
  outside an object, use of uninitialised memory -/
  | undefined
  /-- recursion without end -/
  | stackOverflow
  deriving DecidableEq

/-- What a run logs: text written to `stdout`, and each call of
`testfs_alloc_block` that returns an error. -/
inductive Event
  | printf (text : List UInt8)
  | allocBlockFailed
  deriving DecidableEq

/-- Conversion to the C type `int`. -/
def toInt (x : Int) : Int := Int.bmod x (2 ^ 32)

/-- `INT_MAX` is 2147483647: a product of `int`s beyond it is undefined. -/
def intMax : Int := 2 ^ 31 - 1

theorem toInt_of_lt {x : Int} (hlo : -2 ^ 31 ≤ x) (hhi : x < 2 ^ 31) : toInt x = x := by
  unfold toInt
  apply Int.bmod_eq_of_le_mul_two <;> omega

/-- `assert(c)` -/
def assertC (a : Assertion) (c : Prop) [Decidable c] : Except Halt Unit :=
  if c then .ok () else .error (.assertion a)

theorem assertC_pos {a : Assertion} {c : Prop} [Decidable c] (h : c) : assertC a c = .ok () :=
  if_pos h

theorem assertC_neg {a : Assertion} {c : Prop} [Decidable c] (h : ¬ c) :
    assertC a c = .error (.assertion a) := if_neg h

/-- The contents of one disk block. -/
def Block : Type := Fin blockSize → UInt8

namespace Block

/-- Byte `i`, zero outside the block. -/
def get (b : Block) (i : Nat) : UInt8 := if h : i < blockSize then b ⟨i, h⟩ else 0

def ofFn (f : Nat → UInt8) : Block := fun i => f i.val

/-- A block of zeros (`zero` in block.c, and what `bzero` leaves). -/
def zero : Block := ofFn fun _ => 0

theorem get_ofFn (f : Nat → UInt8) (i : Nat) : (ofFn f).get i = if i < 8192 then f i else 0 := by
  unfold get ofFn
  split <;> simp_all

theorem get_ofFn_lt {f : Nat → UInt8} {i : Nat} (h : i < 8192) : (ofFn f).get i = f i := by
  rw [get_ofFn, if_pos h]

@[simp] theorem get_zero (i : Nat) : zero.get i = 0 := by
  simp [zero, get_ofFn]

theorem ext {a b : Block} (h : ∀ i, i < 8192 → a.get i = b.get i) : a = b := by
  funext i
  have hi := h i.val i.isLt
  simpa [get, i.isLt] using hi

@[simp] theorem ofFn_get (b : Block) : ofFn b.get = b :=
  ext fun _ hi => get_ofFn_lt hi

/-- `memcpy(block + ix, src, n)` -/
def copyIn (b : Block) (ix : Nat) (src : Nat → UInt8) (n : Nat) : Block :=
  ofFn fun i => if ix ≤ i ∧ i < ix + n then src (i - ix) else b.get i

theorem get_copyIn (b : Block) (ix : Nat) (src : Nat → UInt8) (n : Nat) {i : Nat} (hi : i < 8192) :
    (b.copyIn ix src n).get i = if ix ≤ i ∧ i < ix + n then src (i - ix) else b.get i :=
  get_ofFn_lt hi

/-- Entry `i` of the block read as an array of `int`. -/
def int (b : Block) (i : Nat) : Int := leInt (fun k => b.get (4 * i + k)) 4

/-- `((int *) block)[i] = v` -/
def setInt (b : Block) (i : Nat) (v : Int) : Block :=
  ofFn fun j => if j / 4 = i then leByte (leRep 4 v) (j % 4) else b.get j

@[simp] theorem int_zero (i : Nat) : zero.int i = 0 := by
  simp [int, leInt_zero]

theorem int_setInt_same (b : Block) {i : Nat} {v : Int} (hi : i < 2048)
    (hlo : -2 ^ 31 ≤ v) (hhi : v < 2 ^ 31) : (b.setInt i v).int i = v := by
  have hbytes : ∀ k, k < 4 → (b.setInt i v).get (4 * i + k) = leByte (leRep 4 v) k := by
    intro k hk
    rw [setInt, get_ofFn_lt (by omega), if_pos (by omega)]
    congr 1
    omega
  rw [int, leInt_congr hbytes]
  exact leInt_leRep (by norm_num; omega) (by norm_num; omega)

theorem int_setInt_ne (b : Block) {i j : Nat} (v : Int) (hj : j < 2048) (hne : j ≠ i) :
    (b.setInt i v).int j = b.int j := by
  apply leInt_congr
  intro k hk
  rw [setInt, get_ofFn_lt (by omega), if_neg (by omega)]

end Block

/-- The device file: its blocks and the number of blocks written so far. The
blocks behind the end of the file have no contents yet. -/
structure Dev where
  blocks : Nat → Block
  size : Nat

namespace Dev

/-- `write_blocks` of one block. Writing behind the end extends the file. -/
def write (d : Dev) (n : Nat) (b : Block) : Dev :=
  { blocks := Function.update d.blocks n b, size := max d.size (n + 1) }

@[simp] theorem write_blocks_same (d : Dev) (n : Nat) (b : Block) :
    (d.write n b).blocks n = b := by
  simp [write]

theorem write_blocks_ne (d : Dev) {n m : Nat} (b : Block) (h : m ≠ n) :
    (d.write n b).blocks m = d.blocks m := by
  simp [write, h]

theorem write_blocks (d : Dev) (n m : Nat) (b : Block) :
    (d.write n b).blocks m = if m = n then b else d.blocks m := by
  simp [write, Function.update_apply]

@[simp] theorem write_size (d : Dev) (n : Nat) (b : Block) :
    (d.write n b).size = max d.size (n + 1) := rfl

/-- `read_blocks` of one block. -/
def read (d : Dev) (start : Int) : Except Halt Block :=
  if start < 0 then .error .exitFseek
  else if start.toNat < d.size then .ok (d.blocks start.toNat)
  else .error .exitFread

theorem read_ok {d : Dev} {n : Nat} (h : n < d.size) : d.read n = .ok (d.blocks n) := by
  simp [read, h]

/-- `write_blocks(sb, buf, start, nr)` for a buffer of `nr` blocks. -/
def writeMany (d : Dev) (buf : Nat → Block) (start : Nat) : Nat → Dev
  | 0 => d
  | nr + 1 => (d.writeMany buf start nr).write (start + nr) (buf nr)

/-- `zero_blocks(sb, start, nr)` -/
def zeroMany (d : Dev) (start nr : Nat) : Dev := d.writeMany (fun _ => Block.zero) start nr

/-- `read_blocks(sb, buf, start, nr)`: block `k` of the buffer, if the whole range is there. -/
def readMany (d : Dev) (start nr : Nat) : Except Halt (Nat → Block) :=
  if start + nr ≤ d.size then .ok (fun k => d.blocks (start + k)) else .error .exitFread

end Dev

end Ece344Lab.Fs
