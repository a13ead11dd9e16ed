import Mathlib.Tactic.Positivity
import Mathlib.Tactic.Ring

/-!
# Little-endian words in a byte store

A word of `w` bytes at an address of a byte-addressed store, least significant
byte first. Signed words are the two's complement reading of the same bytes.
-/
namespace Ece344Lab.Library

/-- Byte `i` of a natural number. -/
def leByte (n i : Nat) : UInt8 := UInt8.ofNat (n / 256 ^ i)

/-- The value of the first `w` bytes of `f`. -/
def leVal (f : Nat → UInt8) : Nat → Nat
  | 0 => 0
  | w + 1 => leVal f w + (f w).toNat * 256 ^ w

theorem leVal_congr {f g : Nat → UInt8} {w : Nat} (h : ∀ i, i < w → f i = g i) :
    leVal f w = leVal g w := by
  induction w with
  | zero => rfl
  | succ w ih => rw [leVal, leVal, ih fun i hi => h i (by omega), h w (by omega)]

theorem leVal_zero (w : Nat) : leVal (fun _ => 0) w = 0 := by
  induction w with
  | zero => rfl
  | succ w ih => simp [leVal, ih]

/-- Reading back a number gives its value modulo the word size. -/
theorem leVal_leByte (n w : Nat) : leVal (leByte n) w = n % 256 ^ w := by
  induction w with
  | zero => simp [leVal, Nat.mod_one]
  | succ w ih =>
    have hb : (leByte n w).toNat = n / 256 ^ w % 256 := UInt8.toNat_ofNat'
    rw [leVal, ih, hb, Nat.pow_succ, Nat.mod_mul, Nat.mul_comm]

/-- The unsigned representation of an integer in a word of `w` bytes. -/
def leRep (w : Nat) (x : Int) : Nat := (x % (256 : Int) ^ w).toNat

/-- The signed value of the first `w` bytes of `f`. -/
def leInt (f : Nat → UInt8) (w : Nat) : Int := Int.bmod (leVal f w) (256 ^ w)

theorem leInt_congr {f g : Nat → UInt8} {w : Nat} (h : ∀ i, i < w → f i = g i) :
    leInt f w = leInt g w := by
  rw [leInt, leInt, leVal_congr h]

theorem leInt_zero (w : Nat) : leInt (fun _ => 0) w = 0 := by
  simp [leInt, leVal_zero]

/-- A signed word reads back as written when it fits. -/
theorem leInt_leRep {w : Nat} {x : Int} (hlo : -(256 : Int) ^ w ≤ 2 * x)
    (hhi : 2 * x < (256 : Int) ^ w) : leInt (leByte (leRep w x)) w = x := by
  have hpos : (0 : Int) < 256 ^ w := by positivity
  have hnn := Int.emod_nonneg x hpos.ne'
  have hlt := Int.emod_lt_of_pos x hpos
  have hcast : ((256 ^ w : Nat) : Int) = (256 : Int) ^ w := by push_cast; rfl
  have hrep : leRep w x % 256 ^ w = leRep w x := by
    apply Nat.mod_eq_of_lt
    rw [leRep]
    omega
  rw [leInt, leVal_leByte, hrep, leRep, Int.toNat_of_nonneg hnn, ← hcast, Int.emod_bmod]
  apply Int.bmod_eq_of_le_mul_two <;> omega

end Ece344Lab.Library
