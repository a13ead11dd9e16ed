import Mathlib.Logic.Function.Basic
import Mathlib.Data.List.Basic
import Mathlib.Data.Int.ModEq
import Mathlib.Tactic.Ring

/-!
# Ring buffers

A ring of `size` cells is read from the index `out` on, cyclically. Storing a value behind the
last of `n` values appends it, advancing `out` removes the first, and the number of values in a
ring that is never completely full is read off its two indices.
-/
namespace Ece344Lab.Library.Ring

variable {α : Type}

/-- The `n` values that a ring of `size` cells holds from the index `out` on. -/
def contents (cells : Int → α) (size out : Int) (n : Nat) : List α :=
  (List.range n).map fun i : Nat => cells ((out + i) % size)

@[simp] theorem contents_zero (cells : Int → α) (size out : Int) :
    contents cells size out 0 = [] := rfl

@[simp] theorem length_contents (cells : Int → α) (size out : Int) (n : Nat) :
    (contents cells size out n).length = n := by
  simp [contents]

/-- Two offsets below the size name different cells. -/
theorem emod_ne {size out : Int} {i n : Nat} (hi : i < n) (hn : (n : Int) < size) :
    (out + i) % size ≠ (out + n) % size := by
  intro h
  have dvd : size ∣ (out + n) - (out + i) := Int.emod_eq_emod_iff_emod_sub_eq_zero.1 h.symm
    |> Int.dvd_of_emod_eq_zero
  have := Int.le_of_dvd (by omega) dvd
  omega

/-- Storing behind the last value appends. -/
theorem contents_push {cells : Int → α} {size out : Int} {n : Nat} (hn : (n : Int) < size)
    (a : α) :
    contents (Function.update cells ((out + n) % size) a) size out (n + 1) =
      contents cells size out n ++ [a] := by
  simp only [contents, List.range_succ, List.map_append, List.map_cons, List.map_nil,
    Function.update_self]
  congr 1
  refine List.map_congr_left fun i hi => ?_
  exact Function.update_of_ne (emod_ne (List.mem_range.1 hi) hn) _ _

/-- Advancing the read index removes the first value. -/
theorem contents_pop (cells : Int → α) (size : Int) {out : Int} (h0 : 0 ≤ out) (h : out < size)
    (n : Nat) :
    contents cells size out (n + 1) =
      cells out :: contents cells size ((out + 1) % size) n := by
  simp only [contents, List.range_succ_eq_map, List.map_cons, List.map_map]
  congr 1
  · rw [Nat.cast_zero, add_zero, Int.emod_eq_of_lt h0 h]
  · refine List.map_congr_left fun i _ => ?_
    simp only [Function.comp_apply, Int.emod_add_emod, Nat.cast_succ]
    congr 2
    ring

/-- The two indices of a ring with a spare cell tell how many values it holds. -/
theorem count_eq {size out into : Int} {n : Nat} (hn : (n : Int) < size)
    (hin : into = (out + n) % size) : (into - out + size) % size = n := by
  rw [hin, Int.add_emod_right, Int.emod_sub_emod, show out + n - out = (n : Int) by ring]
  exact Int.emod_eq_of_lt (by omega) hn

/-- The indices meet only when the ring is empty. -/
theorem indices_eq_iff {size out into : Int} {n : Nat} (h0 : 0 ≤ out) (h : out < size)
    (hn : (n : Int) < size) (hin : into = (out + n) % size) : into = out ↔ n = 0 := by
  constructor
  · intro heq
    by_contra hne
    have apart : (out + (0 : Nat)) % size ≠ (out + n) % size := emod_ne (by omega) hn
    refine apart ?_
    rw [← hin, heq, Nat.cast_zero, add_zero, Int.emod_eq_of_lt h0 h]
  · rintro rfl
    rw [hin, Nat.cast_zero, add_zero, Int.emod_eq_of_lt h0 h]

end Ece344Lab.Library.Ring
