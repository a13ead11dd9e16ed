import Ece344Lab.Library.Cells
import Mathlib.Data.List.Count

/-!
# The number of allocated cells

An allocation adds one cell, `free` takes one away, and writes leave their number.
-/
namespace Ece344Lab.Library.Cells

variable {β : Type} {c c' : Cells β} {a : Nat} {cell : Cell β}

/-- The number of cells that are allocated. -/
def live (c : Cells β) : Nat := c.countP Option.isSome

@[simp]
theorem live_alloc (c : Cells β) (v : β) : (c.alloc v).2.live = c.live + 1 := by
  rw [live, alloc, List.countP_append]
  rfl

/-- A cell that is written counts as before, and one that is freed no more. -/
theorem live_set (h : c.get a = some cell) (x : Option (Cell β)) :
    live (c.set a x) + 1 = c.live + if x.isSome then 1 else 0 := by
  induction c generalizing a with
  | nil => cases h
  | cons y c ih =>
    cases a with
    | zero =>
      obtain rfl : y = some cell := h
      rw [List.set_cons_zero, live, live, List.countP_cons, List.countP_cons]
      simp only [Option.isSome_some, if_true]
      omega
    | succ a =>
      have hset := ih (show get c a = some cell from h)
      rw [live, live] at hset
      rw [List.set_cons_succ, live, live, List.countP_cons, List.countP_cons]
      omega

theorem live_setNext {n : Option Nat} (h : c.setNext a n = some c') : c'.live = c.live := by
  obtain ⟨cell, hget, rfl⟩ := Option.map_eq_some_iff.mp h
  have hset := live_set hget (some { cell with next := n })
  rw [Option.isSome_some, if_pos rfl] at hset
  exact Nat.succ.inj hset

theorem live_setVal {v : β} (h : c.setVal a v = some c') : c'.live = c.live := by
  obtain ⟨cell, hget, rfl⟩ := Option.map_eq_some_iff.mp h
  have hset := live_set hget (some { cell with val := v })
  rw [Option.isSome_some, if_pos rfl] at hset
  exact Nat.succ.inj hset

theorem live_free (h : c.free a = some c') : c'.live + 1 = c.live := by
  obtain ⟨cell, hget, rfl⟩ := Option.map_eq_some_iff.mp h
  exact live_set hget none

end Ece344Lab.Library.Cells
