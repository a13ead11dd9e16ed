import Ece344Lab.Library.Linked
import Mathlib.Data.List.Nodup
import Mathlib.Data.List.Perm.Subperm

/-!
# Lists of allocated cells

A memory hands out cells with one `next` pointer and a value. A cell can be read and written until
it is freed; every other access fails. `IsList c head l` says that from `head` on the cells of `l`
follow one another, with their values, and then the list ends. A list is finite, so its cells are
distinct.
-/
namespace Ece344Lab.Library

variable {β : Type}

structure Cell (β : Type) where
  next : Option Nat
  val : β
  deriving DecidableEq

/-- The cells handed out so far, by address; `none` is a cell that was freed. -/
abbrev Cells (β : Type) := List (Option (Cell β))

namespace Cells

def get (cells : Cells β) (a : Nat) : Option (Cell β) := cells[a]?.join

/-- A new cell without a successor, and its address. -/
def alloc (c : Cells β) (v : β) : Nat × Cells β := (c.length, c ++ [some ⟨none, v⟩])

def setNext (c : Cells β) (a : Nat) (n : Option Nat) : Option (Cells β) :=
  (c.get a).map fun cell => c.set a (some { cell with next := n })

def setVal (c : Cells β) (a : Nat) (v : β) : Option (Cells β) :=
  (c.get a).map fun cell => c.set a (some { cell with val := v })

def free (c : Cells β) (a : Nat) : Option (Cells β) := (c.get a).map fun _ => c.set a none

variable {c : Cells β} {a b : Nat} {cell : Cell β}

theorem lt_of_get (h : c.get a = some cell) : a < c.length := by
  by_contra hge
  rw [get, List.getElem?_eq_none (Nat.not_lt.1 hge)] at h
  cases h

theorem get_set_self (h : c.get a = some cell) (x : Option (Cell β)) : get (c.set a x) a = x := by
  rw [get, List.getElem?_set_self (lt_of_get h)]
  rfl

theorem get_set_ne (h : b ≠ a) (x : Option (Cell β)) : get (c.set a x) b = c.get b := by
  rw [get, get, List.getElem?_set_ne (Ne.symm h)]

theorem get_alloc_self (c : Cells β) (v : β) :
    (c.alloc v).2.get (c.alloc v).1 = some ⟨none, v⟩ := by
  rw [alloc, get, List.getElem?_concat_length]
  rfl

theorem get_alloc_old (h : c.get a = some cell) (v : β) : (c.alloc v).2.get a = some cell := by
  rw [get, alloc, List.getElem?_append_left (lt_of_get h)]
  exact h

theorem alloc_ne (h : c.get a = some cell) (v : β) : a ≠ (c.alloc v).1 :=
  Nat.ne_of_lt (lt_of_get h)

/-- What writing a pointer does. -/
theorem setNext_of_get (h : c.get a = some cell) (n : Option Nat) :
    ∃ c', c.setNext a n = some c' ∧ c'.get a = some ⟨n, cell.val⟩ ∧
      (∀ b ≠ a, c'.get b = c.get b) ∧ c'.length = c.length := by
  refine ⟨c.set a (some { cell with next := n }), ?_, get_set_self h _,
    fun b hb => get_set_ne hb _, List.length_set⟩
  rw [setNext, h]
  rfl

theorem setVal_of_get (h : c.get a = some cell) (v : β) :
    ∃ c', c.setVal a v = some c' ∧ c'.get a = some ⟨cell.next, v⟩ ∧
      (∀ b ≠ a, c'.get b = c.get b) ∧ c'.length = c.length := by
  refine ⟨c.set a (some { cell with val := v }), ?_, get_set_self h _,
    fun b hb => get_set_ne hb _, List.length_set⟩
  rw [setVal, h]
  rfl

theorem free_of_get (h : c.get a = some cell) :
    ∃ c', c.free a = some c' ∧ (∀ b ≠ a, c'.get b = c.get b) ∧ c'.length = c.length := by
  refine ⟨c.set a none, ?_, fun b hb => get_set_ne hb _, List.length_set⟩
  rw [free, h]
  rfl

end Cells

/-- The cells from `head` on, each with its value, up to the null pointer. -/
def IsList (c : Cells β) : Option Nat → List (Nat × β) → Prop
  | head, [] => head = none
  | head, (a, v) :: l => head = some a ∧ ∃ n, c.get a = some ⟨n, v⟩ ∧ IsList c n l

namespace IsList

variable {c c' : Cells β} {head n : Option Nat} {a y z : Nat} {u v w : β} {l m : List (Nat × β)}

@[simp] theorem nil_iff : IsList c head [] ↔ head = none := Iff.rfl

@[simp] theorem cons_iff : IsList c head ((a, v) :: l) ↔
    head = some a ∧ ∃ n, c.get a = some ⟨n, v⟩ ∧ IsList c n l := Iff.rfl

/-- The pointers alone make a chain. -/
theorem isChain (h : IsList c head l) :
    IsChain (fun a => (c.get a).bind Cell.next) head (l.map Prod.fst) := by
  induction l generalizing head with
  | nil => exact IsChain.nil_iff.2 h
  | cons x l ih =>
    obtain ⟨rfl, n, hget, hl⟩ := h
    refine IsChain.cons_iff.2 ⟨rfl, ?_⟩
    rw [hget]
    exact ih hl

theorem head_eq (h : IsList c head l) : head = (l.head?).map Prod.fst := by
  rw [h.isChain.head_eq, List.head?_map]

theorem exists_head (h : IsList c head l) (hl : l ≠ []) : ∃ a, head = some a := by
  rw [h.head_eq]
  cases l with
  | nil => exact absurd rfl hl
  | cons x l => exact ⟨_, rfl⟩

/-- What comes from a cell of the list on. -/
theorem suffix (h : IsList c head (l ++ (y, v) :: m)) : IsList c (some y) ((y, v) :: m) := by
  induction l generalizing head with
  | nil => exact ⟨rfl, h.2⟩
  | cons x l ih =>
    obtain ⟨-, n, -, hl⟩ := h
    exact ih hl

theorem get_eq (h : IsList c head (l ++ (y, v) :: m)) : ∃ n, c.get y = some ⟨n, v⟩ ∧
    IsList c n m := (cons_iff.1 h.suffix).2

theorem get_of_mem (h : IsList c head l) (hy : (y, v) ∈ l) : ∃ n, c.get y = some ⟨n, v⟩ := by
  obtain ⟨l₁, l₂, rfl⟩ := List.append_of_mem hy
  obtain ⟨n, hget, -⟩ := h.get_eq
  exact ⟨n, hget⟩

theorem nodup (h : IsList c head l) : (l.map Prod.fst).Nodup := h.isChain.nodup

theorem notMem (h : IsList c head (l ++ (y, v) :: m)) :
    y ∉ l.map Prod.fst ∧ y ∉ m.map Prod.fst := by
  have hnodup := h.nodup
  rw [List.map_append, List.map_cons, List.nodup_middle, List.nodup_cons, List.mem_append,
    not_or] at hnodup
  exact hnodup.1

/-- No list is longer than the memory. -/
theorem length_le (h : IsList c head l) : l.length ≤ c.length := by
  have hsub : l.map Prod.fst ⊆ List.range c.length := by
    intro a ha
    obtain ⟨⟨a', v⟩, hx, rfl⟩ := List.mem_map.1 ha
    obtain ⟨n, hget⟩ := h.get_of_mem hx
    exact List.mem_range.2 (Cells.lt_of_get hget)
  have hle := (List.subperm_of_subset h.nodup hsub).length_le
  rwa [List.length_map, List.length_range] at hle

/-- Only the cells of the list matter. -/
theorem frame (h : IsList c head l) (same : ∀ a ∈ l.map Prod.fst, c'.get a = c.get a) :
    IsList c' head l := by
  induction l generalizing head with
  | nil => exact h
  | cons x l ih =>
    obtain ⟨rfl, n, hget, hl⟩ := h
    refine ⟨rfl, n, ?_, ih hl fun a ha => same a (List.mem_cons_of_mem _ ha)⟩
    rw [same _ List.mem_cons_self, hget]

theorem frame_ne (h : IsList c head l) (hz : z ∉ l.map Prod.fst)
    (same : ∀ a ≠ z, c'.get a = c.get a) : IsList c' head l := by
  apply h.frame
  intro a ha
  apply same
  rintro rfl
  exact hz ha

theorem alloc (h : IsList c head l) (v : β) : IsList (c.alloc v).2 head l := by
  apply h.frame
  intro a ha
  obtain ⟨⟨a, u⟩, hx, rfl⟩ := List.mem_map.1 ha
  obtain ⟨n, hget⟩ := h.get_of_mem hx
  rw [hget, Cells.get_alloc_old hget]

/-- A new cell is in no list. -/
theorem fresh (h : IsList c head l) (v : β) : (c.alloc v).1 ∉ l.map Prod.fst := by
  intro hmem
  obtain ⟨⟨a, u⟩, hx, heq⟩ := List.mem_map.1 hmem
  obtain ⟨n, hget⟩ := h.get_of_mem hx
  exact Cells.alloc_ne hget v heq

/-- The cells in front of a cell stay, and another list comes behind it. -/
theorem relink (h : IsList c head (l ++ (y, v) :: m)) (hy : c'.get y = some ⟨n, w⟩)
    (same : ∀ a ∈ l.map Prod.fst, c'.get a = c.get a) {m' : List (Nat × β)}
    (hm : IsList c' n m') : IsList c' head (l ++ (y, w) :: m') := by
  induction l generalizing head with
  | nil => exact ⟨h.1, n, hy, hm⟩
  | cons x l ih =>
    obtain ⟨rfl, k, hget, hl⟩ := h
    refine ⟨rfl, k, ?_, ih hl fun a ha => same a (List.mem_cons_of_mem _ ha)⟩
    rw [same _ List.mem_cons_self, hget]

/-- A cell of the list gets another value. -/
theorem setVal (h : IsList c head (l ++ (y, v) :: m)) (w : β) :
    ∃ c', c.setVal y w = some c' ∧ IsList c' head (l ++ (y, w) :: m) ∧
      ∀ a ≠ y, c'.get a = c.get a := by
  obtain ⟨k, hget, hm⟩ := h.get_eq
  obtain ⟨c', hset, hself, hother, -⟩ := Cells.setVal_of_get hget w
  refine ⟨c', hset, h.relink hself (fun a ha => hother a fun heq => ?_) ?_, hother⟩
  · exact h.notMem.1 (heq ▸ ha)
  · exact hm.frame_ne h.notMem.2 hother

/-- A cell that is in front of the rest of the list comes into it. -/
theorem link (h : IsList c head (l ++ (y, v) :: m)) (hz : c.get z = some ⟨n, w⟩)
    (hm : IsList c n m) (hnew : z ∉ (l ++ (y, v) :: m).map Prod.fst) :
    ∃ c', c.setNext y (some z) = some c' ∧ IsList c' head (l ++ (y, v) :: (z, w) :: m) ∧
      (∀ a ≠ y, c'.get a = c.get a) ∧ c'.length = c.length := by
  obtain ⟨k, hget, -⟩ := h.get_eq
  obtain ⟨c', hset, hself, hother, hlength⟩ := Cells.setNext_of_get hget (some z)
  rw [List.map_append, List.map_cons, List.mem_append, List.mem_cons, not_or, not_or] at hnew
  refine ⟨c', hset, ?_, hother, hlength⟩
  apply h.relink hself
  · exact fun a ha => hother a fun heq => h.notMem.1 (heq ▸ ha)
  · exact ⟨rfl, n, by rw [hother z hnew.2.1, hz], hm.frame_ne h.notMem.2 hother⟩

/-- A cell without a successor comes behind the last one. -/
theorem linkLast (h : IsList c head l) (hlast : l.getLast? = some (y, v))
    (hz : c.get z = some ⟨none, w⟩) (hnew : z ∉ l.map Prod.fst) :
    ∃ c', c.setNext y (some z) = some c' ∧ IsList c' head (l ++ [(z, w)]) ∧
      c'.length = c.length := by
  obtain ⟨l, rfl⟩ := List.getLast?_eq_some_iff.1 hlast
  obtain ⟨c', hset, hlist, -, hlength⟩ := h.link hz rfl hnew
  refine ⟨c', hset, ?_, hlength⟩
  rw [List.append_assoc, List.singleton_append]
  exact hlist

/-- A cell behind another one leaves the list, whatever becomes of it. -/
theorem unlink (h : IsList c head (l ++ (y, v) :: (z, w) :: m)) (hz : c.get z = some ⟨n, w⟩)
    (hy : c'.get y = some ⟨n, v⟩) (same : ∀ a, a ≠ y → a ≠ z → c'.get a = c.get a) :
    IsList c' head (l ++ (y, v) :: m) := by
  have h' : IsList c head ((l ++ [(y, v)]) ++ (z, w) :: m) := by
    rwa [List.append_assoc, List.singleton_append]
  obtain ⟨k, hget, hm⟩ := h'.get_eq
  cases hz.symm.trans hget
  have hyl := h.notMem
  have hzl := h'.notMem
  rw [List.map_cons, List.mem_cons, not_or] at hyl
  rw [List.map_append, List.mem_append, not_or] at hzl
  apply h.relink hy
  · intro a ha
    exact same a (fun heq => hyl.1 (heq ▸ ha)) fun heq => hzl.1.1 (heq ▸ ha)
  · apply hm.frame
    intro a ha
    exact same a (fun heq => hyl.2.2 (heq ▸ ha)) fun heq => hzl.2 (heq ▸ ha)

/-- The rule for a loop that goes along a list with a pointer to the cell before: as long as the
values keep the loop going, it comes to the rest of the list. -/
theorem walk {ρ : Type} {F : Nat → Nat → Option Nat → ρ} {P : β → Prop}
    (step : ∀ fuel prev a n v, c.get a = some ⟨n, v⟩ → P v →
      F (fuel + 1) prev (some a) = F fuel a n)
    (h : IsList c head (l ++ m)) (hl : ∀ x ∈ l, P x.2) (fuel prev : Nat) (u : β) :
    ∃ prev' u' head', F (l.length + fuel) prev head = F fuel prev' head' ∧ IsList c head' m ∧
      ((prev, u) :: l).getLast? = some (prev', u') := by
  induction l generalizing head prev u with
  | nil => exact ⟨prev, u, head, by rw [List.length_nil, Nat.zero_add], h, rfl⟩
  | cons x l ih =>
    obtain ⟨a, v⟩ := x
    obtain ⟨rfl, n, hget, hrest⟩ := h
    obtain ⟨prev', u', head', hwalk, hm, hlast⟩ :=
      ih hrest (fun x hx => hl x (List.mem_cons_of_mem _ hx)) a v
    refine ⟨prev', u', head', ?_, hm, ?_⟩
    · rw [List.length_cons, Nat.add_right_comm, step _ _ _ _ _ hget (hl _ List.mem_cons_self)]
      exact hwalk
    · rw [List.getLast?_cons_cons]
      exact hlast

/-- The rule for a loop that looks at the next pointer first: it comes to any cell of the list. -/
theorem walkTo {ρ : Type} {F : Nat → Nat → Nat → ρ} {P : β → Prop}
    (step : ∀ fuel prev a b v, c.get a = some ⟨some b, v⟩ → P v →
      F (fuel + 1) prev a = F fuel a b)
    (h : IsList c (some y) (l ++ (z, w) :: m)) (hl : ∀ x ∈ l, P x.2) (fuel prev : Nat) (u : β) :
    ∃ prev' u', F (l.length + fuel) prev y = F fuel prev' z ∧
      ((prev, u) :: l).getLast? = some (prev', u') := by
  induction l generalizing y prev u with
  | nil =>
    cases h.1
    exact ⟨prev, u, by rw [List.length_nil, Nat.zero_add], rfl⟩
  | cons x l ih =>
    obtain ⟨a, v⟩ := x
    obtain ⟨hy, n, hget, hrest⟩ := h
    cases hy
    obtain ⟨b, rfl⟩ := hrest.exists_head (by simp)
    obtain ⟨prev', u', hwalk, hlast⟩ :=
      ih hrest (fun x hx => hl x (List.mem_cons_of_mem _ hx)) y v
    refine ⟨prev', u', ?_, ?_⟩
    · rw [List.length_cons, Nat.add_right_comm, step _ _ _ _ _ hget (hl _ List.mem_cons_self)]
      exact hwalk
    · rw [List.getLast?_cons_cons]
      exact hlast

end IsList

end Ece344Lab.Library
