import Mathlib.Logic.Function.Basic
import Mathlib.Data.List.Basic
import Mathlib.Data.List.Nodup

/-!
# Intrusive singly linked lists

Nodes carry one `next` pointer each. `IsChain next head l` says that following `next` from
`head` visits the nodes `l` in order and then ends. Inserting at the end and unlinking a node
are updates of one or two pointers; what they do to the list, and that they leave lists without
the updated nodes alone, is stated here once.
-/
namespace Ece344Lab.Library

variable {α : Type}

/-- The nodes visited from `head` on, up to the null pointer. -/
def IsChain (next : α → Option α) : Option α → List α → Prop
  | none, [] => True
  | some p, q :: l => p = q ∧ IsChain next (next p) l
  | _, _ => False

/-- The walk `while (p->next) p = p->next`, with at most `fuel` nodes. -/
def lastNode (next : α → Option α) : Nat → α → Option α
  | 0, _ => none
  | fuel + 1, p =>
    match next p with
    | none => some p
    | some q => lastNode next fuel q

/-- The walk `while (!found(p)) { prev = p; p = p->next; }`: `prev` and `p` at its end. `none` when
the list ends first. -/
def findNode (next : α → Option α) (found : α → Bool) : Nat → α → α → Option (α × α)
  | 0, _, _ => none
  | fuel + 1, prev, p =>
    if found p then some (prev, p)
    else match next p with
      | none => none
      | some q => findNode next found fuel p q

/-- The nodes visited from a head on, at most `fuel` of them. -/
def nodes (next : α → Option α) : Nat → Option α → List α
  | 0, _ => []
  | _ + 1, none => []
  | fuel + 1, some p => p :: nodes next fuel (next p)

namespace IsChain

variable {next : α → Option α} {head : Option α} {p q z : α} {l m : List α}

@[simp] theorem nil_iff : IsChain next head [] ↔ head = none := by
  cases head <;> simp [IsChain]

@[simp] theorem cons_iff : IsChain next head (p :: l) ↔ head = some p ∧ IsChain next (next p) l := by
  cases head with
  | none => simp [IsChain]
  | some q =>
    simp only [IsChain, Option.some.injEq]
    constructor <;> · rintro ⟨rfl, h⟩; exact ⟨rfl, h⟩

theorem head_eq (h : IsChain next head l) : head = l.head? := by
  cases l with
  | nil => exact nil_iff.1 h
  | cons p l => exact (cons_iff.1 h).1

/-- The pointers determine the list. -/
theorem unique (h : IsChain next head l) (h' : IsChain next head m) : l = m := by
  induction l generalizing head m with
  | nil =>
    rw [nil_iff.1 h] at h'
    cases m with
    | nil => rfl
    | cons => cases h'
  | cons p l ih =>
    obtain ⟨rfl, hn⟩ := cons_iff.1 h
    cases m with
    | nil => cases h'
    | cons q m =>
      obtain ⟨hq, hn'⟩ := cons_iff.1 h'
      cases hq
      rw [ih hn hn']

/-- What comes from a node of the list on. -/
theorem suffix (h : IsChain next head (l ++ p :: m)) : IsChain next (some p) (p :: m) := by
  induction l generalizing head with
  | nil =>
    obtain ⟨rfl, hn⟩ := cons_iff.1 h
    exact cons_iff.2 ⟨rfl, hn⟩
  | cons q l ih => exact ih (cons_iff.1 h).2

/-- A node comes once: from it on, the list would go on for ever otherwise. -/
theorem nodup (h : IsChain next head l) : l.Nodup := by
  induction l generalizing head with
  | nil => exact List.nodup_nil
  | cons p l ih =>
    obtain ⟨rfl, hn⟩ := cons_iff.1 h
    refine List.nodup_cons.2 ⟨fun hmem => ?_, ih hn⟩
    obtain ⟨l₁, l₂, rfl⟩ := List.append_of_mem hmem
    have hlength := congrArg List.length (h.unique (suffix (l := p :: l₁) h))
    simp only [List.length_cons, List.length_append] at hlength
    omega

theorem nodes_eq (h : IsChain next head l) {fuel : Nat} (hf : l.length ≤ fuel) :
    nodes next fuel head = l := by
  induction l generalizing head fuel with
  | nil =>
    rw [nil_iff.1 h]
    cases fuel <;> rfl
  | cons p l ih =>
    obtain ⟨rfl, hn⟩ := cons_iff.1 h
    rw [List.length_cons] at hf
    obtain ⟨fuel, rfl⟩ := Nat.exists_eq_succ_of_ne_zero (by omega : fuel ≠ 0)
    rw [nodes, ih hn (Nat.le_of_succ_le_succ hf)]

theorem lastNode_eq (h : IsChain next (some p) (l ++ [z])) {fuel : Nat} (hf : l.length < fuel) :
    lastNode next fuel p = some z := by
  induction l generalizing p fuel with
  | nil =>
    obtain ⟨fuel, rfl⟩ := Nat.exists_eq_succ_of_ne_zero (by omega : fuel ≠ 0)
    obtain ⟨hp, hn⟩ := cons_iff.1 h
    cases hp
    rw [lastNode, nil_iff.1 hn]
  | cons q l ih =>
    obtain ⟨fuel, rfl⟩ := Nat.exists_eq_succ_of_ne_zero (by omega : fuel ≠ 0)
    obtain ⟨hp, hn⟩ := cons_iff.1 h
    cases hp
    rw [lastNode]
    cases hr : next q with
    | none => rw [hr] at hn; cases l <;> cases hn
    | some r =>
      rw [hr] at hn
      exact ih hn (by simp only [List.length_cons] at hf; omega)

theorem findNode_eq {found : α → Bool} (h : IsChain next (some p) (l ++ z :: m))
    (hl : ∀ x ∈ l, found x = false) (hz : found z = true) {fuel : Nat} (hf : l.length < fuel)
    (prev : α) : findNode next found fuel prev p = some ((l.getLast?).getD prev, z) := by
  induction l generalizing p prev fuel with
  | nil =>
    obtain ⟨fuel, rfl⟩ := Nat.exists_eq_succ_of_ne_zero (by omega : fuel ≠ 0)
    obtain ⟨hp, -⟩ := cons_iff.1 h
    cases hp
    rw [findNode, if_pos hz]
    rfl
  | cons q l ih =>
    obtain ⟨fuel, rfl⟩ := Nat.exists_eq_succ_of_ne_zero (by omega : fuel ≠ 0)
    obtain ⟨hp, hn⟩ := cons_iff.1 h
    cases hp
    rw [findNode, if_neg (by simp [hl q (by simp)])]
    cases hr : next q with
    | none => rw [hr] at hn; cases l <;> cases hn
    | some r =>
      rw [hr] at hn
      simp only
      rw [ih hn (fun x hx => hl x (List.mem_cons_of_mem _ hx))
        (by simp only [List.length_cons] at hf; omega)]
      simp [List.getLast?_cons]

/-- What is found stands in the list. -/
theorem mem_of_findNode {found : α → Bool} (h : IsChain next (some p) l) {fuel : Nat} {prev y : α}
    (hfind : findNode next found fuel prev p = some (y, z)) : z ∈ l ∧ found z = true := by
  induction fuel generalizing p prev l with
  | zero => cases hfind
  | succ fuel ih =>
    cases l with
    | nil => cases h
    | cons q l =>
      obtain ⟨hp, hn⟩ := cons_iff.1 h
      cases hp
      rw [findNode] at hfind
      by_cases hfound : found p = true
      · rw [if_pos hfound] at hfind
        cases hfind
        exact ⟨List.mem_cons_self, hfound⟩
      · rw [if_neg hfound] at hfind
        cases hr : next p with
        | none => rw [hr] at hfind; cases hfind
        | some r =>
          rw [hr] at hfind hn
          obtain ⟨hmem, hz⟩ := ih hn hfind
          exact ⟨List.mem_cons_of_mem p hmem, hz⟩

variable [DecidableEq α]

/-- A list without the updated node stays as it is. -/
theorem frame (h : IsChain next head l) (hz : z ∉ l) (v : Option α) :
    IsChain (Function.update next z v) head l := by
  induction l generalizing head with
  | nil => simpa using h
  | cons p l ih =>
    rw [List.mem_cons, not_or] at hz
    rw [cons_iff] at h ⊢
    rw [Function.update_of_ne (Ne.symm hz.1)]
    exact ⟨h.1, ih h.2 hz.2⟩

/-- The nodes in front of a node stay, and another list comes behind it. -/
theorem relink (h : IsChain next head (l ++ z :: m)) (hz : z ∉ l) {v : Option α} {m' : List α}
    (hm : IsChain next v m') (hzm : z ∉ m') :
    IsChain (Function.update next z v) head (l ++ z :: m') := by
  induction l generalizing head with
  | nil =>
    rw [List.nil_append, cons_iff, Function.update_self]
    exact ⟨(cons_iff.1 h).1, hm.frame hzm _⟩
  | cons q l ih =>
    rw [List.mem_cons, not_or] at hz
    obtain ⟨hq, hn⟩ := cons_iff.1 h
    rw [List.cons_append, cons_iff, Function.update_of_ne (Ne.symm hz.1)]
    exact ⟨hq, ih hn hz.2⟩

/-- Pointing the last node to the head of another list joins the two. -/
theorem join (h : IsChain next head (l ++ [z])) (hz : z ∉ l) (hm : IsChain next (some p) m)
    (hzm : z ∉ m) : IsChain (Function.update next z (some p)) head (l ++ [z] ++ m) := by
  rw [List.append_assoc, List.singleton_append]
  exact h.relink hz hm hzm

/-- Unlinking a node behind the first. -/
theorem unlink {y : α} (h : IsChain next head (l ++ y :: z :: m)) (hy : y ∉ l)
    (nodup : y ∉ m) : IsChain (Function.update next y (next z)) head (l ++ y :: m) := by
  obtain ⟨-, hz⟩ := cons_iff.1 h.suffix
  exact h.relink hy (cons_iff.1 hz).2 nodup

end IsChain

end Ece344Lab.Library
