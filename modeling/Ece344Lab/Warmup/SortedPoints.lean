import Ece344Lab.Library.Cells
import Mathlib.Data.Prod.Lex

/-!
# Sorted points

`sorted_points.c`. A list is a chain of allocated nodes behind the node that `sp_init` makes, and
`malloc` succeeds. The coordinates are of any linear order and the distance is any function of
them. `none` is an access to a node that is not allocated or to a field that is not set, or a walk
that does not end.
-/
namespace Ece344Lab.Warmup

open Library (Cell Cells IsList)

variable {κ δ : Type}

/-- `struct point`. -/
@[ext]
structure Point (κ : Type) where
  x : κ
  y : κ
  deriving DecidableEq

/-- `struct sorted_points`, less its `next` pointer. `sp_init` leaves `distance` as it is. -/
structure SortedPoints (κ δ : Type) where
  p : Option (Point κ)
  distance : Option δ

abbrev Memory (κ δ : Type) := Cells (SortedPoints κ δ)

/-- What a call leaves: the value it returns, what it stored in `*ret`, and the memory. -/
structure Returned (κ δ : Type) where
  val : Int
  ret : Option (Point κ)
  mem : Memory κ δ

def spInit (c : Memory κ δ) : Nat × Memory κ δ := c.alloc ⟨none, none⟩

/-- `free(temp->p); temp->p = NULL; free(temp);` -/
def freeNode (c : Memory κ δ) (temp : Nat) : Option (Memory κ δ) := do
  let t ← c.get temp
  let c ← c.setVal temp { t.val with p := none }
  c.free temp

section Add

variable [LinearOrder κ] [LinearOrder δ]

/-- The test for an insertion at the front. -/
def goesFirst (distance : δ) (x : κ) (temp : SortedPoints κ δ) : Option Bool := do
  let d ← temp.distance
  if distance < d then return true
  else if distance = d then do
    let p ← temp.p
    return x < p.x
  else return false

/-- The walk of `sp_add_point`: `prev` and `temp` at its end. -/
def addWalk (c : Memory κ δ) (distance : δ) (x y : κ) :
    Nat → Nat → Option Nat → Option (Nat × Option Nat)
  | 0, _, _ => none
  | _ + 1, prev, none => some (prev, none)
  | fuel + 1, prev, some temp => do
    let t ← c.get temp
    let d ← t.val.distance
    if d ≤ distance then
      if d = distance then do
        let p ← t.val.p
        if x < p.x then return (prev, some temp)
        else if x = p.x ∧ y < p.y then return (prev, some temp)
        else addWalk c distance x y fuel temp t.next
      else addWalk c distance x y fuel temp t.next
    else return (prev, some temp)

def spAddPoint (dist : κ → κ → δ) (c : Memory κ δ) (sp : Nat) (x y : κ) :
    Option (Returned κ δ) := do
  let (new_sp, c) := spInit c
  let c ← c.setVal new_sp ⟨some ⟨x, y⟩, none⟩
  let distance := dist x y
  let c ← c.setVal new_sp ⟨some ⟨x, y⟩, some distance⟩
  let s ← c.get sp
  match s.next with
  | none =>
    let c ← c.setNext sp (some new_sp)
    return ⟨1, none, c⟩
  | some temp =>
    let t ← c.get temp
    if ← goesFirst distance x t.val then
      let c ← c.setNext new_sp (some temp)
      let c ← c.setNext sp (some new_sp)
      return ⟨1, none, c⟩
    else
      let (prev, temp) ← addWalk c distance x y c.length sp (some temp)
      let c ← c.setNext new_sp temp
      let c ← c.setNext prev (some new_sp)
      return ⟨1, none, c⟩

end Add

def spRemoveFirst (c : Memory κ δ) (sp : Nat) : Option (Returned κ δ) := do
  let s ← c.get sp
  match s.next with
  | none => return ⟨0, none, c⟩
  | some temp =>
    let t ← c.get temp
    let p ← t.val.p
    let c ← c.setNext sp t.next
    let c ← freeNode c temp
    return ⟨1, some p, c⟩

/-- The walk `while (temp->next != NULL)` of `sp_remove_last`. -/
def lastWalk (c : Memory κ δ) : Nat → Nat → Nat → Option (Nat × Nat)
  | 0, _, _ => none
  | fuel + 1, prev, temp => do
    let t ← c.get temp
    match t.next with
    | none => return (prev, temp)
    | some next => lastWalk c fuel temp next

def spRemoveLast (c : Memory κ δ) (sp : Nat) : Option (Returned κ δ) := do
  let s ← c.get sp
  match s.next with
  | none => return ⟨0, none, c⟩
  | some temp =>
    let (prev, temp) ← lastWalk c c.length sp temp
    let t ← c.get temp
    let p ← t.val.p
    let c ← freeNode c temp
    let c ← c.setNext prev none
    return ⟨1, some p, c⟩

/-- The loop of `sp_remove_by_index`, with the rounds left: `prev` and `temp` at its end, or no
nodes when it returns 0. -/
def indexWalk (c : Memory κ δ) : Nat → Nat → Nat → Option (Option (Nat × Nat))
  | 0, prev, temp => return some (prev, temp)
  | rounds + 1, _, temp => do
    let t ← c.get temp
    match t.next with
    | none => return none
    | some next => indexWalk c rounds temp next

def spRemoveByIndex (c : Memory κ δ) (sp : Nat) (index : Int) : Option (Returned κ δ) := do
  let s ← c.get sp
  match s.next with
  | none => return ⟨0, none, c⟩
  | some temp =>
    if index = 0 then do
      let r ← spRemoveFirst c sp
      return { r with val := 1 }
    else
      match ← indexWalk c index.toNat sp temp with
      | none => return ⟨0, none, c⟩
      | some (prev, temp) =>
        let t ← c.get temp
        let c ← c.setNext prev t.next
        let p ← t.val.p
        let c ← c.setNext temp none
        let c ← freeNode c temp
        return ⟨1, some p, c⟩

/-- The loop of `sp_delete_duplicates` from the node `temp` on. -/
def duplicatesWalk [DecidableEq κ] : Nat → Memory κ δ → Nat → Int → Option (Int × Memory κ δ)
  | 0, _, _, _ => none
  | fuel + 1, c, prev, record_count => do
    let s ← c.get prev
    match s.next with
    | none => return (record_count, c)
    | some temp =>
      let t ← c.get temp
      let p ← s.val.p
      let q ← t.val.p
      if p.x = q.x ∧ p.y = q.y then
        let c ← c.setNext prev t.next
        let c ← freeNode c temp
        duplicatesWalk fuel c prev (record_count + 1)
      else duplicatesWalk fuel c temp record_count

def spDeleteDuplicates [DecidableEq κ] (c : Memory κ δ) (sp : Nat) : Option (Returned κ δ) := do
  let s ← c.get sp
  match s.next with
  | none => return ⟨0, none, c⟩
  | some temp =>
    let (record_count, c) ← duplicatesWalk c.length c temp 0
    return ⟨record_count, none, c⟩

end Ece344Lab.Warmup
