import Mathlib.Data.Finset.Card
import Mathlib.Logic.Function.Iterate

/-!
# Rooted trees with named edges

A tree on some nodes, of which the branches may have children. A branch knows each child
under one name, and names lead to one child at most. That parents lead to the root makes it a
tree: names from the root to a node are its path, and there is exactly one.
-/
namespace Ece344Lab.Library

/-- A rooted tree on nodes of type `α` whose edges have names of type `ν`. -/
structure NameTree (α ν : Type) where
  root : α
  nodes : Finset α
  branches : Finset α
  parent : α → α
  child : α → ν → Option α
  root_mem : root ∈ branches
  branches_sub : branches ⊆ nodes
  parent_root : parent root = root
  child_some : ∀ {d x n}, child d x = some n →
    d ∈ branches ∧ n ∈ nodes ∧ n ≠ root ∧ parent n = d
  named : ∀ {n}, n ∈ nodes → n ≠ root → ∃ x, child (parent n) x = some n
  name_unique : ∀ {d x y n}, child d x = some n → child d y = some n → x = y
  rooted : ∀ {n}, n ∈ nodes → ∃ k, parent^[k] n = root

namespace NameTree

variable {α ν : Type} (T : NameTree α ν) {d n m : α} {x y : ν} {p q : List ν}

theorem root_node : T.root ∈ T.nodes := T.branches_sub T.root_mem

theorem child_branch (h : T.child d x = some n) : d ∈ T.branches := (T.child_some h).1

theorem child_node (h : T.child d x = some n) : n ∈ T.nodes := (T.child_some h).2.1

theorem child_ne_root (h : T.child d x = some n) : n ≠ T.root := (T.child_some h).2.2.1

theorem child_parent (h : T.child d x = some n) : T.parent n = d := (T.child_some h).2.2.2

/-- What is no branch has no children. -/
theorem child_none (h : d ∉ T.branches) (x : ν) : T.child d x = none := by
  cases hx : T.child d x with
  | none => rfl
  | some n => exact absurd (T.child_branch hx) h

theorem parent_branch (hn : n ∈ T.nodes) : T.parent n ∈ T.branches := by
  by_cases hr : n = T.root
  · rw [hr, T.parent_root]
    exact T.root_mem
  · obtain ⟨x, hx⟩ := T.named hn hr
    exact T.child_branch hx

theorem parent_node (hn : n ∈ T.nodes) : T.parent n ∈ T.nodes :=
  T.branches_sub (T.parent_branch hn)

/-- Two entries that lead to one node are the same. -/
theorem child_inj {e : α} (h : T.child d x = some n) (h' : T.child e y = some n) :
    d = e ∧ x = y := by
  have hde : d = e := (T.child_parent h).symm.trans (T.child_parent h')
  subst hde
  exact ⟨rfl, T.name_unique h h'⟩

/-- Only the root is its own parent. -/
theorem parent_ne (hn : n ∈ T.nodes) (hr : n ≠ T.root) : T.parent n ≠ n := by
  intro hself
  obtain ⟨k, hk⟩ := T.rooted hn
  rw [Function.iterate_fixed hself] at hk
  exact hr hk

/-- Nor is a node the parent of its parent. -/
theorem parent_parent_ne (hn : n ∈ T.nodes) (hr : n ≠ T.root) : T.parent (T.parent n) ≠ n := by
  intro hback
  have hiter : ∀ k, T.parent^[k] n = n ∨ T.parent^[k] n = T.parent n := by
    intro k
    induction k with
    | zero => exact Or.inl rfl
    | succ k ih =>
      rw [Function.iterate_succ_apply']
      rcases ih with h | h
      · rw [h]
        exact Or.inr rfl
      · rw [h]
        exact Or.inl hback
  obtain ⟨k, hk⟩ := T.rooted hn
  rcases hiter k with h | h
  · exact hr (h.symm.trans hk)
  · -- the parent is the root, which is its own parent
    rw [← h, hk, T.parent_root] at hback
    exact hr hback.symm

/-- Where the names `p` lead from `d`. -/
def walk : α → List ν → Option α
  | d, [] => some d
  | d, x :: p => (T.child d x).bind fun n => walk n p

@[simp] theorem walk_nil (d : α) : T.walk d [] = some d := rfl

theorem walk_append (d : α) (p q : List ν) :
    T.walk d (p ++ q) = (T.walk d p).bind fun n => T.walk n q := by
  induction p generalizing d with
  | nil => rfl
  | cons x p ih =>
    rw [List.cons_append, walk, walk, Option.bind_assoc]
    exact congrArg _ (funext ih)

theorem walk_concat (d : α) (p : List ν) (x : ν) :
    T.walk d (p ++ [x]) = (T.walk d p).bind fun n => T.child n x := by
  rw [walk_append]
  refine congrArg _ (funext fun n => ?_)
  rw [walk]
  cases T.child n x <;> rfl

theorem walk_node (hd : d ∈ T.nodes) (h : T.walk d p = some n) : n ∈ T.nodes := by
  induction p generalizing d with
  | nil =>
    rw [walk_nil] at h
    exact Option.some.inj h ▸ hd
  | cons x p ih =>
    rw [walk, Option.bind_eq_some_iff] at h
    obtain ⟨m, hm, h⟩ := h
    exact ih (T.child_node hm) h

/-- The names of a path are names of children. -/
theorem walk_names (h : T.walk d p = some n) : ∀ x ∈ p, ∃ e m, T.child e x = some m := by
  induction p generalizing d with
  | nil => exact fun x hx => absurd hx List.not_mem_nil
  | cons y p ih =>
    rw [walk, Option.bind_eq_some_iff] at h
    obtain ⟨m, hm, h⟩ := h
    intro x hx
    rcases List.mem_cons.mp hx with rfl | hx
    · exact ⟨d, m, hm⟩
    · exact ih h x hx

/-- Every node has a path from the root. -/
theorem exists_path (hn : n ∈ T.nodes) : ∃ p, T.walk T.root p = some n := by
  obtain ⟨k, hk⟩ := T.rooted hn
  induction k generalizing n with
  | zero => exact ⟨[], congrArg some hk.symm⟩
  | succ k ih =>
    by_cases hr : n = T.root
    · exact ⟨[], congrArg some hr.symm⟩
    · obtain ⟨x, hx⟩ := T.named hn hr
      rw [Function.iterate_succ_apply] at hk
      obtain ⟨p, hp⟩ := ih (T.parent_node hn) hk
      exact ⟨p ++ [x], by rw [walk_concat, hp, Option.bind_some, hx]⟩

/-- Two paths from the root to one node are the same. -/
theorem path_unique (h : T.walk T.root p = some n) (h' : T.walk T.root q = some n) : p = q := by
  induction p using List.reverseRecOn generalizing q n with
  | nil =>
    obtain rfl : T.root = n := Option.some.inj h
    induction q using List.reverseRecOn with
    | nil => rfl
    | append_singleton q y _ =>
      rw [walk_concat, Option.bind_eq_some_iff] at h'
      obtain ⟨e, -, hy⟩ := h'
      exact absurd rfl (T.child_ne_root hy)
  | append_singleton p x ih =>
    rw [walk_concat, Option.bind_eq_some_iff] at h
    obtain ⟨d, hd, hx⟩ := h
    induction q using List.reverseRecOn with
    | nil =>
      obtain rfl : T.root = n := Option.some.inj h'
      exact absurd rfl (T.child_ne_root hx)
    | append_singleton q y _ =>
      rw [walk_concat, Option.bind_eq_some_iff] at h'
      obtain ⟨e, he, hy⟩ := h'
      obtain ⟨rfl, rfl⟩ := T.child_inj hx hy
      rw [ih hd he]

/-- The part of a path up to one of its nodes. -/
theorem walk_take (h : T.walk d p = some n) (i : ℕ) : ∃ m, T.walk d (p.take i) = some m := by
  rw [← List.take_append_drop i p, walk_append, Option.bind_eq_some_iff] at h
  obtain ⟨m, hm, -⟩ := h
  exact ⟨m, hm⟩

/-- A path has fewer names than there are nodes: it visits none twice. -/
theorem path_length_lt (h : T.walk T.root p = some n) : p.length < T.nodes.card := by
  have hcard : (Finset.range (p.length + 1)).card ≤ T.nodes.card := by
    refine Finset.card_le_card_of_injOn (fun i => (T.walk T.root (p.take i)).getD T.root)
      (fun i _ => ?_) fun i hi j hj hij => ?_
    · obtain ⟨m, hm⟩ := T.walk_take h i
      simp only [hm, Option.getD_some]
      exact T.walk_node T.root_node hm
    · obtain ⟨m, hm⟩ := T.walk_take h i
      obtain ⟨m', hm'⟩ := T.walk_take h j
      simp only [hm, hm', Option.getD_some] at hij
      subst hij
      have hlen := congrArg List.length (T.path_unique hm hm')
      rw [List.length_take, List.length_take] at hlen
      simp only [Finset.coe_range, Set.mem_Iio] at hi hj
      omega
  rw [Finset.card_range] at hcard
  omega

/-- The tree of one node. -/
def single [DecidableEq α] (r : α) : NameTree α ν where
  root := r
  nodes := {r}
  branches := {r}
  parent := fun _ => r
  child := fun _ _ => none
  root_mem := Finset.mem_singleton_self r
  branches_sub := Finset.Subset.refl _
  parent_root := rfl
  child_some := by
    intro d x n h
    cases h
  named := fun hn hr => absurd (Finset.mem_singleton.mp hn) hr
  name_unique := by
    intro d x y n h
    cases h
  rooted := fun _ => ⟨1, rfl⟩

/-- Parents that change only where the tree does not reach lead to the root as before. -/
theorem rooted_congr {parent' : α → α} (hsame : ∀ m ∈ T.nodes, parent' m = T.parent m)
    (hm : m ∈ T.nodes) : ∃ k, parent'^[k] m = T.root := by
  obtain ⟨k, hk⟩ := T.rooted hm
  refine ⟨k, ?_⟩
  rw [← hk]
  clear hk
  induction k generalizing m with
  | zero => rfl
  | succ k ih =>
    rw [Function.iterate_succ_apply, Function.iterate_succ_apply, hsame m hm]
    exact ih (T.parent_node hm)

section Change

variable [DecidableEq α]

/-- The tree without the leaf `n`. -/
def remove (n : α) (hr : n ≠ T.root) (hleaf : ∀ x, T.child n x = none) : NameTree α ν where
  root := T.root
  nodes := T.nodes.erase n
  branches := T.branches.erase n
  parent := T.parent
  child d x := if T.child d x = some n then none else T.child d x
  root_mem := Finset.mem_erase.mpr ⟨hr.symm, T.root_mem⟩
  branches_sub := Finset.erase_subset_erase n T.branches_sub
  parent_root := T.parent_root
  child_some := by
    intro d x m h
    split at h
    · cases h
    · rename_i hne
      have hd : d ≠ n := by
        rintro rfl
        rw [hleaf] at h
        cases h
      have hm : m ≠ n := by
        rintro rfl
        exact hne h
      exact ⟨Finset.mem_erase.mpr ⟨hd, T.child_branch h⟩,
        Finset.mem_erase.mpr ⟨hm, T.child_node h⟩, T.child_ne_root h, T.child_parent h⟩
  named := by
    intro m hm hroot
    obtain ⟨hne, hm⟩ := Finset.mem_erase.mp hm
    obtain ⟨x, hx⟩ := T.named hm hroot
    refine ⟨x, ?_⟩
    rw [if_neg fun heq => hne (Option.some.inj (hx.symm.trans heq)), hx]
  name_unique := by
    intro d x y m hx hy
    split at hx
    · cases hx
    · split at hy
      · cases hy
      · exact T.name_unique hx hy
  rooted := fun hm => T.rooted (Finset.mem_of_mem_erase hm)

variable {T} {hr : n ≠ T.root} {hleaf : ∀ x, T.child n x = none}

@[simp] theorem remove_root : (T.remove n hr hleaf).root = T.root := rfl

@[simp] theorem remove_nodes : (T.remove n hr hleaf).nodes = T.nodes.erase n := rfl

@[simp] theorem remove_branches : (T.remove n hr hleaf).branches = T.branches.erase n := rfl

@[simp] theorem remove_parent : (T.remove n hr hleaf).parent = T.parent := rfl

/-- Only the parent of the leaf loses an entry. -/
theorem remove_child {e m : α} :
    (T.remove n hr hleaf).child e y = some m ↔ T.child e y = some m ∧ m ≠ n := by
  change (if T.child e y = some n then none else T.child e y) = some m ↔ _
  split
  · rename_i hy
    rw [hy]
    exact ⟨fun h => absurd h (by simp), fun h => absurd (Option.some.inj h.1).symm h.2⟩
  · rename_i hy
    exact ⟨fun h => ⟨h, fun heq => hy (heq ▸ h)⟩, And.left⟩

theorem remove_child_ne (h : T.child d x = some n) {e : α} (he : e ≠ d) :
    (T.remove n hr hleaf).child e = T.child e := by
  funext y
  exact if_neg fun hy => he (T.child_inj hy h).1

variable (T)

section Add

variable [DecidableEq ν]

/-- The entries with the name `x` of `d` leading to `n` instead. -/
def enter (f : α → ν → Option α) (d : α) (x : ν) (n : α) : α → ν → Option α :=
  Function.update f d (Function.update (f d) x (some n))

theorem enter_some {f : α → ν → Option α} {e : α} (hx : f d x = none) :
    enter f d x n e y = some m ↔ f e y = some m ∨ (e = d ∧ y = x ∧ m = n) := by
  by_cases he : e = d
  · subst he
    by_cases hy : y = x
    · subst hy
      simp [enter, hx, eq_comm]
    · simp [enter, hy]
  · simp [enter, he]

/-- The tree with a new leaf `n`, called `x`, below the branch `d`. -/
def add (d : α) (x : ν) (n : α) (branch : Bool) (hd : d ∈ T.branches) (hx : T.child d x = none)
    (hn : n ∉ T.nodes) : NameTree α ν where
  root := T.root
  nodes := insert n T.nodes
  branches := if branch then insert n T.branches else T.branches
  parent := Function.update T.parent n d
  child := enter T.child d x n
  root_mem := by
    split
    · exact Finset.mem_insert_of_mem T.root_mem
    · exact T.root_mem
  branches_sub := by
    split
    · exact Finset.insert_subset_insert n T.branches_sub
    · exact T.branches_sub.trans (Finset.subset_insert n _)
  parent_root := by
    rw [Function.update_of_ne fun h : T.root = n => hn (h ▸ T.root_node), T.parent_root]
  child_some := by
    intro e y m h
    have hsub : ∀ e ∈ T.branches, e ∈ if branch then insert n T.branches else T.branches := by
      intro e he
      split
      · exact Finset.mem_insert_of_mem he
      · exact he
    rcases (enter_some hx).mp h with h | ⟨rfl, rfl, rfl⟩
    · have hm := T.child_node h
      refine ⟨hsub _ (T.child_branch h), Finset.mem_insert_of_mem hm, T.child_ne_root h, ?_⟩
      rw [Function.update_of_ne fun heq : m = n => hn (heq ▸ hm), T.child_parent h]
    · refine ⟨hsub _ hd, Finset.mem_insert_self _ _, fun heq => hn (heq ▸ T.root_node), ?_⟩
      rw [Function.update_self]
  named := by
    intro m hm hr
    rcases Finset.mem_insert.mp hm with rfl | hm
    · exact ⟨x, by rw [Function.update_self]; exact (enter_some hx).mpr (Or.inr ⟨rfl, rfl, rfl⟩)⟩
    · obtain ⟨y, hy⟩ := T.named hm hr
      refine ⟨y, ?_⟩
      rw [Function.update_of_ne fun heq : m = n => hn (heq ▸ hm)]
      exact (enter_some hx).mpr (Or.inl hy)
  name_unique := by
    intro e y z m hy hz
    rcases (enter_some hx).mp hy with hy | ⟨-, hyx, hm⟩
    · rcases (enter_some hx).mp hz with hz | ⟨-, -, hm⟩
      · exact T.name_unique hy hz
      · exact absurd (hm ▸ T.child_node hy) hn
    · rcases (enter_some hx).mp hz with hz | ⟨-, hzx, -⟩
      · exact absurd (hm ▸ T.child_node hz) hn
      · rw [hyx, hzx]
  rooted := by
    intro m hm
    have hold : ∀ m ∈ T.nodes, ∃ k, (Function.update T.parent n d)^[k] m = T.root := fun m hm =>
      T.rooted_congr (fun j hj => Function.update_of_ne (fun heq : j = n => hn (heq ▸ hj)) _ _) hm
    rcases Finset.mem_insert.mp hm with rfl | hm
    · obtain ⟨k, hk⟩ := hold d (T.branches_sub hd)
      exact ⟨k + 1, by rw [Function.iterate_succ_apply, Function.update_self, hk]⟩
    · exact hold m hm

variable {T} {branch : Bool} {hd : d ∈ T.branches} {hx : T.child d x = none} {hn : n ∉ T.nodes}

@[simp] theorem add_root : (T.add d x n branch hd hx hn).root = T.root := rfl

@[simp] theorem add_nodes : (T.add d x n branch hd hx hn).nodes = insert n T.nodes := rfl

theorem mem_add_branches {m : α} : m ∈ (T.add d x n branch hd hx hn).branches ↔
    (branch = true ∧ m = n) ∨ m ∈ T.branches := by
  change m ∈ (if branch then insert n T.branches else T.branches) ↔ _
  cases branch <;> simp

theorem add_parent_new : (T.add d x n branch hd hx hn).parent n = d := Function.update_self _ _ _

theorem add_parent_old {m : α} (hm : m ≠ n) : (T.add d x n branch hd hx hn).parent m = T.parent m :=
  Function.update_of_ne hm _ _

theorem add_child {e m : α} : (T.add d x n branch hd hx hn).child e y = some m ↔
    T.child e y = some m ∨ (e = d ∧ y = x ∧ m = n) := enter_some hx

/-- A branch that the new leaf is not added to keeps its entries. -/
theorem add_child_ne {e : α} (he : e ≠ d) :
    (T.add d x n branch hd hx hn).child e = T.child e := Function.update_of_ne he _ _

theorem add_child_self : (T.add d x n branch hd hx hn).child d =
    Function.update (T.child d) x (some n) := Function.update_self _ _ _

theorem remove_child_self (h : T.child d x = some n) :
    (T.remove n hr hleaf).child d = Function.update (T.child d) x none := by
  funext y
  by_cases hy : y = x
  · subst hy
    rw [Function.update_self]
    exact if_pos h
  · rw [Function.update_of_ne hy]
    exact if_neg fun hy' => hy (T.name_unique hy' h)

/-- A tree that differs in one entry, of a leaf, differs in the one path to it. -/
theorem walk_update {T' : NameTree α ν} {v : Option α} (hroot : T'.root = T.root)
    (hp : T.walk T.root p = some d) (hself : T'.child d = Function.update (T.child d) x v)
    (hne : ∀ e, e ≠ d → T'.child e = T.child e)
    (hold : ∀ m, T.child d x = some m → ∀ y, T.child m y = none)
    (hnew : ∀ m, v = some m → ∀ y, T'.child m y = none) :
    T'.walk T'.root = Function.update (T.walk T.root) (p ++ [x]) v := by
  funext q
  rw [hroot]
  induction q using List.reverseRecOn with
  | nil => rw [Function.update_of_ne (by simp), walk_nil, walk_nil]
  | append_singleton q y ih =>
    rw [walk_concat, ih]
    by_cases hq : q = p ++ [x]
    · -- nothing is below the leaf, in either tree
      subst hq
      rw [Function.update_self, Function.update_of_ne (by simp), walk_concat, walk_concat, hp,
        Option.bind_some, Option.bind_eq_none_iff.mpr fun m hm => hnew m hm y,
        Option.bind_eq_none_iff.mpr fun m hm => hold m hm y]
    rw [Function.update_of_ne hq]
    by_cases hqy : q ++ [y] = p ++ [x]
    · obtain ⟨rfl, hy⟩ := List.append_inj' hqy rfl
      obtain rfl := List.head_eq_of_cons_eq hy
      rw [Function.update_self, hp, Option.bind_some, hself, Function.update_self]
    · rw [Function.update_of_ne hqy, walk_concat]
      cases he : T.walk T.root q with
      | none => rfl
      | some e =>
        rw [Option.bind_some, Option.bind_some]
        by_cases hed : e = d
        · subst hed
          have hyx : y ≠ x := fun heq => hqy (by rw [heq, T.path_unique he hp])
          rw [hself, Function.update_of_ne hyx]
        · rw [hne e hed]

/-- The new leaf adds one path. -/
theorem add_walk (hp : T.walk T.root p = some d) : (T.add d x n branch hd hx hn).walk T.root =
    Function.update (T.walk T.root) (p ++ [x]) (some n) := by
  have hne : n ≠ d := fun heq => hn (by rw [heq]; exact T.branches_sub hd)
  refine walk_update rfl hp add_child_self (fun e he => add_child_ne he) (fun m hm => ?_) ?_
  · rw [hx] at hm
    cases hm
  · rintro m ⟨⟩ y
    rw [add_child_ne hne]
    exact T.child_none (fun hmem => hn (T.branches_sub hmem)) y

/-- The leaf less takes its path away. -/
theorem remove_walk (h : T.child d x = some n) (hp : T.walk T.root p = some d) :
    (T.remove n hr hleaf).walk T.root = Function.update (T.walk T.root) (p ++ [x]) none := by
  refine walk_update rfl hp (remove_child_self h) (fun e he => remove_child_ne h he) (fun m hm => ?_)
    fun m hm => by cases hm
  obtain rfl := Option.some.inj (hm.symm.trans h)
  exact hleaf

end Add

end Change

end NameTree

end Ece344Lab.Library
