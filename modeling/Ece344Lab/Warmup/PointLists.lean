import Ece344Lab.Warmup.SortedPoints
import Mathlib.Data.List.Destutter

/-!
# The lists of points in memory

What each function of `sorted_points.c` does to the points behind the node of `sp_init`. A walk
ends at two neighbours `prev` and `temp`, and `prev` is the last node of the part it went through.
-/
namespace Ece344Lab.Warmup

open Library (Cell Cells IsList)

variable {κ δ : Type}

/-- The node of a point. -/
def node (dist : κ → κ → δ) (q : Nat × Point κ) : Nat × SortedPoints κ δ :=
  (q.1, ⟨some q.2, some (dist q.2.x q.2.y)⟩)

/-- The node of `sp_init`. -/
def header (sp : Nat) : Nat × SortedPoints κ δ := (sp, ⟨none, none⟩)

/-- Behind the node `sp` come the points of `l`, each at its address. -/
def PointList (dist : κ → κ → δ) (c : Memory κ δ) (sp : Nat) (l : List (Nat × Point κ)) : Prop :=
  IsList c (some sp) (header sp :: l.map (node dist))

/-- The points of a list, without their addresses. -/
abbrev points (l : List (Nat × Point κ)) : List (Point κ) := l.map Prod.snd

/-- The order of the points: by distance, then by `x`, then by `y`. -/
def key (dist : κ → κ → δ) (p : Point κ) : δ ×ₗ κ ×ₗ κ := toLex (dist p.x p.y, toLex (p.x, p.y))

theorem key_injective (dist : κ → κ → δ) : Function.Injective (key dist) := by
  intro p p' h
  have h' := congrArg (fun k => ofLex (ofLex k).2) h
  exact Point.ext (congrArg Prod.fst h') (congrArg Prod.snd h')

section Nodes

variable {dist : κ → κ → δ} {c c' : Memory κ δ} {sp a prev temp : Nat} {u : SortedPoints κ δ}
  {l l₁ l₂ : List (Nat × Point κ)} {q : Nat × Point κ} {n : Option Nat}
  {cell : Cell (SortedPoints κ δ)}

theorem pointList_spInit (c : Memory κ δ) : PointList dist (spInit c).2 (spInit c).1 [] :=
  ⟨rfl, none, Cells.get_alloc_self c _, rfl⟩

theorem head?_map_node : ((l.map (node dist)).head?).map Prod.fst = (l.head?).map Prod.fst := by
  cases l with
  | nil => rfl
  | cons q l => rfl

theorem PointList.get_sp (h : PointList dist c sp l) :
    c.get sp = some ⟨(l.head?).map Prod.fst, ⟨none, none⟩⟩ ∧
      IsList c ((l.head?).map Prod.fst) (l.map (node dist)) := by
  obtain ⟨-, n, hget, hl⟩ := h
  obtain rfl : n = (l.head?).map Prod.fst := by rw [hl.head_eq, head?_map_node]
  exact ⟨hget, hl⟩

/-- Every list has a node less than the memory. -/
theorem PointList.length_lt (h : PointList dist c sp l) : l.length < c.length := by
  have hle := IsList.length_le h
  rwa [List.length_cons, List.length_map] at hle

/-- The last node moves along with the walk. -/
theorem last_cons (x : Nat × SortedPoints κ δ) :
    (x :: (q :: l).map (node dist)).getLast? = (node dist q :: l.map (node dist)).getLast? := by
  rw [List.map_cons, List.getLast?_cons_cons]

theorem freeNode_of_get (h : c.get temp = some cell) :
    ∃ c', freeNode c temp = some c' ∧ (∀ b ≠ temp, c'.get b = c.get b) ∧
      c'.length = c.length := by
  obtain ⟨c₁, hset, hself, hother₁, hlength₁⟩ := Cells.setVal_of_get h { cell.val with p := none }
  obtain ⟨c₂, hfree, hother₂, hlength₂⟩ := Cells.free_of_get hself
  refine ⟨c₂, ?_, fun b hb => (hother₂ b hb).trans (hother₁ b hb), hlength₂.trans hlength₁⟩
  simp only [freeNode, h, Option.bind_eq_bind, Option.bind_some, hset, hfree]

/-- What is in front of the last node of `l₁` is the same for every continuation. -/
theorem split_last (hlast : (header sp :: l₁.map (node dist)).getLast? = some (prev, u)) :
    ∃ init, ∀ l₂, header sp :: (l₁ ++ l₂).map (node dist) =
      init ++ (prev, u) :: l₂.map (node dist) := by
  obtain ⟨init, hinit⟩ := List.getLast?_eq_some_iff.1 hlast
  refine ⟨init, fun l₂ => ?_⟩
  rw [List.map_append, ← List.cons_append, hinit, List.append_assoc, List.singleton_append]

/-- The node `prev` in front of the point `q`. -/
theorem PointList.get_prev (l₁ : List (Nat × Point κ)) (h : PointList dist c sp (l₁ ++ q :: l₂))
    (hlast : (header sp :: l₁.map (node dist)).getLast? = some (prev, u)) :
    c.get prev = some ⟨some q.1, u⟩ ∧ prev ≠ q.1 ∧
      ∃ n, c.get q.1 = some ⟨n, (node dist q).2⟩ ∧ IsList c n (l₂.map (node dist)) := by
  obtain ⟨init, hinit⟩ := split_last hlast
  unfold PointList at h
  rw [hinit] at h
  obtain ⟨k, hget, rfl, n, hq, hrest⟩ := h.get_eq
  refine ⟨hget, fun heq => h.notMem.2 ?_, n, hq, hrest⟩
  rw [heq]
  exact List.mem_cons_self

/-- A point leaves the list. -/
theorem PointList.unlink (l₁ : List (Nat × Point κ)) (h : PointList dist c sp (l₁ ++ q :: l₂))
    (hlast : (header sp :: l₁.map (node dist)).getLast? = some (prev, u))
    (hq : c.get q.1 = some ⟨n, (node dist q).2⟩) (hprev : c'.get prev = some ⟨n, u⟩)
    (same : ∀ b, b ≠ prev → b ≠ q.1 → c'.get b = c.get b) :
    PointList dist c' sp (l₁ ++ l₂) := by
  obtain ⟨init, hinit⟩ := split_last hlast
  unfold PointList at h ⊢
  rw [hinit] at h ⊢
  exact h.unlink hq hprev same

/-- A point comes into the list. -/
theorem PointList.link (l₁ : List (Nat × Point κ)) (h : PointList dist c sp (l₁ ++ l₂))
    (hlast : (header sp :: l₁.map (node dist)).getLast? = some (prev, u))
    (hq : c.get q.1 = some ⟨(l₂.head?).map Prod.fst, (node dist q).2⟩)
    (hnew : q.1 ∉ (header sp :: (l₁ ++ l₂).map (node dist)).map Prod.fst) :
    ∃ c', c.setNext prev (some q.1) = some c' ∧ PointList dist c' sp (l₁ ++ q :: l₂) := by
  obtain ⟨init, hinit⟩ := split_last hlast
  unfold PointList at h ⊢
  rw [hinit] at h hnew ⊢
  obtain ⟨k, -, hrest⟩ := h.get_eq
  have hk := hrest.head_eq
  rw [head?_map_node] at hk
  rw [hk] at hrest
  obtain ⟨c', hset, hlist, -⟩ := h.link hq hrest hnew
  exact ⟨c', hset, hlist⟩

/-- What `sp_add_point` allocates. -/
theorem newNode_spec (h : PointList dist c sp l) (p : Point κ) (d : δ) :
    ∃ n c₁ c₂, spInit c = (n, (spInit c).2) ∧ (spInit c).2.setVal n ⟨some p, none⟩ = some c₁ ∧
      c₁.setVal n ⟨some p, some d⟩ = some c₂ ∧ c₂.get n = some ⟨none, ⟨some p, some d⟩⟩ ∧
      PointList dist c₂ sp l ∧
      n ∉ (header sp :: l.map (node dist)).map Prod.fst := by
  obtain ⟨c₁, hset₁, hself₁, hother₁, -⟩ :=
    Cells.setVal_of_get (Cells.get_alloc_self c _) (⟨some p, none⟩ : SortedPoints κ δ)
  obtain ⟨c₂, hset₂, hself₂, hother₂, -⟩ := Cells.setVal_of_get hself₁ ⟨some p, some d⟩
  have hnew := IsList.fresh h ⟨none, none⟩
  refine ⟨(spInit c).1, c₁, c₂, rfl, hset₁, hset₂, hself₂, ?_, hnew⟩
  exact ((IsList.alloc h _).frame_ne hnew hother₁).frame_ne hnew hother₂

/-- The two pointers that are written when a new node comes into the list. -/
theorem PointList.insert (l₁ : List (Nat × Point κ)) {p : Point κ}
    (h : PointList dist c sp (l₁ ++ l₂))
    (hlast : (header sp :: l₁.map (node dist)).getLast? = some (prev, u))
    (ha : c.get a = some ⟨n, (node dist (a, p)).2⟩)
    (hnew : a ∉ (header sp :: (l₁ ++ l₂).map (node dist)).map Prod.fst) :
    ∃ c₁ c₂, c.setNext a ((l₂.head?).map Prod.fst) = some c₁ ∧
      c₁.setNext prev (some a) = some c₂ ∧ PointList dist c₂ sp (l₁ ++ (a, p) :: l₂) := by
  obtain ⟨c₁, hset, hself, hother, -⟩ := Cells.setNext_of_get ha ((l₂.head?).map Prod.fst)
  have h₁ : PointList dist c₁ sp (l₁ ++ l₂) := IsList.frame_ne h hnew hother
  obtain ⟨c₂, hlink, h₂⟩ := h₁.link l₁ (q := (a, p)) hlast hself hnew
  exact ⟨c₁, c₂, hset, hlink, h₂⟩

end Nodes

section Walks

variable {dist : κ → κ → δ} {c : Memory κ δ} {prev temp : Nat} {head : Option Nat}
  {l l₁ l₂ : List (Nat × Point κ)} {q : Nat × Point κ}

/-- `sp_remove_last` comes to the last node. -/
theorem lastWalk_spec {fuel : Nat} (prev : Nat)
    (h : IsList c (some temp) ((l ++ [q]).map (node dist))) (hfuel : l.length < fuel)
    (u : SortedPoints κ δ) :
    ∃ prev' u', lastWalk c fuel prev temp = some (prev', q.1) ∧
      ((prev, u) :: l.map (node dist)).getLast? = some (prev', u') := by
  obtain ⟨k, rfl⟩ := Nat.exists_eq_add_of_lt hfuel
  rw [List.map_append, List.map_singleton] at h
  obtain ⟨n, hq, rfl⟩ := h.get_eq
  obtain ⟨prev', u', hwalk, hlast⟩ := h.walkTo (F := lastWalk c) (P := fun _ => True)
    (fun fuel prev a b v hget _ => by rw [lastWalk, hget]; rfl) (fun _ _ => trivial) (k + 1) prev u
  refine ⟨prev', u', ?_, hlast⟩
  rw [List.length_map] at hwalk
  rw [Nat.add_assoc, hwalk, lastWalk, hq]
  rfl

/-- The loop of `sp_remove_by_index` goes on while there is a next node. -/
theorem indexWalk_next {rounds : Nat} {b : Nat} {v : SortedPoints κ δ}
    (h : c.get temp = some ⟨some b, v⟩) :
    indexWalk c (rounds + 1) prev temp = indexWalk c rounds temp b := by
  rw [indexWalk, h]
  rfl

/-- `sp_remove_by_index` comes to the node with the index. -/
theorem indexWalk_spec (prev : Nat) (h : IsList c (some temp) ((l₁ ++ q :: l₂).map (node dist)))
    (u : SortedPoints κ δ) :
    ∃ prev' u', indexWalk c l₁.length prev temp = some (some (prev', q.1)) ∧
      ((prev, u) :: l₁.map (node dist)).getLast? = some (prev', u') := by
  rw [List.map_append, List.map_cons] at h
  obtain ⟨prev', u', hwalk, hlast⟩ := h.walkTo (F := indexWalk c) (P := fun _ => True)
    (fun _ _ _ _ _ hget _ => indexWalk_next hget) (fun _ _ => trivial) 0 prev u
  rw [List.length_map] at hwalk
  exact ⟨prev', u', hwalk, hlast⟩

/-- Behind the end `sp_remove_by_index` gives up. -/
theorem indexWalk_short {rounds : Nat} (prev : Nat)
    (h : IsList c (some temp) (l.map (node dist))) (hrounds : l.length ≤ rounds) :
    indexWalk c rounds prev temp = some none := by
  rcases List.eq_nil_or_concat' l with rfl | ⟨l, q, rfl⟩
  · cases h
  · rw [List.length_append, List.length_singleton] at hrounds
    obtain ⟨k, rfl⟩ := Nat.exists_eq_add_of_lt hrounds
    rw [List.map_append, List.map_singleton] at h
    obtain ⟨n, hq, rfl⟩ := h.get_eq
    obtain ⟨prev', u', hwalk, -⟩ := h.walkTo (F := indexWalk c) (P := fun _ => True)
      (fun _ _ _ _ _ hget _ => indexWalk_next hget) (fun _ _ => trivial) (k + 1) prev ⟨none, none⟩
    rw [List.length_map] at hwalk
    rw [Nat.add_assoc, hwalk, indexWalk, hq]
    rfl

end Walks

section Add

variable [LinearOrder κ] [LinearOrder δ] {dist : κ → κ → δ} {c : Memory κ δ} {sp prev : Nat}
  {head : Option Nat} {l : List (Nat × Point κ)} {q : Nat × Point κ} {x y : κ}

theorem key_lt_iff {p p' : Point κ} : key dist p < key dist p' ↔
    dist p.x p.y < dist p'.x p'.y ∨
      dist p.x p.y = dist p'.x p'.y ∧ (p.x < p'.x ∨ p.x = p'.x ∧ p.y < p'.y) := by
  unfold key
  rw [Prod.Lex.toLex_lt_toLex, Prod.Lex.toLex_lt_toLex]

/-- The test at the front sees less than the whole order, and it is right when it succeeds. -/
theorem goesFirst_spec (dist : κ → κ → δ) (x y : κ) (q : Nat × Point κ) : ∃ b,
    goesFirst (dist x y) x (node dist q).2 = some b ∧
    (b = true → key dist ⟨x, y⟩ < key dist q.2) := by
  unfold goesFirst node
  simp only [Option.bind_eq_bind, Option.bind_some]
  split_ifs with hlt heq
  · exact ⟨true, rfl, fun _ => key_lt_iff.2 (.inl hlt)⟩
  · exact ⟨decide (x < q.2.x), rfl, fun h => key_lt_iff.2 (.inr ⟨heq, .inl (of_decide_eq_true h)⟩)⟩
  · exact ⟨false, rfl, fun h => by cases h⟩

/-- The walk stops in front of the first greater point. -/
theorem addWalk_cons {fuel : Nat} {n : Option Nat} (h : c.get q.1 = some ⟨n, (node dist q).2⟩) :
    addWalk c (dist x y) x y (fuel + 1) prev (some q.1) =
      if key dist ⟨x, y⟩ < key dist q.2 then some (prev, some q.1)
      else addWalk c (dist x y) x y fuel q.1 n := by
  rw [addWalk, h]
  simp only [node, Option.bind_eq_bind, Option.bind_some, Option.pure_def]
  rcases lt_trichotomy (dist x y) (dist q.2.x q.2.y) with hlt | heq | hgt
  · rw [if_neg (not_le.2 hlt), if_pos (key_lt_iff.2 (.inl hlt))]
  · rw [if_pos heq.ge, if_pos heq.symm]
    have hkey : key dist ⟨x, y⟩ < key dist q.2 ↔ x < q.2.x ∨ x = q.2.x ∧ y < q.2.y := by
      rw [key_lt_iff]
      simp only [heq, lt_irrefl, false_or, true_and]
    simp only [hkey]
    split_ifs with hx hy hxy hxy <;> tauto
  · rw [if_pos hgt.le, if_neg hgt.ne, if_neg fun h => ?_]
    rcases key_lt_iff.1 h with hlt | ⟨heq, -⟩
    · exact lt_asymm hlt hgt
    · exact hgt.ne' heq

theorem addWalk_spec {fuel : Nat} (x y : κ) (prev : Nat) (h : IsList c head (l.map (node dist)))
    (hfuel : l.length < fuel) (u : SortedPoints κ δ) :
    ∃ l₁ l₂ prev' u', l = l₁ ++ l₂ ∧
      addWalk c (dist x y) x y fuel prev head = some (prev', (l₂.head?).map Prod.fst) ∧
      ((prev, u) :: l₁.map (node dist)).getLast? = some (prev', u') ∧
      (∀ q ∈ l₁, key dist q.2 ≤ key dist ⟨x, y⟩) ∧
      ∀ q ∈ l₂.head?, key dist ⟨x, y⟩ < key dist q.2 := by
  induction l generalizing fuel prev head u with
  | nil =>
    obtain ⟨fuel, rfl⟩ := Nat.exists_eq_succ_of_ne_zero (Nat.ne_zero_of_lt hfuel)
    cases h
    exact ⟨[], [], prev, u, rfl, rfl, rfl, by simp, by simp⟩
  | cons q l ih =>
    obtain ⟨fuel, rfl⟩ := Nat.exists_eq_succ_of_ne_zero (Nat.ne_zero_of_lt hfuel)
    obtain ⟨rfl, n, hget, hl⟩ := h
    rw [Nat.succ_eq_add_one, addWalk_cons hget]
    by_cases hstop : key dist ⟨x, y⟩ < key dist q.2
    · rw [if_pos hstop]
      refine ⟨[], q :: l, prev, u, rfl, rfl, rfl, by simp, fun q' hq' => ?_⟩
      cases hq'
      exact hstop
    · rw [if_neg hstop]
      obtain ⟨l₁, l₂, prev', u', rfl, hwalk, hlast, hle, hlt⟩ :=
        ih q.1 hl (Nat.lt_of_succ_lt_succ hfuel) (node dist q).2
      refine ⟨q :: l₁, l₂, prev', u', rfl, hwalk, ?_, ?_, hlt⟩
      · rw [last_cons]
        exact hlast
      · intro q' hq'
        rcases List.mem_cons.1 hq' with rfl | hq'
        · exact not_lt.1 hstop
        · exact hle q' hq'

/-- `sp_add_point` puts the point behind those that are at most it and in front of a greater one. -/
theorem spAddPoint_spec (h : PointList dist c sp l) (x y : κ) :
    ∃ c' n l₁ l₂, spAddPoint dist c sp x y = some ⟨1, none, c'⟩ ∧ l = l₁ ++ l₂ ∧
      PointList dist c' sp (l₁ ++ (n, ⟨x, y⟩) :: l₂) ∧
      (∀ q ∈ l₁, key dist q.2 ≤ key dist ⟨x, y⟩) ∧
      ∀ q ∈ l₂.head?, key dist ⟨x, y⟩ < key dist q.2 := by
  obtain ⟨n, c₁, c₂, hinit, hset₁, hset₂, hn, hlist, hnew⟩ := newNode_spec h ⟨x, y⟩ (dist x y)
  obtain ⟨hsp, hrest⟩ := hlist.get_sp
  unfold spAddPoint
  rw [hinit]
  simp only [Option.bind_eq_bind, Option.bind_some, hset₁, hset₂, hsp]
  cases l with
  | nil =>
    obtain ⟨c', hset, hlist'⟩ := PointList.link [] (q := (n, ⟨x, y⟩)) hlist rfl hn hnew
    refine ⟨c', n, [], [], ?_, rfl, hlist', by simp, by simp⟩
    simp only [List.head?_nil, Option.map_none, hset]
    rfl
  | cons q l =>
    obtain ⟨-, k, hq, -⟩ := hrest
    obtain ⟨b, hfirst, hb⟩ := goesFirst_spec dist x y q
    have hq' : c₂.get q.1 = some ⟨k, (node dist q).2⟩ := hq
    simp only [List.head?_cons, Option.map_some, hq', Option.bind_some, hfirst]
    cases b with
    | true =>
      obtain ⟨c₃, c₄, hset₃, hset₄, hlist'⟩ :=
        PointList.insert [] (p := ⟨x, y⟩) hlist rfl hn hnew
      refine ⟨c₄, n, [], q :: l, ?_, rfl, hlist', by simp, fun q' hq' => ?_⟩
      · rw [List.head?_cons, Option.map_some] at hset₃
        rw [if_pos rfl, hset₃, Option.bind_some, hset₄]
        rfl
      · cases hq'
        exact hb rfl
    | false =>
      have hfuel : (q :: l).length < c₂.length := hlist.length_lt
      obtain ⟨l₁, l₂, prev, u, heq, hwalk, hlast, hle, hlt⟩ :=
        addWalk_spec x y sp hlist.get_sp.2 hfuel ⟨none, none⟩
      rw [heq] at hlist hnew
      obtain ⟨c₃, c₄, hset₃, hset₄, hlist'⟩ :=
        PointList.insert l₁ (p := ⟨x, y⟩) hlist hlast hn hnew
      refine ⟨c₄, n, l₁, l₂, ?_, heq, hlist', hle, hlt⟩
      rw [List.head?_cons, Option.map_some] at hwalk
      simp only [Bool.false_eq_true, if_false, hwalk, Option.bind_some, hset₃, hset₄]
      rfl

end Add

section Remove

variable {dist : κ → κ → δ} {c : Memory κ δ} {sp : Nat} {l l₁ l₂ : List (Nat × Point κ)}
  {q : Nat × Point κ}

theorem spRemoveFirst_spec (h : PointList dist c sp (q :: l)) :
    ∃ c', spRemoveFirst c sp = some ⟨1, some q.2, c'⟩ ∧ PointList dist c' sp l := by
  obtain ⟨hsp, hne, n, hq, -⟩ := PointList.get_prev [] h rfl
  obtain ⟨c₁, hset, hself, hother, -⟩ := Cells.setNext_of_get hsp n
  obtain ⟨c₂, hfree, hother₂, -⟩ := freeNode_of_get ((hother q.1 hne.symm).trans hq)
  refine ⟨c₂, ?_, ?_⟩
  · simp only [spRemoveFirst, hsp, hq, node, Option.bind_eq_bind, Option.bind_some, hset, hfree]
    rfl
  · apply PointList.unlink [] h rfl hq ((hother₂ sp hne).trans hself)
    exact fun b hb hbq => (hother₂ b hbq).trans (hother b hb)

theorem spRemoveFirst_nil (h : PointList dist c sp []) :
    spRemoveFirst c sp = some ⟨0, none, c⟩ := by
  simp only [spRemoveFirst, h.get_sp.1, List.head?_nil, Option.map_none, Option.bind_eq_bind,
    Option.bind_some]
  rfl

theorem spRemoveLast_spec (h : PointList dist c sp (l ++ [q])) :
    ∃ c', spRemoveLast c sp = some ⟨1, some q.2, c'⟩ ∧ PointList dist c' sp l := by
  obtain ⟨hsp, hrest⟩ := h.get_sp
  obtain ⟨next, hnext⟩ := hrest.exists_head (by simp)
  rw [hnext] at hsp hrest
  have hfuel := h.length_lt
  rw [List.length_append] at hfuel
  obtain ⟨prev, u, hwalk, hlast⟩ :=
    lastWalk_spec sp hrest (Nat.lt_of_succ_lt hfuel) ⟨none, none⟩
  obtain ⟨hprev, hne, n, hq, hend⟩ := h.get_prev _ hlast
  obtain rfl : n = none := hend
  obtain ⟨c₁, hfree, hother, -⟩ := freeNode_of_get hq
  obtain ⟨c₂, hset, hself, hother₂, -⟩ := Cells.setNext_of_get ((hother prev hne).trans hprev) none
  refine ⟨c₂, ?_, ?_⟩
  · simp only [spRemoveLast, hsp, Option.bind_eq_bind, Option.bind_some, hwalk, hq, node, hfree,
      hset]
    rfl
  · rw [← List.append_nil l]
    apply h.unlink _ hlast hq hself
    exact fun b hb hbq => (hother₂ b hb).trans (hother b hbq)

theorem spRemoveLast_nil (h : PointList dist c sp []) :
    spRemoveLast c sp = some ⟨0, none, c⟩ := by
  simp only [spRemoveLast, h.get_sp.1, List.head?_nil, Option.map_none, Option.bind_eq_bind,
    Option.bind_some]
  rfl

/-- `sp_remove_by_index` takes a negative index for 0. -/
theorem spRemoveByIndex_spec {index : Int} (h : PointList dist c sp (l₁ ++ q :: l₂))
    (hindex : index.toNat = l₁.length) :
    ∃ c', spRemoveByIndex c sp index = some ⟨1, some q.2, c'⟩ ∧
      PointList dist c' sp (l₁ ++ l₂) := by
  obtain ⟨hsp, hrest⟩ := h.get_sp
  obtain ⟨next, hnext⟩ := hrest.exists_head (by simp)
  rw [hnext] at hsp hrest
  by_cases hzero : index = 0
  · subst hzero
    obtain rfl := List.eq_nil_of_length_eq_zero hindex.symm
    obtain ⟨c', hfirst, hlist⟩ := spRemoveFirst_spec h
    refine ⟨c', ?_, hlist⟩
    simp only [spRemoveByIndex, hsp, Option.bind_eq_bind, Option.bind_some, if_true, hfirst]
    rfl
  · obtain ⟨prev, u, hwalk, hlast⟩ := indexWalk_spec sp hrest ⟨none, none⟩
    obtain ⟨hprev, hne, n, hq, -⟩ := h.get_prev _ hlast
    obtain ⟨c₁, hset₁, hself₁, hother₁, -⟩ := Cells.setNext_of_get hprev n
    have hq₁ := (hother₁ q.1 hne.symm).trans hq
    obtain ⟨c₂, hset₂, hself₂, hother₂, -⟩ := Cells.setNext_of_get hq₁ none
    obtain ⟨c₃, hfree, hother₃, -⟩ := freeNode_of_get hself₂
    refine ⟨c₃, ?_, ?_⟩
    · simp only [spRemoveByIndex, hsp, Option.bind_eq_bind, Option.bind_some, if_neg hzero, hindex,
        hwalk, hq, hset₁, node, hset₂, hfree]
      rfl
    · apply h.unlink _ hlast hq (((hother₃ prev hne).trans (hother₂ prev hne)).trans hself₁)
      intro b hb hbq
      rw [hother₃ b hbq, hother₂ b hbq, hother₁ b hb]

theorem spRemoveByIndex_short {index : Int} (h : PointList dist c sp l)
    (hindex : l.length ≤ index.toNat) : spRemoveByIndex c sp index = some ⟨0, none, c⟩ := by
  obtain ⟨hsp, hrest⟩ := h.get_sp
  cases l with
  | nil =>
    simp only [spRemoveByIndex, hsp, List.head?_nil, Option.map_none, Option.bind_eq_bind,
      Option.bind_some]
    rfl
  | cons q l =>
    have hzero : index ≠ 0 := by
      rintro rfl
      cases hindex
    have hwalk := indexWalk_short sp hrest hindex
    simp only [spRemoveByIndex, hsp, List.head?_cons, Option.map_some, Option.bind_eq_bind,
      Option.bind_some, if_neg hzero, hwalk]
    rfl

end Remove

section Duplicates

variable [DecidableEq κ] {dist : κ → κ → δ} {c : Memory κ δ} {sp : Nat}
  {l : List (Nat × Point κ)} {q : Nat × Point κ} {init : List (Nat × SortedPoints κ δ)}

/-- From a point on, the loop leaves those that differ from the one before. -/
theorem duplicatesWalk_spec {fuel : Nat} (record_count : Int)
    (h : IsList c (some sp) (init ++ node dist q :: l.map (node dist)))
    (hfuel : l.length < fuel) :
    ∃ c' l', duplicatesWalk fuel c q.1 record_count =
        some (record_count + (l.length - l'.length : Int), c') ∧
      IsList c' (some sp) (init ++ node dist q :: l'.map (node dist)) ∧
      q.2 :: points l' = List.destutter' (· ≠ ·) q.2 (points l) := by
  induction l generalizing fuel c q init record_count with
  | nil =>
    obtain ⟨fuel, rfl⟩ := Nat.exists_eq_succ_of_ne_zero (Nat.ne_zero_of_lt hfuel)
    obtain ⟨n, hget, rfl⟩ := h.get_eq
    refine ⟨c, [], ?_, h, rfl⟩
    rw [duplicatesWalk, hget]
    simp
  | cons q' l ih =>
    obtain ⟨fuel, rfl⟩ := Nat.exists_eq_succ_of_ne_zero (Nat.ne_zero_of_lt hfuel)
    have hfuel' : l.length < fuel := Nat.lt_of_succ_lt_succ hfuel
    obtain ⟨n, hget, rfl, n', hget', hrest⟩ := h.get_eq
    rw [duplicatesWalk, hget]
    simp only [node, Option.bind_eq_bind, Option.bind_some, hget', ← Point.ext_iff]
    by_cases heq : q.2 = q'.2
    · obtain ⟨c₁, hset, hself, hother, -⟩ := Cells.setNext_of_get hget n'
      have hne : q.1 ≠ q'.1 := by
        intro hsame
        apply h.notMem.2
        rw [hsame]
        exact List.mem_cons_self
      obtain ⟨c₂, hfree, hother₂, -⟩ := freeNode_of_get ((hother q'.1 hne.symm).trans hget')
      have h₂ : IsList c₂ (some sp) (init ++ node dist q :: l.map (node dist)) :=
        h.unlink hget' ((hother₂ q.1 hne).trans hself) fun b hb hbq =>
          (hother₂ b hbq).trans (hother b hb)
      obtain ⟨c', l', hwalk, hlist, hpoints⟩ := ih (record_count + 1) h₂ hfuel'
      refine ⟨c', l', ?_, hlist, ?_⟩
      · simp only [if_pos heq, hset, Option.bind_some, hfree, hwalk, List.length_cons]
        congr 2
        omega
      · rw [hpoints, points, points, List.map_cons, List.destutter'_cons_neg _ (not_not.2 heq)]
    · have h₁ : IsList c (some sp)
          ((init ++ [node dist q]) ++ node dist q' :: l.map (node dist)) := by
        rw [List.append_assoc, List.singleton_append]
        exact h
      obtain ⟨c', l', hwalk, hlist, hpoints⟩ := ih record_count h₁ hfuel'
      rw [List.append_assoc, List.singleton_append] at hlist
      refine ⟨c', q' :: l', ?_, hlist, ?_⟩
      · simp only [if_neg heq, hwalk, List.length_cons]
        congr 2
        omega
      · rw [points, List.map_cons, hpoints, points, points, List.map_cons,
          List.destutter'_cons_pos _ heq]

theorem spDeleteDuplicates_spec {l : List (Nat × Point κ)} (h : PointList dist c sp l) :
    ∃ c' l', spDeleteDuplicates c sp = some ⟨(l.length - l'.length : Int), none, c'⟩ ∧
      PointList dist c' sp l' ∧ points l' = (points l).destutter (· ≠ ·) := by
  obtain ⟨hsp, hrest⟩ := h.get_sp
  cases l with
  | nil =>
    refine ⟨c, [], ?_, h, rfl⟩
    simp only [spDeleteDuplicates, hsp, List.head?_nil, Option.map_none, Option.bind_eq_bind,
      Option.bind_some]
    rfl
  | cons q l =>
    have h' : IsList c (some sp) ([header sp] ++ node dist q :: l.map (node dist)) := h
    obtain ⟨c', l', hwalk, hlist, hpoints⟩ :=
      duplicatesWalk_spec 0 h' (Nat.lt_of_succ_lt h.length_lt)
    refine ⟨c', q :: l', ?_, hlist, hpoints⟩
    simp only [spDeleteDuplicates, hsp, List.head?_cons, Option.map_some, Option.bind_eq_bind,
      Option.bind_some, hwalk, List.length_cons, Option.pure_def]
    congr 2
    omega

end Duplicates

end Ece344Lab.Warmup
