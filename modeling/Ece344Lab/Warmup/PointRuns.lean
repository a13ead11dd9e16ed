import Ece344Lab.Warmup.PointLists
import Mathlib.Data.Finset.Card

/-!
# Sorted points over whole runs

From `sp_init` on the points are sorted after every sequence of calls. So equal points are
neighbours, and the comparison of neighbours finds every duplicate.
-/
namespace Ece344Lab.Warmup

variable {κ δ : Type}

/-- A call on the list. -/
inductive PointCall (κ : Type)
  | add (x y : κ)
  | removeFirst
  | removeLast
  | removeByIndex (index : Int)
  | deleteDuplicates

/-- The number of elements that equal an earlier one. -/
def repeats {α : Type} [DecidableEq α] (ps : List α) : Nat :=
  (List.range ps.length).countP fun i => ∃ j < i, ps[j]? = ps[i]?

section Repeats

variable {α : Type} [DecidableEq α] {ps : List α} {a b : α}

theorem repeats_concat (ps : List α) (a : α) :
    repeats (ps ++ [a]) = repeats ps + if a ∈ ps then 1 else 0 := by
  unfold repeats
  rw [List.length_append, List.length_singleton, List.range_succ, List.countP_append,
    List.countP_singleton]
  have hlast : (∃ j < ps.length, (ps ++ [a])[j]? = (ps ++ [a])[ps.length]?) ↔ a ∈ ps := by
    rw [List.getElem?_concat_length, List.mem_iff_getElem?]
    constructor
    · rintro ⟨j, hj, heq⟩
      exact ⟨j, by rwa [List.getElem?_append_left hj] at heq⟩
    · rintro ⟨j, heq⟩
      have hj : j < ps.length := (List.getElem?_eq_some_iff.1 heq).1
      exact ⟨j, hj, by rwa [List.getElem?_append_left hj]⟩
  simp only [hlast, decide_eq_true_eq]
  congr 1
  apply List.countP_congr
  intro i hi
  have hi := List.mem_range.1 hi
  simp only [decide_eq_true_eq]
  refine exists_congr fun j => and_congr_right fun hj => ?_
  rw [List.getElem?_append_left hi, List.getElem?_append_left (hj.trans hi)]

/-- What is left without the repeated elements are the different ones. -/
theorem repeats_add_card (ps : List α) : repeats ps + ps.toFinset.card = ps.length := by
  induction ps using List.reverseRecOn with
  | nil => rfl
  | append_singleton ps a ih =>
    have hinsert : (ps ++ [a]).toFinset = insert a ps.toFinset := by
      rw [List.toFinset_append, Finset.union_comm]
      rfl
    rw [repeats_concat, hinsert, List.length_append, List.length_singleton]
    split_ifs with hmem
    · rw [Finset.insert_eq_of_mem (List.mem_toFinset.2 hmem)]
      omega
    · rw [Finset.card_insert_of_notMem fun h => hmem (List.mem_toFinset.1 h)]
      omega

theorem mem_destutter' : b ∈ ps.destutter' (· ≠ ·) a ↔ b ∈ a :: ps := by
  induction ps generalizing a with
  | nil => exact Iff.rfl
  | cons c ps ih =>
    by_cases hac : a = c
    · subst hac
      rw [List.destutter'_cons_neg _ (not_not.2 rfl), ih, List.mem_cons, List.mem_cons,
        List.mem_cons, or_self_left]
    · rw [List.destutter'_cons_pos _ hac, List.mem_cons, ih, ← List.mem_cons]

theorem mem_destutter : b ∈ ps.destutter (· ≠ ·) ↔ b ∈ ps := by
  cases ps with
  | nil => exact Iff.rfl
  | cons a ps => exact mem_destutter'

end Repeats

section Index

variable {dist : κ → κ → δ} {c : Memory κ δ} {sp : Nat} {l : List (Nat × Point κ)}

/-- The list at an index. -/
theorem exists_split {i : Nat} (h : i < l.length) :
    ∃ l₁ q l₂, l = l₁ ++ q :: l₂ ∧ l₁.length = i := by
  refine ⟨l.take i, l[i], l.drop (i + 1), ?_, List.length_take_of_le h.le⟩
  rw [List.getElem_cons_drop, List.take_append_drop]

/-- The point at the index is removed and returned; at an index that is none, nothing is. -/
def RemovesIndex (dist : κ → κ → δ) (sp : Nat) (l : List (Nat × Point κ)) (index : Int)
    (r : Returned κ δ) : Prop :=
  if 0 ≤ index ∧ index < l.length then
    r.val = 1 ∧ r.ret = (points l)[index.toNat]? ∧
      ∃ l', PointList dist r.mem sp l' ∧ points l' = (points l).eraseIdx index.toNat
  else r.val = 0 ∧ r.ret = none ∧ PointList dist r.mem sp l

/-- What a call does to a list is wrong for a negative index only, and only if there is a point. -/
theorem removesIndex_iff (h : PointList dist c sp l) (index : Int) :
    ∃ r, spRemoveByIndex c sp index = some r ∧
      (RemovesIndex dist sp l index r ↔ 0 ≤ index ∨ l = []) := by
  unfold RemovesIndex
  by_cases hindex : index.toNat < l.length
  · obtain ⟨l₁, q, l₂, rfl, hlength⟩ := exists_split hindex
    obtain ⟨c', hremove, hlist⟩ := spRemoveByIndex_spec h hlength.symm
    refine ⟨_, hremove, ?_⟩
    by_cases hneg : 0 ≤ index
    · have hin : 0 ≤ index ∧ index < ((l₁ ++ q :: l₂).length : Int) := ⟨hneg, by omega⟩
      rw [if_pos hin, iff_true_right (.inl hneg)]
      refine ⟨rfl, ?_, _, hlist, ?_⟩
      · rw [← hlength, points, List.map_append, List.map_cons,
          List.getElem?_append_right (by simp), List.length_map, Nat.sub_self]
        rfl
      · rw [← hlength, points, points, List.map_append, List.map_append, List.map_cons,
          List.eraseIdx_append_of_length_le (by simp), List.length_map, Nat.sub_self]
        rfl
    · rw [if_neg fun hin => hneg hin.1]
      refine iff_of_false (fun hzero => ?_) (by simp [hneg])
      exact one_ne_zero hzero.1
  · refine ⟨_, spRemoveByIndex_short h (not_lt.1 hindex), ?_⟩
    have hout : ¬(0 ≤ index ∧ index < (l.length : Int)) := by omega
    rw [if_neg hout]
    refine iff_of_true ⟨rfl, rfl, h⟩ ?_
    cases l with
    | nil => exact .inr rfl
    | cons q l =>
      rw [List.length_cons] at hindex
      exact .inl (by omega)

end Index

variable [LinearOrder κ] [LinearOrder δ] {dist : κ → κ → δ} {c : Memory κ δ} {sp : Nat}
  {l : List (Nat × Point κ)} {ps qs : List (Point κ)} {p : Point κ}

/-- By distance, then by `x`, then by `y`. -/
def Sorted (dist : κ → κ → δ) (ps : List (Point κ)) : Prop :=
  ps.Pairwise fun p q => key dist p ≤ key dist q

section Sorted

theorem Sorted.sublist (h : Sorted dist ps) (hsub : qs.Sublist ps) : Sorted dist qs :=
  List.Pairwise.sublist hsub h

theorem Sorted.insert (h : Sorted dist (ps ++ qs)) (hle : ∀ q ∈ ps, key dist q ≤ key dist p)
    (hlt : ∀ q ∈ qs.head?, key dist p < key dist q) : Sorted dist (ps ++ p :: qs) := by
  obtain ⟨hps, hqs, hcross⟩ := List.pairwise_append.1 h
  have hp : ∀ q ∈ qs, key dist p ≤ key dist q := by
    cases qs with
    | nil => exact fun q hq => by cases hq
    | cons r qs =>
      have hr : key dist p < key dist r := hlt r rfl
      intro q hq
      rcases List.mem_cons.1 hq with rfl | hq
      · exact hr.le
      · exact hr.le.trans ((List.pairwise_cons.1 hqs).1 q hq)
  refine List.pairwise_append.2 ⟨hps, List.pairwise_cons.2 ⟨hp, hqs⟩, fun q hq r hr => ?_⟩
  rcases List.mem_cons.1 hr with rfl | hr
  · exact hle q hq
  · exact hcross q hq r hr

/-- Equal points are neighbours. -/
theorem Sorted.nodup (h : Sorted dist ps) (hchain : ps.IsChain (· ≠ ·)) : ps.Nodup := by
  induction ps with
  | nil => exact List.nodup_nil
  | cons p ps ih =>
    obtain ⟨hp, hps⟩ := List.pairwise_cons.1 h
    obtain ⟨hne, hchain⟩ := List.isChain_cons.1 hchain
    refine List.nodup_cons.2 ⟨fun hmem => ?_, ih hps hchain⟩
    cases ps with
    | nil => cases hmem
    | cons q qs =>
      have hpq : p ≠ q := hne q rfl
      have hqs : p ∈ qs := (List.mem_cons.1 hmem).resolve_left hpq
      have hqp := (List.pairwise_cons.1 hps).1 p hqs
      exact hpq (key_injective dist (le_antisymm (hp q List.mem_cons_self) hqp))

end Sorted

/-- What a call of the list does. -/
def PointCall.run (dist : κ → κ → δ) (c : Memory κ δ) (sp : Nat) :
    PointCall κ → Option (Returned κ δ)
  | add x y => spAddPoint dist c sp x y
  | removeFirst => spRemoveFirst c sp
  | removeLast => spRemoveLast c sp
  | removeByIndex index => spRemoveByIndex c sp index
  | deleteDuplicates => spDeleteDuplicates c sp

/-- The calls one after another. -/
def runCalls (dist : κ → κ → δ) (sp : Nat) (calls : List (PointCall κ)) (c : Memory κ δ) :
    Option (Memory κ δ) :=
  calls.foldlM (fun c call => (call.run dist c sp).map Returned.mem) c

section Runs

theorem insert_sorted {l₁ l₂ : List (Nat × Point κ)} {n : Nat} {x y : κ}
    (sorted : Sorted dist (points (l₁ ++ l₂)))
    (hle : ∀ q ∈ l₁, key dist q.2 ≤ key dist ⟨x, y⟩)
    (hlt : ∀ q ∈ l₂.head?, key dist ⟨x, y⟩ < key dist q.2) :
    Sorted dist (points (l₁ ++ (n, ⟨x, y⟩) :: l₂)) := by
  unfold points at sorted ⊢
  rw [List.map_append] at sorted ⊢
  apply sorted.insert
  · intro q hq
    obtain ⟨q', hq', rfl⟩ := List.mem_map.1 hq
    exact hle q' hq'
  · intro q hq
    rw [List.head?_map] at hq
    obtain ⟨q', hq', rfl⟩ := Option.mem_map.1 hq
    exact hlt q' hq'

/-- A call leaves a sorted list. -/
theorem PointCall.run_sorted (call : PointCall κ) (h : PointList dist c sp l)
    (sorted : Sorted dist (points l)) :
    ∃ r l', call.run dist c sp = some r ∧ PointList dist r.mem sp l' ∧ Sorted dist (points l') := by
  cases call with
  | add x y =>
    obtain ⟨c', n, l₁, l₂, hadd, rfl, hlist, hle, hlt⟩ := spAddPoint_spec h x y
    exact ⟨_, _, hadd, hlist, insert_sorted sorted hle hlt⟩
  | removeFirst =>
    cases l with
    | nil => exact ⟨_, [], spRemoveFirst_nil h, h, sorted⟩
    | cons q l =>
      obtain ⟨c', hfirst, hlist⟩ := spRemoveFirst_spec h
      exact ⟨_, l, hfirst, hlist, sorted.sublist (List.sublist_cons_self _ _)⟩
  | removeLast =>
    rcases List.eq_nil_or_concat' l with rfl | ⟨l, q, rfl⟩
    · exact ⟨_, [], spRemoveLast_nil h, h, sorted⟩
    · obtain ⟨c', hlast, hlist⟩ := spRemoveLast_spec h
      exact ⟨_, l, hlast, hlist, sorted.sublist ((List.sublist_append_left _ _).map _)⟩
  | removeByIndex index =>
    by_cases hindex : index.toNat < l.length
    · obtain ⟨l₁, q, l₂, rfl, hlength⟩ := exists_split hindex
      obtain ⟨c', hremove, hlist⟩ := spRemoveByIndex_spec h hlength.symm
      refine ⟨_, _, hremove, hlist, sorted.sublist (List.Sublist.map _ ?_)⟩
      exact (List.sublist_cons_self _ _).append_left l₁
    · exact ⟨_, l, spRemoveByIndex_short h (not_lt.1 hindex), h, sorted⟩
  | deleteDuplicates =>
    obtain ⟨c', l', hdelete, hlist, hpoints⟩ := spDeleteDuplicates_spec h
    refine ⟨_, l', hdelete, hlist, ?_⟩
    rw [hpoints]
    exact sorted.sublist (List.destutter_sublist _ _)

theorem runCalls_sorted (calls : List (PointCall κ)) (h : PointList dist c sp l)
    (sorted : Sorted dist (points l)) :
    ∃ c' l', runCalls dist sp calls c = some c' ∧ PointList dist c' sp l' ∧
      Sorted dist (points l') := by
  induction calls generalizing c l with
  | nil => exact ⟨c, l, rfl, h, sorted⟩
  | cons call calls ih =>
    obtain ⟨r, l₁, hrun, h₁, sorted₁⟩ := call.run_sorted h sorted
    obtain ⟨c', l', hruns, h', sorted'⟩ := ih h₁ sorted₁
    refine ⟨c', l', ?_, h', sorted'⟩
    rw [runCalls, List.foldlM_cons, hrun]
    exact hruns

/-- Every list that the calls make is sorted. -/
theorem reachable_sorted (dist : κ → κ → δ) (mem : Memory κ δ) (calls : List (PointCall κ)) :
    ∃ c l, runCalls dist (spInit mem).1 calls (spInit mem).2 = some c ∧
      PointList dist c (spInit mem).1 l ∧ Sorted dist (points l) :=
  runCalls_sorted calls (pointList_spInit mem) List.Pairwise.nil

/-- What a removal returns and leaves. -/
structure Removes (dist : κ → κ → δ) (sp : Nat) (l : List (Nat × Point κ)) (r : Returned κ δ)
    (p : Point κ) : Prop where
  val : r.val = 1
  ret : r.ret = some p
  left : ∃ l', PointList dist r.mem sp l' ∧ (p :: points l').Perm (points l)

/-- Whatever is called, the list is sorted, an added point comes to those that are there, and the
points that are removed at the ends are a least and a greatest one. -/
theorem points_stay_sorted (dist : κ → κ → δ) (mem : Memory κ δ) (calls : List (PointCall κ)) :
    ∃ c l, runCalls dist (spInit mem).1 calls (spInit mem).2 = some c ∧
      PointList dist c (spInit mem).1 l ∧ Sorted dist (points l) ∧
      (∀ x y, ∃ r l', spAddPoint dist c (spInit mem).1 x y = some r ∧ r.val = 1 ∧
        PointList dist r.mem (spInit mem).1 l' ∧ (points l').Perm (⟨x, y⟩ :: points l)) ∧
      (l ≠ [] → ∃ r p, spRemoveFirst c (spInit mem).1 = some r ∧
        Removes dist (spInit mem).1 l r p ∧ ∀ q ∈ points l, key dist p ≤ key dist q) ∧
      (l ≠ [] → ∃ r p, spRemoveLast c (spInit mem).1 = some r ∧
        Removes dist (spInit mem).1 l r p ∧ ∀ q ∈ points l, key dist q ≤ key dist p) := by
  obtain ⟨c, l, hruns, h, sorted⟩ := reachable_sorted dist mem calls
  refine ⟨c, l, hruns, h, sorted, fun x y => ?_, fun hne => ?_, fun hne => ?_⟩
  · obtain ⟨c', n, l₁, l₂, hadd, rfl, hlist, -⟩ := spAddPoint_spec h x y
    refine ⟨_, _, hadd, rfl, hlist, ?_⟩
    rw [points, points, List.map_append, List.map_cons, List.map_append]
    exact List.perm_middle
  · obtain ⟨q, l, rfl⟩ := List.exists_cons_of_ne_nil hne
    obtain ⟨c', hfirst, hlist⟩ := spRemoveFirst_spec h
    refine ⟨_, q.2, hfirst, ⟨rfl, rfl, l, hlist, .refl _⟩, fun p hp => ?_⟩
    rcases List.mem_cons.1 hp with rfl | hp
    · exact le_refl _
    · exact (List.pairwise_cons.1 sorted).1 p hp
  · obtain ⟨l, q, rfl⟩ := (List.eq_nil_or_concat' l).resolve_left hne
    obtain ⟨c', hlast, hlist⟩ := spRemoveLast_spec h
    rw [points, List.map_append] at sorted ⊢
    refine ⟨_, q.2, hlast, ⟨rfl, rfl, l, hlist, ?_⟩, fun p hp => ?_⟩
    · rw [points, points, List.map_append]
      exact (List.perm_append_singleton _ _).symm
    · rcases List.mem_append.1 hp with hp | hp
      · exact (List.pairwise_append.1 sorted).2.2 p hp q.2 (List.mem_singleton_self _)
      · rw [List.mem_singleton.1 hp]

end Runs

section Removal

/-- In every list that the calls make, a removal by index does what it should exactly when the
index is not negative or the list is empty. -/
theorem spRemoveByIndex_exact_iff (dist : κ → κ → δ) (mem : Memory κ δ)
    (calls : List (PointCall κ)) :
    ∃ c l, runCalls dist (spInit mem).1 calls (spInit mem).2 = some c ∧
      PointList dist c (spInit mem).1 l ∧
      ∀ index : Int, ∃ r, spRemoveByIndex c (spInit mem).1 index = some r ∧
        (RemovesIndex dist (spInit mem).1 l index r ↔ 0 ≤ index ∨ l = []) := by
  obtain ⟨c, l, hruns, h, -⟩ := reachable_sorted dist mem calls
  exact ⟨c, l, hruns, h, removesIndex_iff h⟩

/-- With one point in the list, the index -1 removes it. -/
theorem negative_index_removes : ¬ ∀ (dist : Int → Int → Int) (mem : Memory Int Int)
    (calls : List (PointCall Int)) (index : Int), ∃ c l,
      runCalls dist (spInit mem).1 calls (spInit mem).2 = some c ∧
      PointList dist c (spInit mem).1 l ∧ ∃ r, spRemoveByIndex c (spInit mem).1 index = some r ∧
        RemovesIndex dist (spInit mem).1 l index r := by
  intro hall
  obtain ⟨c, l, hruns, h, r, hremove, hr⟩ := hall (fun x y => x * x + y * y) [] [.add 1 1] (-1)
  obtain ⟨r', hremove', hiff⟩ := removesIndex_iff h (-1)
  obtain rfl := Option.some.inj (hremove.symm.trans hremove')
  obtain rfl := (hiff.1 hr).resolve_left (by decide)
  have hone : (runCalls (fun x y => x * x + y * y) 0 [.add 1 1]
      (spInit ([] : Memory Int Int)).2).bind (fun c => c.get 0) =
      some ⟨some 1, ⟨none, none⟩⟩ := rfl
  rw [show runCalls _ 0 _ _ = some c from hruns, Option.bind_some,
    show c.get 0 = _ from h.get_sp.1] at hone
  cases hone

end Removal

section Duplicates

/-- After the duplicates are deleted every point of the list is there once, in the old order, and
the number of points that equalled an earlier one is returned. -/
theorem duplicates_deleted (dist : κ → κ → δ) (mem : Memory κ δ) (calls : List (PointCall κ)) :
    ∃ c l, runCalls dist (spInit mem).1 calls (spInit mem).2 = some c ∧
      PointList dist c (spInit mem).1 l ∧
      ∃ r l', spDeleteDuplicates c (spInit mem).1 = some r ∧
        PointList dist r.mem (spInit mem).1 l' ∧ (points l').Nodup ∧
        (∀ p, p ∈ points l' ↔ p ∈ points l) ∧ (points l').Sublist (points l) ∧
        r.val = l.length - l'.length ∧ r.val = repeats (points l) := by
  obtain ⟨c, l, hruns, h, sorted⟩ := reachable_sorted dist mem calls
  obtain ⟨c', l', hdelete, hlist, hpoints⟩ := spDeleteDuplicates_spec h
  have hsub : (points l').Sublist (points l) := by
    rw [hpoints]
    exact List.destutter_sublist _ _
  have hmem : ∀ p, p ∈ points l' ↔ p ∈ points l := fun p => by rw [hpoints, mem_destutter]
  have hnodup : (points l').Nodup := by
    apply (sorted.sublist hsub).nodup
    rw [hpoints]
    exact List.isChain_destutter _ _
  refine ⟨c, l, hruns, h, _, l', hdelete, hlist, hnodup, hmem, hsub, rfl, ?_⟩
  -- the points that are left are the different ones
  have hcard : (points l).toFinset.card = l'.length := by
    rw [← List.length_map Prod.snd, ← List.toFinset_card_of_nodup hnodup]
    congr 1
    ext p
    rw [List.mem_toFinset, List.mem_toFinset, hmem]
  have hrepeats := repeats_add_card (points l)
  rw [hcard, List.length_map] at hrepeats
  dsimp only
  omega

end Duplicates

end Ece344Lab.Warmup
