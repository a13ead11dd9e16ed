import Ece344Lab.Webserver.Evictions
import Ece344Lab.Webserver.Request

/-!
# What the server's memory keeps

The invariant of every state that requests lead to, also when `delete_entry` has left a freed entry
in a chain: the walk of a chain comes to files of the list only, each once and in the bucket of its
name, and the data of every entry has as many bytes as its size says.
-/
namespace Ece344Lab.Webserver

variable {files files' : Files} {ht ht' : Hashtable} {p q file next next' : Nat} {size : Int}
  {name : Bytes} {b : Nat}

/-- The buffer holds as many bytes as the size says. -/
def Whole (data : FileData) : Prop := data.file_size = data.file_buf.length

/-- The cache over the data at the addresses below `next`. -/
structure Kept (files : Files) (next : Nat) (ht : Hashtable) : Prop where
  accounted : Accounted files ht
  walked : ∀ b, ∀ p ∈ walk (ht.table b), p ∈ ht.LRU ∧ hash (files p).file_name = b
  nodup : ∀ b, (walk (ht.table b)).Nodup
  old : ∀ b, ∀ p ∈ ht.chain b, p < next
  whole : ∀ b, ∀ p ∈ ht.chain b, Whole (files p)

/-- A file of the name is in the cache, before any freed entry. -/
def Cached (files : Files) (ht : Hashtable) (name : Bytes) : Prop :=
  ∃ p ∈ walk (ht.table (hash name)), (files p).file_name = name

/-- The file has to go to make room for `size`. -/
def Victim (files : Files) (ht : Hashtable) (size : Int) (p : Nat) : Prop :=
  ∃ i, ht.LRU[i]? = some p ∧ ht.available_cache_size + totalSize files (ht.LRU.take i) < size

/-- The first file of the chain does not go while others stay. -/
def StaysUsable (files : Files) (ht : Hashtable) (size : Int) (b : Nat) : Prop :=
  ∀ p, (ht.chain b).head? = some p → Victim files ht size p →
    ∀ q ∈ ht.chain b, Victim files ht size q

/-- A file of the given size can be inserted into the bucket: it is too large, there is room, or
the victims can be evicted and the bucket stays usable. -/
def Insertable (files : Files) (ht : Hashtable) (size : Int) (b : Nat) : Prop :=
  2 * size ≤ ht.cache_size → ht.available_cache_size < size →
    EvictableInTurn files ht size ∧ StaysUsable files ht size b

theorem Whole.nonneg {data : FileData} (h : Whole data) : 0 ≤ data.file_size := by
  rw [h]
  exact Int.natCast_nonneg _

namespace Kept

theorem lru_lt (h : Kept files next ht) (hp : p ∈ ht.LRU) : p < next :=
  h.old _ p (h.accounted.bucket p hp)

/-- Only the data of entries matters. -/
theorem mono (h : Kept files next ht) (eq : ∀ p < next, files' p = files p) (le : next ≤ next') :
    Kept files' next' ht where
  accounted := {
    lru_nodup := h.accounted.lru_nodup
    bucket := fun p hp => by
      rw [eq p (h.lru_lt hp)]
      exact h.accounted.bucket p hp
    size_nonneg := fun p hp => by
      rw [eq p (h.lru_lt hp)]
      exact h.accounted.size_nonneg p hp
    total := by
      rw [totalSize_congr fun p hp => eq p (h.lru_lt hp)]
      exact h.accounted.total }
  walked b p hp := by
    rw [eq p (h.old b p (mem_of_mem_walk hp))]
    exact h.walked b p hp
  nodup := h.nodup
  old b p hp := Nat.lt_of_lt_of_le (h.old b p hp) le
  whole b p hp := by
    rw [eq p (h.old b p hp)]
    exact h.whole b p hp

theorem lru_perm (h : Kept files next ht) {l : List Nat} (perm : l.Perm ht.LRU) :
    Kept files next { ht with LRU := l } where
  accounted := {
    lru_nodup := perm.nodup_iff.2 h.accounted.lru_nodup
    bucket := fun p hp => h.accounted.bucket p (perm.mem_iff.1 hp)
    size_nonneg := fun p hp => h.accounted.size_nonneg p (perm.mem_iff.1 hp)
    total := by
      show ht.available_cache_size + totalSize files l = ht.cache_size
      rw [totalSize_perm perm]
      exact h.accounted.total }
  walked b p hp := (h.walked b p hp).imp_left perm.mem_iff.2
  nodup := h.nodup
  old := h.old
  whole := h.whole

/-- A lookup of a cached name finds a file of that name and only reorders the list. -/
theorem lookup_cached (h : Kept files next ht) (cached : Cached files ht name) (time : Nat) :
    ∃ p ht', cacheLookup files ht name time = .ok (some p, ht') ∧ Kept files next ht' ∧
      p ∈ ht.LRU ∧ (files p).file_name = name := by
  have look := findName_ok (.inl cached)
  obtain ⟨p, find⟩ : ∃ p, (walk (ht.table (hash name))).find?
      (fun p => (files p).file_name = name) = some p := by
    obtain ⟨q, hq, hname⟩ := cached
    exact Option.isSome_iff_exists.1 (List.find?_isSome.2 ⟨q, hq, by simpa using hname⟩)
  have hname : (files p).file_name = name := by simpa using List.find?_some find
  have mem := (h.walked _ p (List.mem_of_find?_eq_some find)).1
  rw [find] at look
  by_cases ht0 : time = 0
  · exact ⟨p, { ht with LRU := updateLRU p ht.LRU }, by simp [cacheLookup, look, ht0],
      h.lru_perm (updateLRU_perm h.accounted.lru_nodup mem), mem, hname⟩
  · exact ⟨p, ht, by simp [cacheLookup, look, ht0], h, mem, hname⟩

theorem lookup_missing (missing : ¬ Cached files ht name) (time : Nat) :
    (Usable (ht.table (hash name)) → cacheLookup files ht name time = .ok (none, ht)) ∧
      (¬ Usable (ht.table (hash name)) →
        cacheLookup files ht name time = .error .freedEntry) := by
  constructor
  · intro usable
    have none : (walk (ht.table (hash name))).find? (fun p => (files p).file_name = name) =
        none := by
      rw [List.find?_eq_none]
      exact fun p hp hname => missing ⟨p, hp, by simpa using hname⟩
    rw [cacheLookup, findName_ok (.inr usable), none]
  · intro freed
    rw [cacheLookup, findName_freed missing freed]

/-- Data at the next address is put at the end of a usable bucket. -/
theorem insertHt (h : Kept files next ht) (whole : Whole (files next))
    (usable : Usable (ht.table (hash (files next).file_name))) :
    ∃ ht', cacheInsertHt files ht next = .ok ht' ∧ Kept files (next + 1) ht' := by
  have fresh : next ∉ ht.LRU := fun hn => Nat.lt_irrefl _ (h.lru_lt hn)
  refine ⟨_, cacheInsertHt_ok (appendEntry_usable usable), ?_⟩
  rw [updateLRU_of_notMem fresh]
  have other : ∀ b, b ≠ hash (files next).file_name → Function.update ht.table
      (hash (files next).file_name) (ht.table (hash (files next).file_name) ++ [⟨next, false⟩]) b =
        ht.table b := fun b hb => Function.update_of_ne hb _ _
  have chain : ∀ b, ∀ p ∈ (Function.update ht.table (hash (files next).file_name)
      (ht.table (hash (files next).file_name) ++ [⟨next, false⟩]) b).map Entry.data,
        p ∈ ht.chain b ∨ p = next := by
    intro b p hp
    by_cases hb : b = hash (files next).file_name
    · subst hb
      simpa [Hashtable.chain] using hp
    · rw [other b hb] at hp
      exact .inl hp
  constructor
  case accounted =>
    constructor
    case lru_nodup =>
      exact List.nodup_append.2 ⟨h.accounted.lru_nodup, by simp, fun p hp q hq heq =>
        fresh (List.mem_singleton.1 hq ▸ heq ▸ hp)⟩
    case bucket =>
      intro p hp
      show p ∈ (Function.update ht.table _ _ _).map Entry.data
      by_cases hb : hash (files p).file_name = hash (files next).file_name
      · rw [hb, Function.update_self, List.map_append, List.mem_append]
        obtain hp | hp := List.mem_append.1 hp
        · exact .inl (hb ▸ h.accounted.bucket p hp)
        · exact .inr (by simpa using hp)
      · rw [other _ hb]
        obtain hp | hp := List.mem_append.1 hp
        · exact h.accounted.bucket p hp
        · exact absurd (by rw [List.mem_singleton.1 hp]) hb
    case size_nonneg =>
      intro p hp
      obtain hp | hp := List.mem_append.1 hp
      · exact h.accounted.size_nonneg p hp
      · exact List.mem_singleton.1 hp ▸ whole.nonneg
    case total =>
      have total := h.accounted.total
      show ht.available_cache_size - _ + totalSize files (ht.LRU ++ [next]) = ht.cache_size
      rw [totalSize_append, totalSize_cons, totalSize_nil]
      omega
  case walked =>
    intro b p hp
    dsimp only at hp ⊢
    by_cases hb : b = hash (files next).file_name
    · subst hb
      rw [Function.update_self, walk_append usable, List.mem_append, List.mem_singleton] at hp
      obtain hp | rfl := hp
      · exact (h.walked _ p hp).imp_left fun mem => List.mem_append_left _ mem
      · exact ⟨by simp, rfl⟩
    · rw [other b hb] at hp
      exact (h.walked b p hp).imp_left fun mem => List.mem_append_left _ mem
  case nodup =>
    intro b
    dsimp only
    by_cases hb : b = hash (files next).file_name
    · subst hb
      rw [Function.update_self, walk_append usable]
      exact List.nodup_append.2 ⟨h.nodup _, by simp, fun p hp q hq heq =>
        fresh (List.mem_singleton.1 hq ▸ heq ▸ (h.walked _ p hp).1)⟩
    · rw [other b hb]
      exact h.nodup b
  case old =>
    intro b p hp
    obtain hp | rfl := chain b p hp
    · exact Nat.lt_succ_of_lt (h.old b p hp)
    · exact Nat.lt_succ_self _
  case whole =>
    intro b p hp
    obtain hp | rfl := chain b p hp
    · exact h.whole b p hp
    · exact whole

theorem insertHt_freed (freed : ¬ Usable (ht.table (hash (files file).file_name))) :
    cacheInsertHt files ht file = .error .freedEntry := by
  rw [cacheInsertHt, appendEntry_freed freed]

/-- One eviction keeps the invariant. -/
theorem turn (h : Kept files next ht) (acc : Accounted files ht') (turn : Turn files ht ht' p) :
    Kept files next ht' where
  accounted := acc
  walked b q hq := by
    have ne : q ≠ p := by
      rintro rfl
      by_cases hb : b = hash (files q).file_name
      · subst hb
        rw [turn.walk_eq] at hq
        split at hq
        · cases hq
        · exact (h.nodup _).not_mem_erase hq
      · rw [turn.other b hb] at hq
        exact hb (h.walked b q hq).2.symm
    obtain ⟨mem, bucket⟩ := h.walked b q ((turn.walk_iff b ne).1 hq).1
    rw [turn.lru, List.mem_cons] at mem
    exact ⟨mem.resolve_left ne, bucket⟩
  nodup b := by
    by_cases hb : b = hash (files p).file_name
    · subst hb
      rw [turn.walk_eq]
      split
      · exact List.nodup_nil
      · exact (h.nodup _).erase p
    · rw [turn.other b hb]
      exact h.nodup b
  old b q hq := h.old b q (turn.mem_chain.1 hq)
  whole b q hq := h.whole b q (turn.mem_chain.1 hq)

/-- What an eviction leaves, turn by turn. A property of the state that every turn keeps is kept. -/
theorem evict_induction {P : Hashtable → Prop} (h : Kept files next ht) (start : P ht)
    (step : ∀ ht₁ ht₂ p, Kept files next ht₁ → Turn files ht₁ ht₂ p → P ht₁ → P ht₂)
    (run : cacheEvict files ht size = .ok ht') : Kept files next ht' ∧ P ht' := by
  unfold cacheEvict at run
  generalize lru : ht.LRU = l at run
  induction l generalizing ht with
  | nil =>
    rw [evictFrom] at run
    split at run
    · cases run
    · cases run
      exact ⟨h, start⟩
  | cons p rest ih =>
    rw [evictFrom] at run
    split at run
    · by_cases comes : p ∈ walk (ht.table (hash (files p).file_name))
      · obtain ⟨ht₁, del, acc, turn⟩ := h.accounted.turn lru comes
        rw [del] at run
        exact ih (h.turn acc turn) (step ht ht₁ p h turn start)
          (List.cons.inj (turn.lru.symm.trans lru)).2 run
      · rw [h.accounted.stuck lru comes] at run
        cases run
    · cases run
      exact ⟨h, start⟩

/-- No turn makes a chain usable again. -/
theorem evict_freed (h : Kept files next ht) (freed : ¬ Usable (ht.table b))
    (run : cacheEvict files ht size = .ok ht') : ¬ Usable (ht'.table b) := by
  refine (h.evict_induction (P := fun ht => ¬ Usable (ht.table b)) freed ?_ run).2
  intro ht₁ ht₂ p _ turn freed usable
  apply freed
  by_cases hb : b = hash (files p).file_name
  · subst hb
    exact (turn.usable_iff.1 usable).1
  · rwa [turn.other b hb] at usable

end Kept

section Victims

theorem Turn.victim_iff (h : Turn files ht ht' p) (ne : q ≠ p) :
    Victim files ht size q ↔ Victim files ht' size q := by
  constructor
  · rintro ⟨i, hq, less⟩
    cases i with
    | zero => exact absurd (by simpa [h.lru] using hq.symm) ne
    | succ i => exact ⟨i, by simpa [h.lru] using hq, h.sum_take_succ i ▸ less⟩
  · rintro ⟨i, hq, less⟩
    exact ⟨i + 1, by simpa [h.lru] using hq, (h.sum_take_succ i).symm ▸ less⟩

theorem Turn.victim (h : Turn files ht ht' p) (short : ht.available_cache_size < size) :
    Victim files ht size p :=
  ⟨0, by simp [h.lru], by simpa using short⟩

/-- A turn that leaves the bucket usable changes nothing about whether it stays so. -/
theorem Turn.staysUsable_iff (h : Turn files ht ht' p) (kept : Kept files next ht)
    (short : ht.available_cache_size < size) (usable : Usable (ht.table b))
    (usable' : Usable (ht'.table b)) :
    StaysUsable files ht size b ↔ StaysUsable files ht' size b := by
  have chain := walk_of_usable usable
  by_cases hb : b = hash (files p).file_name
  · subst hb
    have single := (h.usable_iff.1 usable').2
    have chain' : ht'.chain (hash (files p).file_name) =
        (ht.chain (hash (files p).file_name)).erase p := by rw [h.chain_eq, if_neg single]
    rw [chain] at single
    change ¬ ((ht.chain _).head? = some p ∧ _) at single
    have nodup : (ht.chain (hash (files p).file_name)).Nodup := by
      rw [Hashtable.chain, ← chain]
      exact kept.nodup _
    rw [StaysUsable, StaysUsable, chain']
    cases hc : ht.chain (hash (files p).file_name) with
    | nil => simp
    | cons r l =>
      by_cases hr : r = p
      · -- the only file of the chain
        subst hr
        have alone : l = [] := by
          have length : (ht.chain (hash (files r).file_name)).length ≤ 1 := by
            have := fun several => single ⟨by rw [hc]; rfl, several⟩
            simpa [Hashtable.chain] using this
          rw [hc, List.length_cons] at length
          exact List.length_eq_zero_iff.1 (by omega)
        subst alone
        simp only [List.erase_cons_head, List.head?_nil, List.head?_cons, List.mem_singleton]
        exact iff_of_true (fun _ _ _ q hq => hq ▸ h.victim short) (fun _ hp => by cases hp)
      · have tail : ¬ (r == p) = true := by simpa using hr
        rw [hc] at nodup
        rw [List.erase_cons_tail tail]
        simp only [List.head?_cons, Option.some.injEq, forall_eq']
        rw [h.victim_iff hr]
        refine imp_congr_right fun _ => ⟨fun all q hq => ?_, fun all q hq => ?_⟩
        · have ne : q ≠ p := by
            rintro rfl
            rw [← List.erase_cons_tail tail] at hq
            exact nodup.not_mem_erase hq
          rw [← List.erase_cons_tail tail] at hq
          exact (h.victim_iff ne).1 (all q (List.mem_of_mem_erase hq))
        · by_cases hqp : q = p
          · exact hqp ▸ h.victim short
          · refine (h.victim_iff hqp).2 (all q ?_)
            rw [← List.erase_cons_tail tail]
            exact (List.mem_erase_of_ne hqp).2 hq
  · have same : ht'.chain b = ht.chain b := by rw [Hashtable.chain, h.other b hb, Hashtable.chain]
    have ne : ∀ q ∈ ht.chain b, q ≠ p := by
      rintro q hq rfl
      have mem : q ∈ walk (ht.table b) := chain ▸ hq
      exact hb (kept.walked b q mem).2.symm
    rw [StaysUsable, StaysUsable, same]
    constructor
    · intro stays r hr victim q hq
      have mem := List.mem_of_mem_head? hr
      exact (h.victim_iff (ne q hq)).1 (stays r hr ((h.victim_iff (ne r mem)).2 victim) q hq)
    · intro stays r hr victim q hq
      have mem := List.mem_of_mem_head? hr
      exact (h.victim_iff (ne q hq)).2 (stays r hr ((h.victim_iff (ne r mem)).1 victim) q hq)

/-- A turn that frees the first of several files of the bucket leaves one of them in the list. -/
theorem Turn.not_staysUsable (h : Turn files ht ht' p) (kept : Kept files next ht)
    (able : EvictableInTurn files ht size) (short : ht.available_cache_size < size)
    (usable : Usable (ht.table b)) (freed : ¬ Usable (ht'.table b)) :
    ¬ StaysUsable files ht size b := by
  have chain := walk_of_usable usable
  obtain rfl : b = hash (files p).file_name := by
    by_contra hb
    rw [h.other b hb] at freed
    exact freed usable
  have first : (walk (ht.table (hash (files p).file_name))).head? = some p ∧
      1 < (ht.table (hash (files p).file_name)).length := by
    by_contra single
    exact freed (h.usable_iff.2 ⟨usable, single⟩)
  obtain ⟨head, several⟩ := first
  obtain ⟨q, hq, ne⟩ : ∃ q ∈ walk (ht.table (hash (files p).file_name)), q ≠ p := by
    have nodup := kept.nodup (hash (files p).file_name)
    have length : 1 < (walk (ht.table (hash (files p).file_name))).length := by
      rwa [chain, List.length_map]
    generalize walk (ht.table (hash (files p).file_name)) = l at head nodup length
    match l with
    | [] => simp at length
    | [r] => simp at length
    | r :: q :: l =>
      obtain rfl : r = p := by simpa using head
      refine ⟨q, by simp, ?_⟩
      rintro rfl
      simp at nodup
  intro stays
  obtain ⟨i, hi, less⟩ := stays p (by rw [Hashtable.chain, ← chain, head]) (h.victim short) q
    (by rw [Hashtable.chain, ← chain]; exact hq)
  have bucket := (kept.walked _ q hq).2
  have firsts := (able i q hi less).2 p
  rw [bucket] at firsts
  cases i with
  | zero => exact ne (by simpa [h.lru] using hi.symm)
  | succ i => exact firsts (by simp [h.lru]) rfl head

/-- The bucket is usable after an eviction exactly when its first file does not go before others
that stay, by induction on the turns. -/
theorem Kept.evict_usable (h : Kept files next ht) (usable : Usable (ht.table b))
    (able : EvictableInTurn files ht size) (run : cacheEvict files ht size = .ok ht') :
    Usable (ht'.table b) ↔ StaysUsable files ht size b := by
  have done : size ≤ ht.available_cache_size → StaysUsable files ht size b := by
    rintro room p - ⟨i, -, less⟩
    exact absurd less (h.accounted.room room i)
  unfold cacheEvict at run
  generalize lru : ht.LRU = l at run
  induction l generalizing ht with
  | nil =>
    rw [evictFrom] at run
    split at run
    · cases run
    case isFalse room =>
      cases run
      exact iff_of_true usable (done (not_lt.1 room))
  | cons p rest ih =>
    rw [evictFrom] at run
    split at run
    case isTrue short =>
      obtain ⟨comes, -⟩ := able 0 p (by simp [lru]) (by simpa using short)
      obtain ⟨ht₁, del, acc, turn⟩ := h.accounted.turn lru comes
      have kept := h.turn acc turn
      have lru₁ : ht₁.LRU = rest := (List.cons.inj (turn.lru.symm.trans lru)).2
      rw [del] at run
      by_cases usable' : Usable (ht₁.table b)
      · rw [turn.staysUsable_iff h short usable usable']
        refine ih kept usable' ((turn.evictable_iff h.accounted.lru_nodup).1 able) ?_ lru₁ run
        rintro room p - ⟨i, -, less⟩
        exact absurd less (acc.room room i)
      · rw [← lru₁] at run
        exact iff_of_false (kept.evict_freed usable' run)
          (turn.not_staysUsable h able short usable usable')
    case isFalse room =>
      cases run
      exact iff_of_true usable (done (not_lt.1 room))

end Victims

namespace Kept

/-- Inserting the data at the next address, when no file of its name is cached. -/
theorem insert (h : Kept files next ht) (whole : Whole (files next))
    (usable : Usable (ht.table (hash (files next).file_name))) :
    ((∃ ht', cacheInsert files ht next = .ok ht') ↔
      Insertable files ht (files next).file_size (hash (files next).file_name)) ∧
    ∀ ht', cacheInsert files ht next = .ok ht' → Kept files (next + 1) ht' := by
  have grown : Kept files (next + 1) ht := h.mono (fun _ _ => rfl) (Nat.le_succ _)
  have fault : ∀ {e : Fault} {P : Prop}, ¬ P →
      ((∃ ht' : Hashtable, Except.error e = .ok ht') ↔ P) ∧
        ∀ ht' : Hashtable, Except.error e = .ok ht' → Kept files (next + 1) ht' := by
    intro e P no
    refine ⟨iff_of_false ?_ no, fun ht' eq => by cases eq⟩
    rintro ⟨ht', eq⟩
    cases eq
  unfold cacheInsert
  split_ifs with large short
  · refine ⟨iff_of_true ⟨ht, rfl⟩ fun fits => absurd large (not_lt.2 fits), ?_⟩
    rintro ht' ⟨⟩
    exact grown
  · have fits : 2 * (files next).file_size ≤ ht.cache_size := not_lt.1 large
    have le : (files next).file_size ≤ ht.cache_size := by
      have := whole.nonneg
      omega
    by_cases able : EvictableInTurn files ht (files next).file_size
    · obtain ⟨ht₁, k, run, -⟩ := h.accounted.evict le able
      have evicted := (h.evict_induction (P := fun _ => True) trivial (fun _ _ _ _ _ _ => trivial)
        run).1
      have stays := h.evict_usable usable able run
      rw [run]
      dsimp only
      by_cases usable₁ : Usable (ht₁.table (hash (files next).file_name))
      · obtain ⟨ht', insert, kept⟩ := evicted.insertHt whole usable₁
        rw [insert]
        refine ⟨iff_of_true ⟨ht', rfl⟩ fun _ _ => ⟨able, stays.1 usable₁⟩, ?_⟩
        rintro _ ⟨⟩
        exact kept
      · rw [insertHt_freed usable₁]
        exact fault fun all => usable₁ (stays.2 (all fits short).2)
    · rw [h.accounted.evict_fault able]
      exact fault fun all => able (all fits short).1
  · obtain ⟨ht', insert, kept⟩ := h.insertHt whole usable
    rw [insert]
    refine ⟨iff_of_true ⟨ht', rfl⟩ fun _ less => absurd less short, ?_⟩
    rintro _ ⟨⟩
    exact kept

/-- The second locked section of a request that found nothing in the first. -/
theorem insertSection (h : Kept files next ht) (whole : Whole (files next))
    (missing : ¬ Cached files ht (files next).file_name)
    (usable : Usable (ht.table (hash (files next).file_name))) :
    ((∃ ht', Webserver.insertSection files ht next = .ok ht') ↔
      Insertable files ht (files next).file_size (hash (files next).file_name)) ∧
    ∀ ht', Webserver.insertSection files ht next = .ok ht' → Kept files (next + 1) ht' := by
  rw [Webserver.insertSection, (lookup_missing missing 1).1 usable]
  exact h.insert whole usable

/-- Only the data of entries decides what is cached. -/
theorem cached_congr (h : Kept files next ht) (eq : ∀ p < next, files' p = files p) :
    Cached files' ht name ↔ Cached files ht name := by
  have old : ∀ p ∈ walk (ht.table (hash name)), files' p = files p := fun p hp =>
    eq p (h.old _ p (mem_of_mem_walk hp))
  refine exists_congr fun p => and_congr_right fun hp => ?_
  rw [old p hp]

theorem insertable_congr (h : Kept files next ht) (eq : ∀ p < next, files' p = files p) :
    Insertable files' ht size b ↔ Insertable files ht size b := by
  have lru : ∀ p ∈ ht.LRU, files' p = files p := fun p hp => eq p (h.lru_lt hp)
  have sums : ∀ i, totalSize files' (ht.LRU.take i) = totalSize files (ht.LRU.take i) := fun i =>
    totalSize_congr fun p hp => lru p (List.mem_of_mem_take hp)
  have victim : ∀ p, Victim files' ht size p ↔ Victim files ht size p := fun p => by
    simp only [Victim, sums]
  have able : EvictableInTurn files' ht size ↔ EvictableInTurn files ht size := by
    refine forall_congr' fun i => forall_congr' fun p => imp_congr_right fun hp => ?_
    rw [sums, lru p (List.mem_of_getElem? hp)]
    refine imp_congr_right fun _ => and_congr_right fun _ => forall_congr' fun q =>
      imp_congr_right fun hq => ?_
    rw [lru q (List.mem_of_mem_take hq)]
  simp only [Insertable, StaysUsable, victim, able]

theorem init {max_cache_size : Int} : Kept files 0 (cacheInit max_cache_size) := by
  constructor
  case accounted => constructor <;> simp [cacheInit]
  all_goals simp [cacheInit, walk, Hashtable.chain]

end Kept

end Ece344Lab.Webserver
