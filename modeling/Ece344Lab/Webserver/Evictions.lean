import Ece344Lab.Webserver.CacheInvariant
import Mathlib.Algebra.Order.BigOperators.Group.List

/-!
# What an eviction frees

`cache_evict` in any state whose list and running total agree, reachable or not. The list never
runs out, and the files evicted are the fewest that free enough, unless a walk of `delete_entry`
comes to an entry that was freed: one that was there before, or the first of the chain of an
earlier victim, which is freed without being unlinked.
-/
namespace Ece344Lab.Webserver

variable {files : Files} {ht ht' : Hashtable} {p q file : Nat} {size : Int}

/-- The list and the running total agree, and each file of the list is in its bucket. Nothing is
said of the other entries, nor of which entries were freed. -/
structure Accounted (files : Files) (ht : Hashtable) : Prop where
  lru_nodup : ht.LRU.Nodup
  bucket : ∀ p ∈ ht.LRU, p ∈ ht.chain (hash (files p).file_name)
  size_nonneg : ∀ p ∈ ht.LRU, 0 ≤ (files p).file_size
  total : ht.available_cache_size + totalSize files ht.LRU = ht.cache_size

/-- Each file that has to go is, in the state before, one that the walk of its chain comes to, and
no file that has to go before it is the first of that walk: the `i`-th file of the list has to go
if the `i` before it free too little. -/
def EvictableInTurn (files : Files) (ht : Hashtable) (size : Int) : Prop :=
  ∀ i p, ht.LRU[i]? = some p →
    ht.available_cache_size + totalSize files (ht.LRU.take i) < size →
      p ∈ walk (ht.table (hash (files p).file_name)) ∧
        ∀ q ∈ ht.LRU.take i, hash (files q).file_name = hash (files p).file_name →
          (walk (ht.table (hash (files p).file_name))).head? ≠ some q

/-- The eviction ends with the first `k` files gone from the list, `k` the least number whose
sizes free enough, the others in the same order, and the total still in balance. -/
def EvictsJustEnough (files : Files) (ht : Hashtable) (size : Int) : Prop :=
  ∃ ht' k, cacheEvict files ht size = .ok ht' ∧ k ≤ ht.LRU.length ∧
    ht'.LRU = ht.LRU.drop k ∧
    ht'.available_cache_size = ht.available_cache_size + totalSize files (ht.LRU.take k) ∧
    size ≤ ht'.available_cache_size ∧
    (∀ i < k, ht.available_cache_size + totalSize files (ht.LRU.take i) < size) ∧
    ht'.available_cache_size + totalSize files ht'.LRU = ht.cache_size

/-- `ht'` is left of `ht` by one turn of the loop, which evicts `p`, the first file of the list. -/
structure Turn (files : Files) (ht ht' : Hashtable) (p : Nat) : Prop where
  lru : ht.LRU = p :: ht'.LRU
  cache_size : ht'.cache_size = ht.cache_size
  available : ht'.available_cache_size = ht.available_cache_size + (files p).file_size
  comes : p ∈ walk (ht.table (hash (files p).file_name))
  other : ∀ b, b ≠ hash (files p).file_name → ht'.table b = ht.table b
  walk_eq : walk (ht'.table (hash (files p).file_name)) =
    if (walk (ht.table (hash (files p).file_name))).head? = some p then []
    else (walk (ht.table (hash (files p).file_name))).erase p
  chain_eq : ht'.chain (hash (files p).file_name) =
    if (walk (ht.table (hash (files p).file_name))).head? = some p ∧
        1 < (ht.table (hash (files p).file_name)).length
    then ht.chain (hash (files p).file_name)
    else (ht.chain (hash (files p).file_name)).erase p
  usable_iff : Usable (ht'.table (hash (files p).file_name)) ↔
    Usable (ht.table (hash (files p).file_name)) ∧
      ¬ ((walk (ht.table (hash (files p).file_name))).head? = some p ∧
        1 < (ht.table (hash (files p).file_name)).length)

/-- Only the evicted file leaves a chain. -/
theorem Turn.mem_chain (h : Turn files ht ht' p) {b : Nat} :
    (q ∈ ht'.chain b → q ∈ ht.chain b) ∧ (q ∈ ht.chain b → q ≠ p → q ∈ ht'.chain b) := by
  by_cases hb : b = hash (files p).file_name
  · subst hb
    rw [h.chain_eq]
    split
    · exact ⟨id, fun hq _ => hq⟩
    · exact ⟨List.mem_of_mem_erase, fun hq ne => (List.mem_erase_of_ne ne).2 hq⟩
  · rw [Hashtable.chain, Hashtable.chain, h.other b hb]
    exact ⟨id, fun hq _ => hq⟩

namespace Accounted

variable {rest : List Nat}

/-- The first turn of the loop, when the walk comes to its victim. -/
theorem turn (h : Accounted files ht) (lru : ht.LRU = p :: rest)
    (comes : p ∈ walk (ht.table (hash (files p).file_name))) :
    ∃ ht', deleteEntry files { ht with
        available_cache_size := ht.available_cache_size + (files p).file_size
        LRU := rest } p = .ok ht' ∧ Accounted files ht' ∧ Turn files ht ht' p := by
  obtain ⟨c', del, walk', data', usable'⟩ := deleteFrom_of_mem comes
  have nodup := h.lru_nodup
  rw [lru, List.nodup_cons] at nodup
  have sub : ∀ q ∈ rest, q ∈ ht.LRU := fun q hq => by simp [lru, hq]
  have turn : Turn files ht { ht with
      available_cache_size := ht.available_cache_size + (files p).file_size
      LRU := rest
      table := Function.update ht.table (hash (files p).file_name) c' } p := by
    refine ⟨lru, rfl, rfl, comes, fun b hb => Function.update_of_ne hb c' ht.table, ?_, ?_, ?_⟩
    · simpa using walk'
    · simpa [Hashtable.chain] using data'
    · simpa using usable'
  refine ⟨_, deleteEntry_ok del, ?_, turn⟩
  constructor
  case lru_nodup => exact nodup.2
  case bucket =>
    exact fun q hq => turn.mem_chain.2 (h.bucket q (sub q hq)) fun heq => nodup.1 (heq ▸ hq)
  case size_nonneg => exact fun q hq => h.size_nonneg q (sub q hq)
  case total =>
    have total := h.total
    rw [lru, totalSize_cons] at total
    show ht.available_cache_size + _ + totalSize files rest = ht.cache_size
    omega

/-- When the walk does not come to the victim, it ends at a freed entry. -/
theorem stuck (h : Accounted files ht) (lru : ht.LRU = p :: rest)
    (comes : p ∉ walk (ht.table (hash (files p).file_name))) :
    deleteEntry files { ht with
      available_cache_size := ht.available_cache_size + (files p).file_size
      LRU := rest } p = .error .freedEntry := by
  have del := deleteFrom_of_notMem comes (h.bucket p (by simp [lru]))
  simp only [deleteEntry, del]

end Accounted

namespace Turn

/-- What the turn leaves of the walk to another file. -/
theorem walk_iff (h : Turn files ht ht' p) (b : Nat) (ne : q ≠ p) :
    q ∈ walk (ht'.table b) ↔ q ∈ walk (ht.table b) ∧
      (hash (files p).file_name = b → (walk (ht.table b)).head? ≠ some p) := by
  by_cases hb : b = hash (files p).file_name
  · subst hb
    rw [h.walk_eq]
    split
    case isTrue head => simp [head]
    case isFalse head => simp [head, List.mem_erase_of_ne ne]
  · rw [h.other b hb]
    exact ⟨fun hq => ⟨hq, fun heq => absurd heq.symm hb⟩, And.left⟩

/-- A walk that still comes to a file begins with the same file. -/
theorem head_eq (h : Turn files ht ht' p) {b : Nat} (hq : q ∈ walk (ht'.table b)) :
    (walk (ht'.table b)).head? = (walk (ht.table b)).head? := by
  by_cases hb : b = hash (files p).file_name
  · subst hb
    rw [h.walk_eq] at hq ⊢
    by_cases head : (walk (ht.table (hash (files p).file_name))).head? = some p
    · rw [if_pos head] at hq
      cases hq
    · rw [if_neg head]
      cases hw : walk (ht.table (hash (files p).file_name)) with
      | nil => rfl
      | cons r l =>
        have first : ¬ (r == p) = true := by simpa [hw] using head
        rw [List.erase_cons_tail first, List.head?_cons, List.head?_cons]
  · rw [h.other b hb]

theorem take_succ (h : Turn files ht ht' p) (i : Nat) :
    ht.LRU.take (i + 1) = p :: ht'.LRU.take i := by
  rw [h.lru, List.take_succ_cons]

theorem sum_take_succ (h : Turn files ht ht' p) (i : Nat) :
    ht.available_cache_size + totalSize files (ht.LRU.take (i + 1)) =
      ht'.available_cache_size + totalSize files (ht'.LRU.take i) := by
  rw [h.take_succ, totalSize_cons, h.available]
  omega

/-- The condition speaks of the remaining victims after the turn. -/
theorem evictable_iff (h : Turn files ht ht' p) (nodup : ht.LRU.Nodup) :
    EvictableInTurn files ht size ↔ EvictableInTurn files ht' size := by
  rw [h.lru, List.nodup_cons] at nodup
  have ne : ∀ {i q}, ht'.LRU[i]? = some q → q ≠ p := fun hq heq =>
    nodup.1 (heq ▸ List.mem_of_getElem? hq)
  constructor
  · intro able i q hq less
    obtain ⟨comes, firsts⟩ :=
      able (i + 1) q (by simpa [h.lru] using hq) (h.sum_take_succ i ▸ less)
    rw [h.take_succ] at firsts
    have comes' := (h.walk_iff _ (ne hq)).2 ⟨comes, firsts p List.mem_cons_self⟩
    refine ⟨comes', fun r hr => ?_⟩
    rw [h.head_eq comes']
    exact firsts r (List.mem_cons_of_mem _ hr)
  · intro able i q hq less
    cases i with
    | zero =>
      obtain rfl : p = q := by simpa [h.lru] using hq
      exact ⟨h.comes, by simp⟩
    | succ i =>
      have hq' : ht'.LRU[i]? = some q := by simpa [h.lru] using hq
      obtain ⟨comes', firsts⟩ := able i q hq' (h.sum_take_succ i ▸ less)
      obtain ⟨comes, first⟩ := (h.walk_iff _ (ne hq')).1 comes'
      refine ⟨comes, fun r hr => ?_⟩
      rw [h.take_succ, List.mem_cons] at hr
      obtain rfl | hr := hr
      · exact first
      · rw [← h.head_eq comes']
        exact firsts r hr

end Turn

namespace Accounted

/-- The files of the list only add to the free size. -/
theorem room (h : Accounted files ht) (room : size ≤ ht.available_cache_size) (i : Nat) :
    ¬ ht.available_cache_size + totalSize files (ht.LRU.take i) < size := by
  have nonneg : 0 ≤ totalSize files (ht.LRU.take i) := by
    apply List.sum_nonneg
    intro x hx
    obtain ⟨p, hp, rfl⟩ := List.mem_map.1 hx
    exact h.size_nonneg p (List.mem_of_mem_take hp)
  omega

/-- With the condition, the loop stops in time, by induction on the list. -/
theorem evict (h : Accounted files ht) (le : size ≤ ht.cache_size)
    (able : EvictableInTurn files ht size) : EvictsJustEnough files ht size := by
  rw [EvictsJustEnough, cacheEvict]
  generalize lru : ht.LRU = l
  induction l generalizing ht with
  | nil =>
    have total := h.total
    rw [lru, totalSize_nil] at total
    refine ⟨ht, 0, by rw [evictFrom, if_neg (by omega)], by simp, lru, by simp, by omega, ?_, ?_⟩
    · exact fun i hi => absurd hi (Nat.not_lt_zero i)
    · rw [lru]
      exact total
  | cons p rest ih =>
    by_cases short : ht.available_cache_size < size
    · obtain ⟨comes, -⟩ := able 0 p (by simp [lru]) (by simpa using short)
      obtain ⟨ht₁, del, acc, turn⟩ := h.turn lru comes
      have lru₁ : ht₁.LRU = rest := (List.cons.inj (turn.lru.symm.trans lru)).2
      have cache₁ := turn.cache_size
      have available₁ := turn.available
      obtain ⟨ht', k, run, length, lru', available', enough, least, total⟩ :=
        ih acc (by omega) ((turn.evictable_iff h.lru_nodup).1 able) lru₁
      refine ⟨ht', k + 1, by rw [evictFrom, if_pos short, del]; exact run, ?_, lru', ?_, enough,
        ?_, by omega⟩
      · simpa using length
      · rw [available', available₁, List.take_succ_cons, totalSize_cons]
        omega
      · intro i hi
        cases i with
        | zero => simpa using short
        | succ i =>
          have := least i (by omega)
          rw [List.take_succ_cons, totalSize_cons]
          omega
    · refine ⟨ht, 0, by rw [evictFrom, if_neg short], by simp, lru, by simp, by omega, ?_, ?_⟩
      · exact fun i hi => absurd hi (Nat.not_lt_zero i)
      · exact h.total

/-- Without it, some turn of the loop comes to a freed entry. -/
theorem evict_fault (h : Accounted files ht) (not : ¬ EvictableInTurn files ht size) :
    cacheEvict files ht size = .error .freedEntry := by
  unfold cacheEvict
  generalize lru : ht.LRU = l
  induction l generalizing ht with
  | nil =>
    refine absurd (fun i q hq => ?_) not
    simp [lru] at hq
  | cons p rest ih =>
    by_cases short : ht.available_cache_size < size
    · rw [evictFrom, if_pos short]
      by_cases comes : p ∈ walk (ht.table (hash (files p).file_name))
      · obtain ⟨ht₁, del, acc, turn⟩ := h.turn lru comes
        rw [turn.evictable_iff h.lru_nodup] at not
        rw [del]
        exact ih acc not (List.cons.inj (turn.lru.symm.trans lru)).2
      · rw [h.stuck lru comes]
    · exact absurd (fun i q _ less => absurd less (h.room (not_lt.1 short) i)) not

end Accounted

/-- An eviction for a size of at most half the cache never takes a victim from the empty list. It
frees enough and no more if and only if each victim is on the walk of its chain and none but the
last victim of a chain is the first of it. -/
theorem evicts_just_enough (h : Accounted files ht) (nonneg : 0 ≤ size)
    (half : 2 * size ≤ ht.cache_size) :
    cacheEvict files ht size ≠ .error .nullEntry ∧
      (EvictsJustEnough files ht size ↔ EvictableInTurn files ht size) := by
  by_cases able : EvictableInTurn files ht size
  · have enough := h.evict (by omega) able
    obtain ⟨ht', k, run, -⟩ := id enough
    exact ⟨by simp [run], iff_of_true enough able⟩
  · have fault := h.evict_fault able
    refine ⟨by simp [fault], iff_of_false ?_ able⟩
    rintro ⟨ht', k, run, -⟩
    simp [fault] at run

section Shared

/-- The files "./ab", "./bA" and "./c" of sizes 1, 4 and 5. The first two have one hash. -/
def sharedFiles : Files
  | 0 => ⟨[46, 47, 97, 98], [1], 1⟩
  | 1 => ⟨[46, 47, 98, 65], [2, 3, 4, 5], 4⟩
  | _ => ⟨[46, 47, 99], [6, 7, 8, 9, 10], 5⟩

/-- The cache of size 10 that the three files fill, in that order. -/
def sharedCache : Hashtable where
  cache_size := 10
  available_cache_size := 0
  LRU := [0, 1, 2]
  table := Function.update (Function.update (fun _ => []) (hash [46, 47, 97, 98])
    (live [0, 1])) (hash [46, 47, 99]) (live [2])

theorem sharedCache_table :
    sharedCache.table (hash [46, 47, 97, 98]) = live [0, 1] ∧
      sharedCache.table (hash [46, 47, 98, 65]) = live [0, 1] ∧
        sharedCache.table (hash [46, 47, 99]) = live [2] := by
  have collide : hash [46, 47, 98, 65] = hash [46, 47, 97, 98] := by decide
  have apart : hash [46, 47, 97, 98] ≠ hash [46, 47, 99] := by decide
  rw [collide]
  simp [sharedCache, Function.update_of_ne apart]

theorem sharedCache_accounted : Accounted sharedFiles sharedCache where
  lru_nodup := by decide
  bucket p hp := by
    obtain ⟨first, second, third⟩ := sharedCache_table
    simp only [sharedCache, List.mem_cons, List.not_mem_nil, or_false] at hp
    obtain rfl | rfl | rfl := hp
    · simp [Hashtable.chain, sharedFiles, first]
    · simp [Hashtable.chain, sharedFiles, second]
    · simp [Hashtable.chain, sharedFiles, third]
  size_nonneg p hp := by
    simp only [sharedCache, List.mem_cons, List.not_mem_nil, or_false] at hp
    obtain rfl | rfl | rfl := hp <;> decide
  total := by decide

/-- One byte is made free by the first file alone. -/
theorem evicts_just_enough_shared :
    cacheEvict sharedFiles sharedCache 1 ≠ .error .nullEntry ∧
      (EvictsJustEnough sharedFiles sharedCache 1 ↔ EvictableInTurn sharedFiles sharedCache 1) :=
  evicts_just_enough sharedCache_accounted (by decide) (by decide)

/-- For five bytes the second file has to go too, and its chain begins with the freed entry of
the first. -/
theorem shared_bucket_faults :
    ¬ ∀ files ht size, Accounted files ht → 0 ≤ size → 2 * size ≤ ht.cache_size →
      cacheEvict files ht size ≠ .error .nullEntry ∧ EvictsJustEnough files ht size := by
  intro h
  have not : ¬ EvictableInTurn sharedFiles sharedCache 5 := by
    intro able
    have firsts := (able 1 1 rfl (by decide)).2 0 (by decide) (by decide)
    obtain ⟨-, second, -⟩ := sharedCache_table
    exact firsts (by simp [sharedFiles, second, live, walk])
  obtain ⟨-, ht', k, run, -⟩ :=
    h sharedFiles sharedCache 5 sharedCache_accounted (by decide) (by decide)
  simp [sharedCache_accounted.evict_fault not] at run

end Shared

end Ece344Lab.Webserver
