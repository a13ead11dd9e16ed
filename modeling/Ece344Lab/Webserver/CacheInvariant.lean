import Ece344Lab.Webserver.Chains

/-!
# What the cache represents

The invariant of the two linked structures and of the running total, and what each operation does
to it. Evictions keep it unless one of them deletes the first of several files of a bucket chain.
-/
namespace Ece344Lab.Webserver

variable {files files' : Files} {ht ht' : Hashtable} {p file : Nat} {size : Int}

/-- The files of a bucket chain. -/
def Hashtable.chain (ht : Hashtable) (h : Nat) : List Nat := (ht.table h).map Entry.data

/-- The chain of entries in use with the given files. -/
def live (l : List Nat) : List Entry := l.map fun p => ⟨p, false⟩

/-- The sum of the sizes of some files. -/
def totalSize (files : Files) (l : List Nat) : Int := (l.map fun p => (files p).file_size).sum

@[simp] theorem totalSize_nil : totalSize files [] = 0 := rfl

@[simp] theorem totalSize_cons {l : List Nat} :
    totalSize files (p :: l) = (files p).file_size + totalSize files l := by
  simp [totalSize]

@[simp] theorem totalSize_append {l m : List Nat} :
    totalSize files (l ++ m) = totalSize files l + totalSize files m := by
  simp [totalSize]

theorem totalSize_perm {l m : List Nat} (h : l.Perm m) : totalSize files l = totalSize files m :=
  (h.map _).sum_eq

theorem totalSize_congr {l : List Nat} (h : ∀ p ∈ l, files' p = files p) :
    totalSize files' l = totalSize files l := by
  rw [totalSize, totalSize, List.map_congr_left fun p hp => by rw [h p hp]]

/-- Table and `LRU` list hold the same files, each once and in the bucket of its name, names are
distinct, no freed entry is in the table, and the running total is the free size. -/
structure Rep (files : Files) (ht : Hashtable) : Prop where
  inUse : ∀ h, ∀ e ∈ ht.table h, e.freed = false
  bucket : ∀ h p, p ∈ ht.chain h ↔ p ∈ ht.LRU ∧ hash (files p).file_name = h
  chain_nodup : ∀ h, (ht.chain h).Nodup
  lru_nodup : ht.LRU.Nodup
  names : ∀ p ∈ ht.LRU, ∀ q ∈ ht.LRU, (files p).file_name = (files q).file_name → p = q
  size_nonneg : ∀ p ∈ ht.LRU, 0 ≤ (files p).file_size
  available : ht.available_cache_size = ht.cache_size - totalSize files ht.LRU
  available_nonneg : 0 ≤ ht.available_cache_size

section Chains

@[simp] theorem map_data_live (l : List Nat) : (live l).map Entry.data = l := by
  simp [live, Function.comp_def]

theorem usable_live (l : List Nat) : Usable (live l) := by
  simp [Usable, live]

theorem walk_live (l : List Nat) : walk (live l) = l :=
  (walk_of_usable (usable_live l)).trans (map_data_live l)

theorem eq_live {c : List Entry} (h : Usable c) : c = live (c.map Entry.data) := by
  rw [live, List.map_map]
  conv_lhs => rw [← List.map_id c]
  refine List.map_congr_left fun e he => ?_
  cases e
  simpa using h _ he

theorem findName_live (files : Files) (name : Bytes) (l : List Nat) :
    findName files name (live l) = .ok (l.find? fun p => (files p).file_name = name) := by
  rw [findName_ok (.inr (usable_live l)), walk_live]

theorem appendEntry_live (file : Nat) (l : List Nat) :
    appendEntry ⟨file, false⟩ (live l) = .ok (live (l ++ [file])) := by
  rw [appendEntry_usable (usable_live l), live, live, List.map_append]
  rfl

/-- The file is the first of several of a chain. -/
def FirstOfSeveral (file : Nat) (l : List Nat) : Prop := l.head? = some file ∧ 2 ≤ l.length

instance (l : List Nat) : Decidable (FirstOfSeveral file l) :=
  inferInstanceAs (Decidable (_ ∧ _))

theorem deleteFrom_live {l : List Nat} (h : file ∈ l) (first : ¬ FirstOfSeveral file l) :
    deleteFrom file (live l) = .ok (live (l.erase file)) := by
  have comes : file ∈ walk (live l) := by rwa [walk_live]
  obtain ⟨c', run, -, data, usable⟩ := deleteFrom_of_mem comes
  have single : ¬ (l.head? = some file ∧ 1 < (live l).length) := by
    rintro ⟨head, several⟩
    rw [live, List.length_map] at several
    exact first ⟨head, several⟩
  rw [walk_live] at data usable
  rw [if_neg single, map_data_live] at data
  rw [run, eq_live (usable.2 ⟨usable_live l, single⟩), data]

end Chains

namespace Rep

theorem table_eq (h : Rep files ht) (b : Nat) : ht.table b = live (ht.chain b) :=
  eq_live (h.inUse b)

theorem mem_chain (h : Rep files ht) (hp : p ∈ ht.LRU) :
    p ∈ ht.chain (hash (files p).file_name) :=
  (h.bucket _ _).2 ⟨hp, rfl⟩

/-- Only the files in the cache matter. -/
theorem congr (h : Rep files ht) (eq : ∀ p ∈ ht.LRU, files' p = files p) : Rep files' ht where
  inUse := h.inUse
  bucket b p := by
    rw [h.bucket]
    exact and_congr_right fun hp => by rw [eq p hp]
  chain_nodup := h.chain_nodup
  lru_nodup := h.lru_nodup
  names p hp q hq := by
    rw [eq p hp, eq q hq]
    exact h.names p hp q hq
  size_nonneg p hp := by
    rw [eq p hp]
    exact h.size_nonneg p hp
  available := by rw [totalSize_congr eq, h.available]
  available_nonneg := h.available_nonneg

/-- The list may be permuted. -/
theorem lru_perm (h : Rep files ht) {l : List Nat} (perm : l.Perm ht.LRU) :
    Rep files { ht with LRU := l } where
  inUse := h.inUse
  bucket b p := by
    show _ ↔ p ∈ l ∧ _
    rw [perm.mem_iff]
    exact h.bucket b p
  chain_nodup := h.chain_nodup
  lru_nodup := perm.nodup_iff.2 h.lru_nodup
  names p hp q hq := h.names p (perm.mem_iff.1 hp) q (perm.mem_iff.1 hq)
  size_nonneg p hp := h.size_nonneg p (perm.mem_iff.1 hp)
  available := by
    show ht.available_cache_size = ht.cache_size - totalSize files l
    rw [totalSize_perm perm, h.available]
  available_nonneg := h.available_nonneg

/-- A lookup finds the file of that name, if there is one, and only reorders the list. -/
theorem lookup (h : Rep files ht) (name : Bytes) (time : Nat) :
    ∃ r l, cacheLookup files ht name time = .ok (r, { ht with LRU := l }) ∧
      l.Perm ht.LRU ∧ (time ≠ 0 ∨ r = none → l = ht.LRU) ∧
      (∀ p, r = some p ↔ p ∈ ht.LRU ∧ (files p).file_name = name) := by
  have find := findName_live files name (ht.chain (hash name))
  rw [← h.table_eq] at find
  cases hr : (ht.chain (hash name)).find? (fun p => (files p).file_name = name) with
  | none =>
    rw [hr] at find
    refine ⟨none, ht.LRU, by rw [cacheLookup, find], .refl _, fun _ => rfl, fun p => ?_⟩
    constructor
    · exact nofun
    · rintro ⟨hp, rfl⟩
      simpa using List.find?_eq_none.1 hr p (h.mem_chain hp)
  | some p =>
    rw [hr] at find
    have name_eq : (files p).file_name = name := by simpa using List.find?_some hr
    have mem := ((h.bucket _ _).1 (List.mem_of_find?_eq_some hr)).1
    have unique : ∀ q, some p = some q ↔ q ∈ ht.LRU ∧ (files q).file_name = name := by
      intro q
      constructor
      · rintro ⟨⟩
        exact ⟨mem, name_eq⟩
      · rintro ⟨hq, hn⟩
        rw [h.names p mem q hq (name_eq.trans hn.symm)]
    by_cases ht0 : time = 0
    · exact ⟨some p, updateLRU p ht.LRU, by rw [cacheLookup, find]; simp [ht0],
        updateLRU_perm h.lru_nodup mem, fun hne => by simp [ht0] at hne, unique⟩
    · exact ⟨some p, ht.LRU, by rw [cacheLookup, find]; simp [ht0], .refl _, fun _ => rfl, unique⟩

/-- A file that is neither in the cache nor named like one there is inserted at the end. -/
theorem insertHt (h : Rep files ht) (fresh : file ∉ ht.LRU)
    (name : ∀ q ∈ ht.LRU, (files q).file_name ≠ (files file).file_name)
    (nonneg : 0 ≤ (files file).file_size)
    (fits : (files file).file_size ≤ ht.available_cache_size) :
    ∃ ht', cacheInsertHt files ht file = .ok ht' ∧ Rep files ht' ∧
      ht'.LRU = ht.LRU ++ [file] ∧ ht'.cache_size = ht.cache_size := by
  have app := appendEntry_live file (ht.chain (hash (files file).file_name))
  rw [← h.table_eq] at app
  refine ⟨_, cacheInsertHt_ok app, ?_, updateLRU_of_notMem fresh, rfl⟩
  have chain : ∀ b, (Function.update ht.table (hash (files file).file_name)
      (live (ht.chain (hash (files file).file_name) ++ [file])) b).map Entry.data =
        if b = hash (files file).file_name then ht.chain b ++ [file] else ht.chain b := by
    intro b
    by_cases hb : b = hash (files file).file_name
    · subst hb; simp
    · rw [Function.update_of_ne hb, if_neg hb]; rfl
  rw [updateLRU_of_notMem fresh]
  constructor
  case inUse =>
    intro b e he
    by_cases hb : b = hash (files file).file_name
    · subst hb
      simp only [Function.update_self, live, List.mem_map] at he
      obtain ⟨_, -, rfl⟩ := he
      rfl
    · simp only [Function.update_of_ne hb] at he
      exact h.inUse b e he
  case bucket =>
    intro b p
    show p ∈ List.map _ _ ↔ p ∈ ht.LRU ++ [file] ∧ _
    rw [chain]
    by_cases hb : b = hash (files file).file_name
    · rw [if_pos hb, List.mem_append, List.mem_append, List.mem_singleton, h.bucket]
      constructor
      · rintro (⟨hp, hn⟩ | rfl)
        · exact ⟨.inl hp, hn⟩
        · exact ⟨.inr rfl, hb.symm⟩
      · rintro ⟨hp | rfl, hn⟩
        · exact .inl ⟨hp, hn⟩
        · exact .inr rfl
    · rw [if_neg hb, List.mem_append, List.mem_singleton, h.bucket]
      constructor
      · exact fun ⟨hp, hn⟩ => ⟨.inl hp, hn⟩
      · rintro ⟨hp | rfl, hn⟩
        · exact ⟨hp, hn⟩
        · exact absurd hn.symm hb
  case chain_nodup =>
    intro b
    show (List.map _ _).Nodup
    rw [chain]
    split
    · refine List.nodup_append.2 ⟨h.chain_nodup b, by simp, ?_⟩
      rintro p hp _ hq rfl
      rw [List.mem_singleton] at hq
      exact fresh (hq ▸ ((h.bucket b p).1 hp).1)
    · exact h.chain_nodup b
  case lru_nodup =>
    refine List.nodup_append.2 ⟨h.lru_nodup, by simp, ?_⟩
    rintro p hp _ hq rfl
    exact fresh (List.mem_singleton.1 hq ▸ hp)
  case names =>
    intro p hp q hq heq
    rw [List.mem_append, List.mem_singleton] at hp hq
    obtain hp | rfl := hp <;> obtain hq | rfl := hq
    · exact h.names p hp q hq heq
    · exact absurd heq (name p hp)
    · exact absurd heq.symm (name q hq)
    · rfl
  case size_nonneg =>
    intro p hp
    obtain hp | hp := List.mem_append.1 hp
    · exact h.size_nonneg p hp
    · exact List.mem_singleton.1 hp ▸ nonneg
  case available =>
    show ht.available_cache_size - _ = ht.cache_size - totalSize files (ht.LRU ++ [file])
    rw [h.available, totalSize_append, totalSize_cons, totalSize_nil]
    omega
  case available_nonneg =>
    show 0 ≤ ht.available_cache_size - _
    omega

/-- Deleting the least recently used file, not the first of several of its chain. -/
theorem delete (h : Rep files ht) {rest : List Nat} (lru : ht.LRU = p :: rest)
    (first : ¬ FirstOfSeveral p (ht.chain (hash (files p).file_name))) :
    ∃ ht', deleteEntry files { ht with
        available_cache_size := ht.available_cache_size + (files p).file_size
        LRU := rest } p = .ok ht' ∧
      Rep files ht' ∧ ht'.LRU = rest ∧ ht'.cache_size = ht.cache_size ∧
      ht'.available_cache_size = ht.available_cache_size + (files p).file_size ∧
      ∀ b, ht'.chain b = (ht.chain b).erase p := by
  have mem : p ∈ ht.LRU := by simp [lru]
  have nodup := h.lru_nodup
  rw [lru, List.nodup_cons] at nodup
  have del := deleteFrom_live (h.mem_chain mem) first
  rw [← h.table_eq] at del
  have chain : ∀ b, (Function.update ht.table (hash (files p).file_name)
      (live ((ht.chain (hash (files p).file_name)).erase p)) b).map Entry.data =
        (ht.chain b).erase p := by
    intro b
    by_cases hb : b = hash (files p).file_name
    · subst hb; simp
    · rw [Function.update_of_ne hb, List.erase_of_not_mem]
      · rfl
      · exact fun hp => hb ((h.bucket b p).1 hp).2.symm
  refine ⟨_, deleteEntry_ok del, ?_, rfl, rfl, rfl, chain⟩
  have sub : ∀ q ∈ rest, q ∈ ht.LRU := fun q hq => by simp [lru, hq]
  constructor
  case inUse =>
    intro b e he
    by_cases hb : b = hash (files p).file_name
    · subst hb
      simp only [Function.update_self, live, List.mem_map] at he
      obtain ⟨_, -, rfl⟩ := he
      rfl
    · simp only [Function.update_of_ne hb] at he
      exact h.inUse b e he
  case bucket =>
    intro b q
    show q ∈ List.map _ _ ↔ q ∈ rest ∧ _
    rw [chain, (h.chain_nodup b).mem_erase_iff, h.bucket, lru, List.mem_cons]
    constructor
    · exact fun ⟨hne, hq, hn⟩ => ⟨hq.resolve_left hne, hn⟩
    · rintro ⟨hq, hn⟩
      exact ⟨fun heq => nodup.1 (heq ▸ hq), .inr hq, hn⟩
  case chain_nodup =>
    intro b
    show (List.map _ _).Nodup
    rw [chain]
    exact (h.chain_nodup b).erase p
  case lru_nodup => exact nodup.2
  case names => exact fun q hq r hr => h.names q (sub q hq) r (sub r hr)
  case size_nonneg => exact fun q hq => h.size_nonneg q (sub q hq)
  case available =>
    show ht.available_cache_size + _ = ht.cache_size - totalSize files rest
    rw [h.available, lru, totalSize_cons]
    omega
  case available_nonneg =>
    have := h.size_nonneg p mem
    have := h.available_nonneg
    show 0 ≤ ht.available_cache_size + _
    omega

end Rep

/-- No file evicted to make room for `size` is, when its turn comes, the first of several of its
bucket chain: the `i`-th file of the list is evicted if the `i` before it free too little. -/
def CleanEviction (files : Files) (ht : Hashtable) (size : Int) : Prop :=
  ∀ i p, ht.LRU[i]? = some p →
    ht.available_cache_size + totalSize files (ht.LRU.take i) < size →
      ¬ FirstOfSeveral p
        ((ht.chain (hash (files p).file_name)).filter fun q => q ∉ ht.LRU.take i)

theorem CleanEviction.head {rest : List Nat} (h : CleanEviction files ht size)
    (lru : ht.LRU = p :: rest) (short : ht.available_cache_size < size) :
    ¬ FirstOfSeveral p (ht.chain (hash (files p).file_name)) := by
  simpa using h 0 p (by simp [lru]) (by simpa using short)

/-- After the first eviction the condition speaks of the remaining ones. -/
theorem CleanEviction.tail {rest : List Nat} (rep : Rep files ht)
    (h : CleanEviction files ht size) (lru : ht.LRU = p :: rest) (lru' : ht'.LRU = rest)
    (available : ht'.available_cache_size = ht.available_cache_size + (files p).file_size)
    (chain : ∀ b, ht'.chain b = (ht.chain b).erase p) : CleanEviction files ht' size := by
  intro i q hq short
  have next := h (i + 1) q (by simpa [lru, lru'] using hq)
    (by rw [lru, List.take_succ_cons, totalSize_cons]; rw [lru', available] at short; omega)
  rw [chain, (rep.chain_nodup _).erase_eq_filter, List.filter_filter]
  rw [lru, List.take_succ_cons] at next
  convert next using 3
  funext r
  simp only [lru', List.mem_cons, not_or, Bool.decide_and]
  rw [Bool.and_comm]
  congr 1
  by_cases hr : r = p <;> simp [hr]

/-- Evicting until a size that the cache can hold is free. -/
theorem Rep.evict (h : Rep files ht) (clean : CleanEviction files ht size)
    (le : size ≤ ht.cache_size) :
    ∃ ht' k, cacheEvict files ht size = .ok ht' ∧ Rep files ht' ∧
      ht'.LRU = ht.LRU.drop k ∧ ht'.cache_size = ht.cache_size ∧
      size ≤ ht'.available_cache_size := by
  rw [cacheEvict]
  generalize lru : ht.LRU = l
  induction l generalizing ht with
  | nil =>
    have available := h.available
    rw [lru, totalSize_nil, sub_zero] at available
    exact ⟨ht, 0, by rw [evictFrom, if_neg (by omega)], h, by simp [lru], rfl, by omega⟩
  | cons p rest ih =>
    by_cases short : ht.available_cache_size < size
    · obtain ⟨ht₁, del, rep, lru₁, cache₁, available₁, chain₁⟩ :=
        h.delete lru (clean.head lru short)
      obtain ⟨ht', k, run, rep', lru', cache', room⟩ :=
        ih rep (clean.tail h lru lru₁ available₁ chain₁) (by omega) lru₁
      exact ⟨ht', k + 1, by rw [evictFrom, if_pos short, del]; exact run, rep',
        by simpa using lru', by omega, room⟩
    · exact ⟨ht, 0, by rw [evictFrom, if_neg short], h, by simp [lru], rfl, by omega⟩

/-- The evictions that inserting `file` asks for are clean. It asks for none when its name is
cached or it is too large. -/
def CleanInsert (files : Files) (ht : Hashtable) (file : Nat) : Prop :=
  (∀ q ∈ ht.LRU, (files q).file_name ≠ (files file).file_name) →
    2 * (files file).file_size ≤ ht.cache_size →
      CleanEviction files ht (files file).file_size

instance : Decidable (CleanEviction files ht size) :=
  decidable_of_iff (∀ i, (h : i < ht.LRU.length) →
    ht.available_cache_size + totalSize files (ht.LRU.take i) < size →
      ¬ FirstOfSeveral ht.LRU[i]
        ((ht.chain (hash (files ht.LRU[i]).file_name)).filter fun q => q ∉ ht.LRU.take i)) (by
    simp only [CleanEviction, List.getElem?_eq_some_iff]
    exact ⟨fun h i p ⟨hi, heq⟩ => heq ▸ h i hi, fun h i hi => h i _ ⟨hi, rfl⟩⟩)

instance : Decidable (CleanInsert files ht file) :=
  inferInstanceAs (Decidable (_ → _ → _))

/-- The second locked section of a request: nothing changes, or the file is put at the end of the
list after files at its front were evicted. -/
theorem Rep.insertSection (h : Rep files ht) (fresh : file ∉ ht.LRU)
    (nonneg : 0 ≤ (files file).file_size) (clean : CleanInsert files ht file) :
    ∃ ht', Webserver.insertSection files ht file = .ok ht' ∧ Rep files ht' ∧
      ht'.cache_size = ht.cache_size ∧
      (ht' = ht ∨ (∀ q ∈ ht.LRU, (files q).file_name ≠ (files file).file_name) ∧
        ∃ k, ht'.LRU = ht.LRU.drop k ++ [file]) := by
  obtain ⟨r, l, look, -, same, found⟩ := h.lookup (files file).file_name 1
  rw [same (.inl Nat.one_ne_zero)] at look
  rw [Webserver.insertSection, look]
  cases r with
  | some p => exact ⟨ht, rfl, h, rfl, .inl rfl⟩
  | none =>
    have name : ∀ q ∈ ht.LRU, (files q).file_name ≠ (files file).file_name :=
      fun q hq heq => nomatch (found q).2 ⟨hq, heq⟩
    show ∃ ht', cacheInsert files ht file = .ok ht' ∧ _
    rw [cacheInsert]
    split
    case isTrue => exact ⟨ht, rfl, h, rfl, .inl rfl⟩
    case isFalse large =>
      split
      case isTrue short =>
        obtain ⟨ht₁, k, run, rep, lru, cache, room⟩ :=
          h.evict (clean name (by omega)) (by omega)
        rw [run]
        have sub : ∀ q ∈ ht₁.LRU, q ∈ ht.LRU := fun q hq =>
          List.mem_of_mem_drop (lru ▸ hq)
        obtain ⟨ht', run', rep', lru', cache'⟩ := rep.insertHt (fun hf => fresh (sub _ hf))
          (fun q hq => name q (sub q hq)) nonneg room
        exact ⟨ht', run', rep', cache'.trans cache, .inr ⟨name, k, by rw [lru', lru]⟩⟩
      case isFalse room =>
        obtain ⟨ht', run', rep', lru', cache'⟩ := h.insertHt fresh name nonneg (by omega)
        exact ⟨ht', run', rep', cache', .inr ⟨name, 0, by simpa using lru'⟩⟩

theorem cacheInit_rep {max_cache_size : Int} (h : 0 ≤ max_cache_size) :
    Rep files (cacheInit max_cache_size) := by
  constructor <;> simp [cacheInit, Hashtable.chain, h]

end Ece344Lab.Webserver
