import Ece344Lab.Library.Runs
import Ece344Lab.Webserver.CacheInvariant

/-!
# Runs of the file cache

Any number of workers share the cache. A request makes a `file_data` with the requested name and
looks it up; when it finds nothing, it reads the file and later, after any steps of other
requests, looks the name up again and inserts its own data. Each locked section is one step.
-/
namespace Ece344Lab.Webserver

open Library (System)
open Library.System (Run)

/-- The cache and the requests between their two sections, by the address of their data. -/
structure CacheState where
  files : Files
  next : Nat
  pending : List Nat
  ht : Hashtable

inductive CacheEvent where
  | lookup (name : Bytes)
  | insert (file : Nat) (buf : Bytes) (size : Int) (evicted : List Nat)

/-- `file_data_init` and `request_init`: new data with the requested name. -/
def CacheState.alloc (s : CacheState) (name : Bytes) : Files :=
  Function.update s.files s.next ⟨name, [], 0⟩

/-- `request_readfile` fills the data of a request. -/
def CacheState.fill (s : CacheState) (file : Nat) (buf : Bytes) (size : Int) : Files :=
  Function.update s.files file ⟨(s.files file).file_name, buf, size⟩

/-- The files that a step took out of the cache. -/
def evictedFrom (ht ht' : Hashtable) : List Nat := ht.LRU.filter fun p => p ∉ ht'.LRU

inductive CacheState.Step (s : CacheState) : CacheEvent → CacheState → Prop where
  | lookup {name : Bytes} {r : Option Nat} {ht' : Hashtable}
      (run : cacheLookup (s.alloc name) s.ht name 0 = .ok (r, ht')) :
      Step s (.lookup name) ⟨s.alloc name, s.next + 1,
        if r.isNone then s.next :: s.pending else s.pending, ht'⟩
  | insert {file : Nat} {buf : Bytes} {size : Int} {ht' : Hashtable} (h : file ∈ s.pending)
      (nonneg : 0 ≤ size) (run : insertSection (s.fill file buf size) s.ht file = .ok ht') :
      Step s (.insert file buf size (evictedFrom s.ht ht'))
        ⟨s.fill file buf size, s.next, s.pending.erase file, ht'⟩

theorem CacheState.Step.miss {s : CacheState} {name : Bytes} {ht' : Hashtable}
    (run : cacheLookup (s.alloc name) s.ht name 0 = .ok (none, ht')) :
    s.Step (.lookup name) ⟨s.alloc name, s.next + 1, s.next :: s.pending, ht'⟩ :=
  .lookup run

theorem CacheState.Step.inserted {s s' : CacheState} {file : Nat} {buf : Bytes} {size : Int}
    {victims : List Nat} (h : file ∈ s.pending) (nonneg : 0 ≤ size)
    (run : insertSection (s.fill file buf size) s.ht file = .ok s'.ht)
    (eq : s' = ⟨s.fill file buf size, s.next, s.pending.erase file, s'.ht⟩)
    (out : evictedFrom s.ht s'.ht = victims) : s.Step (.insert file buf size victims) s' := by
  rw [← out, eq]
  exact .insert h nonneg run

/-- The cache from `server_init` on. -/
def cacheSystem (max_cache_size : Int) : System CacheState CacheEvent where
  start s := ∃ files, s = ⟨files, 0, [], cacheInit max_cache_size⟩
  step := CacheState.Step

/-- The files evicted so far. -/
def evicted (es : List CacheEvent) : List Nat :=
  es.flatMap fun | .insert _ _ _ victims => victims | .lookup _ => []

/-- The step's evictions delete no file that is the first of several of its bucket chain. -/
def CleanStep (s : CacheState) : CacheEvent → Prop
  | .insert file buf size _ => CleanInsert (s.fill file buf size) s.ht file
  | .lookup _ => True

/-- What holds of a cache after the events `es`: its representation, that no lookup faults, that
an insertion with clean evictions does not fault, and that no lookup finds an evicted file. -/
structure CacheSound (es : List CacheEvent) (s : CacheState) : Prop where
  rep : Rep s.files s.ht
  lookup_ok : ∀ name time, ∃ r, cacheLookup s.files s.ht name time = .ok r
  insert_ok : ∀ file ∈ s.pending, ∀ buf size, 0 ≤ size →
    CleanInsert (s.fill file buf size) s.ht file →
      ∃ ht', insertSection (s.fill file buf size) s.ht file = .ok ht'
  not_found : ∀ file ∈ evicted es, ∀ name time ht',
    cacheLookup s.files s.ht name time ≠ .ok (some file, ht')

/-- The run invariant. The data of pending requests and of evicted files are not cached. -/
structure CacheInv (es : List CacheEvent) (s : CacheState) : Prop where
  rep : Rep s.files s.ht
  cached : ∀ p ∈ s.ht.LRU, p < s.next ∧ p ∉ s.pending
  pending_lt : ∀ p ∈ s.pending, p < s.next
  pending_nodup : s.pending.Nodup
  gone : ∀ p ∈ evicted es, p < s.next ∧ p ∉ s.ht.LRU ∧ p ∉ s.pending

namespace CacheInv

variable {es : List CacheEvent} {s s' : CacheState} {file : Nat} {buf : Bytes} {size : Int}

theorem alloc_rep (h : CacheInv es s) (name : Bytes) : Rep (s.alloc name) s.ht :=
  h.rep.congr fun _ hp => Function.update_of_ne (Nat.ne_of_lt (h.cached _ hp).1) _ _

theorem fill_rep (h : CacheInv es s) (hf : file ∈ s.pending) :
    Rep (s.fill file buf size) s.ht :=
  h.rep.congr fun _ hp =>
    Function.update_of_ne (fun heq => (h.cached _ hp).2 (by rwa [heq])) _ _

theorem insert (h : CacheInv es s) (hf : file ∈ s.pending) (nonneg : 0 ≤ size)
    (clean : CleanInsert (s.fill file buf size) s.ht file) :
    ∃ ht', insertSection (s.fill file buf size) s.ht file = .ok ht' ∧
      Rep (s.fill file buf size) ht' ∧ ∀ p ∈ ht'.LRU, p ∈ s.ht.LRU ∨ p = file := by
  obtain ⟨ht', run, rep, -, same | ⟨-, k, lru⟩⟩ := (h.fill_rep hf).insertSection
    (fun hc => (h.cached _ hc).2 hf) (by simpa [CacheState.fill] using nonneg) clean
  · exact ⟨ht', run, rep, fun p hp => .inl (same ▸ hp)⟩
  · refine ⟨ht', run, rep, fun p hp => ?_⟩
    rw [lru, List.mem_append, List.mem_singleton] at hp
    exact hp.imp List.mem_of_mem_drop id

theorem step {e : CacheEvent} (h : CacheInv es s) (step : s.Step e s') (clean : CleanStep s e) :
    CacheInv (es ++ [e]) s' := by
  cases step with
  | @lookup name r ht' run =>
    obtain ⟨r', l, run', perm, -⟩ := (h.alloc_rep name).lookup name 0
    obtain ⟨rfl, rfl⟩ := Prod.mk.inj (Except.ok.inj (run'.symm.trans run))
    have gone : evicted (es ++ [.lookup name]) = evicted es := by simp [evicted]
    have old : ∀ p, p < s.next → p ∉ s.pending →
        p ∉ if r'.isNone then s.next :: s.pending else s.pending := by
      intro p hlt hp
      split
      · simp [Nat.ne_of_lt hlt, hp]
      · exact hp
    constructor
    case rep => exact (h.alloc_rep name).lru_perm perm
    case cached =>
      intro p hp
      obtain ⟨hlt, hnp⟩ := h.cached p (perm.mem_iff.1 hp)
      exact ⟨Nat.lt_succ_of_lt hlt, old p hlt hnp⟩
    case pending_lt =>
      intro p hp
      show p < s.next + 1
      simp only at hp
      split at hp
      · obtain rfl | hp := List.mem_cons.1 hp
        · exact Nat.lt_succ_self _
        · exact Nat.lt_succ_of_lt (h.pending_lt p hp)
      · exact Nat.lt_succ_of_lt (h.pending_lt p hp)
    case pending_nodup =>
      show (if _ then _ else _ : List Nat).Nodup
      split
      · exact List.nodup_cons.2 ⟨fun hn => Nat.lt_irrefl _ (h.pending_lt _ hn), h.pending_nodup⟩
      · exact h.pending_nodup
    case gone =>
      intro p hp
      obtain ⟨hlt, hc, hnp⟩ := h.gone p (gone ▸ hp)
      exact ⟨Nat.lt_succ_of_lt hlt, mt perm.mem_iff.1 hc, old p hlt hnp⟩
  | @insert file buf size ht' hf nonneg run =>
    obtain ⟨_, run', rep, cached⟩ := h.insert hf nonneg clean
    obtain rfl := Except.ok.inj (run'.symm.trans run)
    have pending_sub : ∀ p, p ∉ s.pending → p ∉ s.pending.erase file :=
      fun p => mt List.mem_of_mem_erase
    have file_gone : file ∉ s.pending.erase file := h.pending_nodup.not_mem_erase
    constructor
    case rep => exact rep
    case cached =>
      intro p hp
      obtain hp | rfl := cached p hp
      · exact ⟨(h.cached p hp).1, pending_sub p (h.cached p hp).2⟩
      · exact ⟨h.pending_lt p hf, file_gone⟩
    case pending_lt => exact fun p hp => h.pending_lt p (List.mem_of_mem_erase hp)
    case pending_nodup => exact h.pending_nodup.erase file
    case gone =>
      intro p hp
      simp only [evicted, List.flatMap_append, List.mem_append] at hp
      obtain hp | hp := hp
      · obtain ⟨hlt, hc, hnp⟩ := h.gone p hp
        exact ⟨hlt, fun hp' => (cached p hp').elim hc fun heq => hnp (heq ▸ hf),
          pending_sub p hnp⟩
      · simp only [List.flatMap_cons, List.flatMap_nil, List.append_nil, evictedFrom,
          List.mem_filter, decide_eq_true_eq] at hp
        exact ⟨(h.cached p hp.1).1, hp.2, pending_sub p (h.cached p hp.1).2⟩

theorem sound (h : CacheInv es s) : CacheSound es s where
  rep := h.rep
  lookup_ok name time := by
    obtain ⟨r, l, run, -⟩ := h.rep.lookup name time
    exact ⟨_, run⟩
  insert_ok file hf buf size nonneg clean := by
    obtain ⟨ht', run, -⟩ := h.insert hf nonneg clean
    exact ⟨ht', run⟩
  not_found file hf name time ht' run := by
    obtain ⟨r, l, run', -, -, found⟩ := h.rep.lookup name time
    obtain ⟨rfl, -⟩ := Prod.mk.inj (Except.ok.inj (run'.symm.trans run))
    exact (h.gone file hf).2.1 ((found file).1 rfl).1

end CacheInv

/-- In every run whose evictions delete no file that is the first of several of its bucket
chain, the cache is sound in every state. -/
theorem cacheSound_of_clean {max_cache_size : Int} (hpos : 0 < max_cache_size)
    {es : List CacheEvent} {s : CacheState}
    (run : ((cacheSystem max_cache_size).restrict CleanStep).Run es s) : CacheSound es s := by
  refine (run.invariant (I := CacheInv) ?_
    fun _ s _ s' h (step : s.Step _ s' ∧ CleanStep s _) => h.step step.1 step.2).sound
  rintro _ ⟨files, rfl⟩
  exact ⟨cacheInit_rep (Int.le_of_lt hpos), by simp [cacheInit], by simp, by simp, by simp [evicted]⟩

section Samples

variable {n₀ n₁ n₂ : Bytes}

/-- Two files of 2 bytes in one bucket fill a cache of size 4. -/
def twoFiles (n₀ n₁ : Bytes) : CacheState where
  files := Function.update (Function.update (fun _ => ⟨[], [], 0⟩) 0 ⟨n₀, [1, 2], 2⟩) 1 ⟨n₁, [3, 4], 2⟩
  next := 2
  pending := []
  ht := ⟨4, 0, [0, 1], Function.update (fun _ => []) (hash n₀) [⟨0, false⟩, ⟨1, false⟩]⟩

theorem twoFiles_run (h01 : n₀ ≠ n₁) (collide : hash n₁ = hash n₀) :
    ((cacheSystem 4).restrict CleanStep).Run
      [.lookup n₀, .insert 0 [1, 2] 2 [], .lookup n₁, .insert 1 [3, 4] 2 []] (twoFiles n₀ n₁) := by
  let s₀ : CacheState := ⟨fun _ => ⟨[], [], 0⟩, 0, [], cacheInit 4⟩
  let s₁ : CacheState := ⟨s₀.alloc n₀, 1, [0], cacheInit 4⟩
  let t₂ : Nat → List Entry := Function.update (fun _ => []) (hash n₀) [⟨0, false⟩]
  let s₂ : CacheState := ⟨s₁.fill 0 [1, 2] 2, 1, [], ⟨4, 2, [0], t₂⟩⟩
  let s₃ : CacheState := ⟨s₂.alloc n₁, 2, [1], s₂.ht⟩
  have step₁ : s₀.Step (.lookup n₀) s₁ := .miss rfl
  have step₂ : s₁.Step (.insert 0 [1, 2] 2 []) s₂ := .inserted (by simp [s₁]) (by decide) (by
    simp [s₀, s₁, s₂, t₂, insertSection, cacheLookup, findName, cacheInsert, cacheInit,
      CacheState.alloc, CacheState.fill, cacheInsertHt, appendEntry, updateLRU]) rfl rfl
  have step₃ : s₂.Step (.lookup n₁) s₃ := .miss (by
    simp [s₀, s₁, s₂, t₂, cacheLookup, findName, collide, CacheState.alloc, CacheState.fill, h01])
  have step₄ : s₃.Step (.insert 1 [3, 4] 2 []) (twoFiles n₀ n₁) := .inserted (by simp [s₃])
    (by decide) (by
      simp [s₀, s₁, s₂, s₃, twoFiles, t₂, insertSection, cacheLookup, findName, cacheInsert,
        CacheState.alloc, CacheState.fill, cacheInsertHt, appendEntry, updateLRU, collide, h01])
    (by simp [s₀, s₁, s₂, s₃, twoFiles, CacheState.alloc, CacheState.fill]) rfl
  have clean₂ : CleanStep s₁ (.insert 0 [1, 2] 2 []) := fun _ _ i p hp => by
    simp [s₁, cacheInit] at hp
  have clean₄ : CleanStep s₃ (.insert 1 [3, 4] 2 []) := by
    intro _ _ i p hp short
    cases i with
    | zero => simp [s₃, s₂, CacheState.fill] at short
    | succ i => simp [s₃, s₂] at hp
  exact ((((Run.start (T := (cacheSystem 4).restrict CleanStep) ⟨_, rfl⟩).next
    ⟨step₁, trivial⟩).next ⟨step₂, clean₂⟩).next ⟨step₃, trivial⟩).next ⟨step₄, clean₄⟩

/-- The second file has become the least recently used. Its eviction unlinks it from behind the
first. -/
theorem evicted_run (h01 : n₀ ≠ n₁) (collide : hash n₁ = hash n₀) (apart : hash n₂ ≠ hash n₀) :
    ∃ s, ((cacheSystem 4).restrict CleanStep).Run
        [.lookup n₀, .insert 0 [1, 2] 2 [], .lookup n₁, .insert 1 [3, 4] 2 [], .lookup n₀,
          .lookup n₂, .insert 3 [5, 6] 2 [1]] s ∧ s.ht.LRU = [0, 3] := by
  let s₄ := twoFiles n₀ n₁
  let s₅ : CacheState := ⟨s₄.alloc n₀, 3, [], { s₄.ht with LRU := [1, 0] }⟩
  let s₆ : CacheState := ⟨s₅.alloc n₂, 4, [3], s₅.ht⟩
  let t₇ : Nat → List Entry := Function.update (Function.update s₄.ht.table (hash n₀) [⟨0, false⟩])
    (hash n₂) [⟨3, false⟩]
  let s₇ : CacheState := ⟨s₆.fill 3 [5, 6] 2, 4, [], ⟨4, 0, [0, 3], t₇⟩⟩
  have step₅ : s₄.Step (.lookup n₀) s₅ := .lookup (r := some 0) (by
    simp [s₄, twoFiles, cacheLookup, findName, CacheState.alloc, updateLRU])
  have step₆ : s₅.Step (.lookup n₂) s₆ := .miss (by
    simp [s₄, s₅, twoFiles, cacheLookup, findName, apart])
  have step₇ : s₆.Step (.insert 3 [5, 6] 2 [1]) s₇ := .inserted (by simp [s₆]) (by decide) (by
    simp [s₄, s₅, s₆, s₇, t₇, twoFiles, insertSection, cacheLookup, findName, cacheInsert,
      CacheState.alloc, CacheState.fill, cacheInsertHt, appendEntry, updateLRU, cacheEvict,
      evictFrom, deleteEntry, deleteFrom, unlinkBehind, apart, collide]) rfl rfl
  have clean₇ : CleanStep s₆ (.insert 3 [5, 6] 2 [1]) := by
    intro _ _ i p hp short
    cases i with
    | zero =>
      have hp : 1 = p := Option.some.inj hp
      simp [← hp, s₄, s₅, s₆, twoFiles, FirstOfSeveral, Hashtable.chain, CacheState.alloc,
        CacheState.fill, collide]
    | succ i =>
      cases i with
      | zero => simp [s₄, s₅, s₆, twoFiles, CacheState.alloc, CacheState.fill] at short
      | succ i => simp [s₅, s₆] at hp
  exact ⟨s₇, (((twoFiles_run h01 collide).next ⟨step₅, trivial⟩).next ⟨step₆, trivial⟩).next
    ⟨step₇, clean₇⟩, rfl⟩

/-- The names are "./ab", "./bA", with one hash, and "./c". -/
theorem cacheSound_evicted : ∃ es s, s.ht.LRU = [0, 3] ∧ evicted es = [1] ∧ CacheSound es s := by
  obtain ⟨s, run, lru⟩ := evicted_run (show [46, 47, 97, 98] ≠ [46, 47, 98, 65] by decide)
    (by decide) (show hash [46, 47, 99] ≠ _ by decide)
  exact ⟨_, s, lru, rfl, cacheSound_of_clean (by decide) run⟩

/-- When the first file is evicted instead, its freed entry stays in the chain. -/
theorem freed_entry_run (h01 : n₀ ≠ n₁) (collide : hash n₁ = hash n₀) (apart : hash n₂ ≠ hash n₀) :
    ∃ s, (cacheSystem 4).Run
        [.lookup n₀, .insert 0 [1, 2] 2 [], .lookup n₁, .insert 1 [3, 4] 2 [],
          .lookup n₂, .insert 2 [5, 6] 2 [0]] s ∧
      s.ht.table (hash n₀) = [⟨0, true⟩, ⟨1, false⟩] := by
  let s₄ := twoFiles n₀ n₁
  let s₅ : CacheState := ⟨s₄.alloc n₂, 3, [2], s₄.ht⟩
  let t₆ : Nat → List Entry := Function.update
    (Function.update s₄.ht.table (hash n₀) [⟨0, true⟩, ⟨1, false⟩]) (hash n₂) [⟨2, false⟩]
  let s₆ : CacheState := ⟨s₅.fill 2 [5, 6] 2, 3, [], ⟨4, 0, [1, 2], t₆⟩⟩
  have step₅ : s₄.Step (.lookup n₂) s₅ := .miss (by
    simp [s₄, twoFiles, cacheLookup, findName, apart])
  have step₆ : s₅.Step (.insert 2 [5, 6] 2 [0]) s₆ := .inserted (by simp [s₅]) (by decide) (by
    simp [s₄, s₅, s₆, t₆, twoFiles, insertSection, cacheLookup, findName, cacheInsert,
      CacheState.alloc, CacheState.fill, cacheInsertHt, appendEntry, updateLRU, cacheEvict,
      evictFrom, deleteEntry, deleteFrom, apart]) rfl rfl
  refine ⟨s₆, ((twoFiles_run h01 collide).unrestrict.next step₅).next step₆, ?_⟩
  simp [s₆, t₆, Function.update_of_ne apart.symm]

/-- With the same names. -/
theorem freed_entry_reached :
    ¬ ∀ es s, (cacheSystem 4).Run es s → CacheSound es s := by
  intro h
  obtain ⟨s, run, table⟩ := freed_entry_run (show [46, 47, 97, 98] ≠ [46, 47, 98, 65] by decide)
    (by decide) (show hash [46, 47, 99] ≠ _ by decide)
  simpa using (h _ s run).rep.inUse _ ⟨0, true⟩ (by rw [table]; simp)

end Samples

end Ece344Lab.Webserver
