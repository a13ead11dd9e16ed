import Ece344Lab.Library.Program
import Ece344Lab.Webserver.CacheInvariant
import Ece344Lab.Webserver.Request

/-!
# The cache and what clients see

With files that do not change, the cached data of a name is what `request_readfile` would produce
for it, also when it refused the name. The response to a cached name is therefore the response
without a cache, less the error page that a refusal would send.
-/
namespace Ece344Lab.Webserver

open Library.Program (except_ok_bind)

variable {os : Os} {max_cache_size : Int} {s s' : ServerState} {rq : Request} {data data' : FileData}
  {page out : List Chunk} {fault : Fault}

/-- The connections' bytes when the requests are handled one after another. -/
def serveAll (os : Os) (max_cache_size : Int) : ServerState → List Request →
    Except Fault (List Bytes)
  | _, [] => .ok []
  | s, rq :: rqs => do
    let (s', out) ← doServerRequest os max_cache_size s rq
    let outs ← serveAll os max_cache_size s' rqs
    .ok (out.flatMap Chunk.bytes :: outs)

/-- The server as `server_init` leaves it. -/
def serverStart (files : Files) (max_cache_size : Int) : ServerState :=
  ⟨files, 0, cacheInit max_cache_size⟩

/-- The request, if it is a `GET`, names no cached file that `request_readfile` refuses, and what it
inserts evicts no file that is the first of several of its bucket chain. -/
structure CleanRequest (os : Os) (s : ServerState) (rq : Request) : Prop where
  served : strcaseeq rq.method (ascii "GET") → ∀ p ∈ s.ht.LRU,
    (s.files p).file_name = (requestData rq).file_name → refusal os (requestData rq).file_name = none
  insert : strcaseeq rq.method (ascii "GET") → ∀ data' page,
    requestReadfile os (requestData rq) = .ok (data', page) →
      CleanInsert (Function.update s.files s.next data') s.ht s.next

/-- Every request of the run is clean in the state in which it is handled. -/
def CleanRun (os : Os) (max_cache_size : Int) : ServerState → List Request → Prop
  | _, [] => True
  | s, rq :: rqs => CleanRequest os s rq ∧
      ∀ s' out, doServerRequest os max_cache_size s rq = .ok (s', out) →
        CleanRun os max_cache_size s' rqs

section Decide

/-- What holds of the result of a computation, if there is one. -/
instance decidableOk {α β ε : Type} {P : α → β → Prop} [∀ a b, Decidable (P a b)] :
    ∀ x : Except ε (α × β), Decidable (∀ a b, x = .ok (a, b) → P a b)
  | .error _ => isTrue nofun
  | .ok (a, b) =>
    decidable_of_iff (P a b) ⟨fun h _ _ heq => by cases heq; exact h, fun h => h a b rfl⟩

instance decidableCleanRequest : Decidable (CleanRequest os s rq) :=
  decidable_of_iff (_ ∧ _) ⟨fun h => ⟨h.1, h.2⟩, fun h => ⟨h.served, h.insert⟩⟩

instance decidableCleanRun : ∀ rqs s, Decidable (CleanRun os max_cache_size s rqs)
  | [], _ => isTrue trivial
  | rq :: rqs, s =>
    have := decidableCleanRun rqs
    inferInstanceAs (Decidable (CleanRequest os s rq ∧ ∀ s' out,
      doServerRequest os max_cache_size s rq = .ok (s', out) → CleanRun os max_cache_size s' rqs))

end Decide

section Readfile

theorem refusal_eq_none (h : refusal os data.file_name = none) :
    ∃ stat, os data.file_name = some stat ∧
      requestReadfile os data = (readContent stat data).map (·, []) := by
  cases stat : os data.file_name with
  | none =>
    simp only [refusal, stat] at h
    split_ifs at h
  | some stat' =>
    refine ⟨stat', rfl, ?_⟩
    rw [requestReadfile, h]
    simp only [stat]
    generalize readContent stat' data = r
    cases r <;> rfl

/-- Data that was read has its size and, up to the size, its content; the size is not negative. -/
theorem readContent_ok {stat : Stat} (h : readContent stat data = .ok data') :
    data'.file_name = data.file_name ∧ data'.file_size = wrap stat.content.length ∧
      0 ≤ data'.file_size ∧
      (0 < data'.file_size → data'.file_buf = stat.content.take data'.file_size.toNat) := by
  rw [readContent] at h
  split at h
  case isTrue zero =>
    cases h
    refine ⟨rfl, rfl, zero.ge, fun pos => ?_⟩
    rw [zero] at pos
    exact absurd pos (lt_irrefl 0)
  case isFalse nonzero =>
    split at h
    · cases h
    case isFalse ok =>
      cases h
      simp only [Bool.or_eq_true, decide_eq_true_eq, not_or] at ok
      exact ⟨rfl, rfl, not_lt.1 ok.2, fun _ => by dsimp only⟩

theorem requestReadfile_ok (h : requestReadfile os data = .ok (data', page)) :
    data'.file_name = data.file_name ∧
      (refusal os data.file_name = none → page = [] ∧ 0 ≤ data'.file_size) ∧
      (refusal os data.file_name ≠ none → data' = data) := by
  cases hr : refusal os data.file_name with
  | none =>
    obtain ⟨stat, -, run⟩ := refusal_eq_none hr
    rw [run] at h
    cases hc : readContent stat data with
    | error _ => rw [hc] at h; cases h
    | ok d =>
      rw [hc] at h
      cases h
      obtain ⟨name, -, nonneg, -⟩ := readContent_ok hc
      exact ⟨name, fun _ => ⟨rfl, nonneg⟩, fun hne => absurd rfl hne⟩
  | some texts =>
    obtain ⟨errnum, shortmsg, longmsg⟩ := texts
    rw [requestReadfile, hr] at h
    simp only at h
    cases he : requestError data.file_name errnum shortmsg longmsg with
    | error _ => rw [he] at h; cases h
    | ok _ =>
      rw [he] at h
      cases h
      exact ⟨rfl, nofun, fun _ => rfl⟩

theorem requestReadfile_nonneg (h : requestReadfile os (requestData rq) = .ok (data', page)) :
    0 ≤ data'.file_size := by
  obtain ⟨-, ok, same⟩ := requestReadfile_ok h
  by_cases hr : refusal os (requestData rq).file_name = none
  · exact (ok hr).2
  · rw [same hr]
    exact le_refl _

end Readfile

/-- The response of `do_server_request` without a cache. -/
def respond (os : Os) (rq : Request) : Except Fault (List Chunk) :=
  if !strcaseeq rq.method (ascii "GET") then
    requestError rq.method (ascii "501") (ascii "Not Implemented")
      (ascii "OS Web Server does not implement this method")
  else do
    let (data', page) ← requestReadfile os (requestData rq)
    .ok (page ++ requestSendfile data')

/-- Without a cache the response does not depend on the requests before. -/
theorem uncached_ok (h : respond os rq = .ok out) :
    ∃ s', doServerRequest os 0 s rq = .ok (s', out) := by
  rw [respond] at h
  rw [doServerRequest]
  split at h
  case isTrue method => exact ⟨s, by rw [if_pos method, h]; rfl⟩
  case isFalse method =>
    cases hr : requestReadfile os (requestData rq) with
    | error _ => rw [hr] at h; cases h
    | ok r =>
      rw [hr] at h
      cases h
      exact ⟨_, by simp only [if_neg method, hr]; rfl⟩

theorem uncached_error (h : respond os rq = .error fault) :
    doServerRequest os 0 s rq = .error fault := by
  rw [respond] at h
  rw [doServerRequest]
  split at h
  case isTrue method => rw [if_pos method, h]; rfl
  case isFalse method =>
    cases hr : requestReadfile os (requestData rq) with
    | error _ =>
      rw [hr] at h
      cases h
      simp only [if_neg method, hr]
      rfl
    | ok r => rw [hr] at h; cases h

/-- The run invariant: cached data is what `request_readfile` makes of its name. -/
structure ServedInv (os : Os) (s : ServerState) : Prop where
  rep : Rep s.files s.ht
  read : ∀ p ∈ s.ht.LRU, p < s.next ∧
    ∃ page, requestReadfile os ⟨(s.files p).file_name, [], 0⟩ = .ok (s.files p, page)

namespace ServedInv

theorem alloc_rep (h : ServedInv os s) (data : FileData) :
    Rep (Function.update s.files s.next data) s.ht :=
  h.rep.congr fun _ hp => Function.update_of_ne (Nat.ne_of_lt (h.read _ hp).1) _ _

theorem update_of_cached (h : ServedInv os s) {p : Nat} (hp : p ∈ s.ht.LRU) (data : FileData) :
    Function.update s.files s.next data p = s.files p :=
  Function.update_of_ne (Nat.ne_of_lt (h.read p hp).1) _ _

theorem read_update (h : ServedInv os s) {p : Nat} (hp : p ∈ s.ht.LRU) (data : FileData) :
    p < s.next + 1 ∧ ∃ page, requestReadfile os
      ⟨(Function.update s.files s.next data p).file_name, [], 0⟩ =
        .ok (Function.update s.files s.next data p, page) := by
  rw [h.update_of_cached hp]
  exact ⟨Nat.lt_succ_of_lt (h.read p hp).1, (h.read p hp).2⟩

/-- A clean request is answered as without a cache. -/
theorem request (h : ServedInv os s) (hpos : 0 < max_cache_size) (clean : CleanRequest os s rq) :
    (∀ fault, respond os rq = .error fault →
      doServerRequest os max_cache_size s rq = .error fault) ∧
    ∀ out, respond os rq = .ok out →
      ∃ s', doServerRequest os max_cache_size s rq = .ok (s', out) ∧ ServedInv os s' := by
  rw [respond, doServerRequest]
  by_cases method : (!strcaseeq rq.method (ascii "GET")) = true
  · simp only [if_pos method]
    refine ⟨fun fault he => by rw [he]; rfl, fun out ho => ⟨s, by rw [ho]; rfl, h⟩⟩
  have get : strcaseeq rq.method (ascii "GET") = true := by simpa using method
  simp only [if_neg method, if_pos hpos]
  obtain ⟨r, l, look, perm, same, found⟩ :=
    (h.alloc_rep (requestData rq)).lookup (requestData rq).file_name 0
  rw [look, except_ok_bind]
  cases r with
  | some p =>
    obtain ⟨hp, name⟩ := (found p).1 rfl
    rw [h.update_of_cached hp] at name
    obtain ⟨-, page, read⟩ := h.read p hp
    rw [name] at read
    change requestReadfile os (requestData rq) = _ at read
    obtain ⟨rfl, -⟩ := (requestReadfile_ok read).2.1 (clean.served get p hp name)
    rw [read]
    refine ⟨nofun, ?_⟩
    rintro _ ⟨⟩
    refine ⟨⟨Function.update s.files s.next (requestData rq), s.next + 1,
      { s.ht with LRU := l }⟩, ?_, (h.alloc_rep _).lru_perm perm, fun q hq => ?_⟩
    · show Except.ok _ = _
      rw [h.update_of_cached hp]
      rfl
    · exact h.read_update (perm.mem_iff.1 hq) _
  | none =>
    obtain rfl := same (.inr rfl)
    cases hr : requestReadfile os (requestData rq) with
    | error fault => exact ⟨fun _ he => by cases he; rfl, nofun⟩
    | ok r =>
      obtain ⟨data', page⟩ := r
      refine ⟨nofun, ?_⟩
      rintro _ ⟨⟩
      have insertSection := (h.alloc_rep data').insertSection
        (fun hn => Nat.lt_irrefl _ (h.read _ hn).1)
        (by simpa using requestReadfile_nonneg hr) (clean.insert get data' page hr)
      obtain ⟨ht', run, rep, -, lru⟩ := insertSection
      refine ⟨⟨Function.update s.files s.next data', s.next + 1, ht'⟩, ?_, rep, fun q hq => ?_⟩
      · simp only [except_ok_bind, Function.update_idem]
        rw [run]
        rfl
      · have old : q ∈ s.ht.LRU ∨ q = s.next := by
          obtain rfl | ⟨-, k, lru⟩ := lru
          · exact .inl hq
          · rw [lru, List.mem_append, List.mem_singleton] at hq
            exact hq.imp List.mem_of_mem_drop id
        obtain hq | rfl := old
        · exact h.read_update hq _
        · refine ⟨Nat.lt_succ_self _, page, ?_⟩
          simp only [Function.update_self, (requestReadfile_ok hr).1]
          exact hr

end ServedInv

/-- In a run of clean requests every connection receives what it would receive without a
cache. -/
theorem cache_transparent (hpos : 0 < max_cache_size) (files : Files) (rqs : List Request)
    (clean : CleanRun os max_cache_size (serverStart files max_cache_size) rqs) :
    serveAll os max_cache_size (serverStart files max_cache_size) rqs =
      serveAll os 0 (serverStart files 0) rqs := by
  have inv : ServedInv os (serverStart files max_cache_size) :=
    ⟨cacheInit_rep hpos.le, by simp [serverStart, cacheInit]⟩
  generalize serverStart files max_cache_size = s at clean inv
  generalize serverStart files 0 = u
  induction rqs generalizing s u with
  | nil => rfl
  | cons rq rqs ih =>
    obtain ⟨error, ok⟩ := inv.request hpos clean.1
    rw [serveAll, serveAll]
    cases hr : respond os rq with
    | error fault => rw [error fault hr, uncached_error hr]; rfl
    | ok out =>
      obtain ⟨s', run, inv'⟩ := ok out hr
      obtain ⟨u', run'⟩ := uncached_ok (s := u) hr
      rw [run, run']
      simp only [except_ok_bind]
      rw [ih s' (clean.2 s' out run) inv' u']

/-- Three files of 2 bytes and a cache of size 4: the second `x` is a hit, and `z` evicts `y`. -/
theorem cache_transparent_evicted :
    serveAll (fun _ => some ⟨true, true, true, [7, 8]⟩) 4 (serverStart (fun _ => ⟨[], [], 0⟩) 4)
        [⟨ascii "GET", ascii "x"⟩, ⟨ascii "GET", ascii "y"⟩, ⟨ascii "GET", ascii "x"⟩,
          ⟨ascii "GET", ascii "z"⟩] =
      serveAll (fun _ => some ⟨true, true, true, [7, 8]⟩) 0 (serverStart (fun _ => ⟨[], [], 0⟩) 0)
        [⟨ascii "GET", ascii "x"⟩, ⟨ascii "GET", ascii "y"⟩, ⟨ascii "GET", ascii "x"⟩,
          ⟨ascii "GET", ascii "z"⟩] :=
  cache_transparent (by decide) _ _ (by decide +kernel)

/-- A missing file asked for twice: the second response lacks the error page. -/
theorem repeated_missing_differs :
    serveAll (fun _ => none) 4 (serverStart (fun _ => ⟨[], [], 0⟩) 4)
        [⟨ascii "GET", ascii "x"⟩, ⟨ascii "GET", ascii "x"⟩] ≠
      serveAll (fun _ => none) 0 (serverStart (fun _ => ⟨[], [], 0⟩) 0)
        [⟨ascii "GET", ascii "x"⟩, ⟨ascii "GET", ascii "x"⟩] := by
  intro h
  have lengths := congrArg (fun r => match r with
    | .ok outs => outs.map List.length
    | .error _ => []) h
  revert lengths
  decide +kernel

end Ece344Lab.Webserver
