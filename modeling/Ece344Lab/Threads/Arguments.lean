import Ece344Lab.Threads.Movement

/-!
# The identifiers passed to `thread_yield` and `thread_exit`

Neither call crashes on a control code, on an identifier out of range, on a free one or on that of
a ready thread. The range test lets the codes from `THREAD_FAILED` to `THREAD_INVALID` through to
the table, and the search of the ready list runs off its end on the identifier of a live thread
that stands elsewhere.
-/
namespace Ece344Lab.Threads

open Library (System IsChain)

variable {m m' : Machine} {L : Places} {tid : Tid} {call : Call}

/-- Every call with every argument, as long as it comes back. `malloc` does not fail. -/
def calling : System Machine Call where
  start m := ∃ thread, m = Machine.threadInit thread
  step m call m' := m.perform call = .ok (some m')

/-- The arguments that the tests before the search of the ready list sort out. -/
def Refused (m : Machine) (tid : Tid) : Prop :=
  tid > THREAD_MAX_THREADS - 1 ∨ tid < THREAD_FAILED ∨ 0 ≤ tid ∧ m.thread_id_array tid.toNat = false

/-- The arguments `thread_yield` can handle. -/
def YieldHandled (m : Machine) (tid : Tid) : Prop :=
  tid = THREAD_ANY ∨ tid = THREAD_SELF ∨ tid = m.threadId ∨ Refused m tid ∨ ReadyTid m tid

/-- The arguments `thread_exit` can handle. -/
def ExitHandled (m : Machine) (tid : Tid) : Prop :=
  tid = THREAD_ANY ∨ tid = THREAD_SELF ∨ Refused m tid ∨ ReadyTid m tid ∨
    0 ≤ tid ∧ m.READY_HEAD = none

/-- Neither outside an array nor through a null pointer. -/
def Crash.Sane (crash : Crash) : Prop := crash ≠ .badIndex ∧ crash ≠ .nullPointer

/-- The call fails and changes nothing. -/
def Fails (m : Machine) (r : Except Crash (Option Tid × Machine)) : Prop :=
  ∃ v, (v = THREAD_INVALID ∨ v = THREAD_NONE) ∧ r = .ok (some v, m)

/-- `thread_yield` stays inside the table and the ready list, and fails when there is no thread
to run. -/
structure YieldSafe (m : Machine) (tid : Tid) : Prop where
  inside : ∀ crash, m.threadYield tid = .error crash → crash.Sane
  fails : tid ≠ THREAD_ANY → tid ≠ THREAD_SELF → tid ≠ m.threadId → ¬ ReadyTid m tid →
    Fails m (m.threadYield tid)

/-- The same of `thread_exit` and a thread to destroy. -/
structure ExitSafe (m : Machine) (tid : Tid) : Prop where
  inside : ∀ crash, m.threadExit tid = .error crash → crash.Sane
  fails : tid ≠ THREAD_ANY → tid ≠ THREAD_SELF → ¬ ReadyTid m tid → Fails m (m.threadExit tid)

/-- The calls of the runs that keep their queues: each argument is handled, and the mark of a
thread is not examined too early. -/
def Sound (m : Machine) : Call → Prop
  | .yield tid => YieldHandled m tid ∧ ((m.thread m.RUNNING_THREAD).flag = true →
      m.READY_HEAD = none ∨ tid ≠ THREAD_ANY ∧ ¬ ReadyTid m tid)
  | .exit tid => ExitHandled m tid
  | call => Clean m call

/-- An index of `thread_id_array`. -/
def Index (tid : Tid) : Prop := 0 ≤ tid ∧ tid < THREAD_MAX_THREADS

/-- The table is read behind `getcontext` at the saved `returned_tid` only. -/
def Saved (m : Machine) : Prop :=
  ∀ p < m.allocated, ∀ r temp, (m.thread p).thread_context = .switched r temp → Index r

/-- The same threads resume at the same places. -/
structure SameContexts (m m' : Machine) : Prop where
  allocated : m'.allocated = m.allocated
  context : ∀ p, (m'.thread p).thread_context = (m.thread p).thread_context

theorem SameContexts.refl (m : Machine) : SameContexts m m := ⟨rfl, fun _ => rfl⟩

theorem SameContexts.trans {m₁ m₂ m₃ : Machine} (h : SameContexts m₁ m₂)
    (h' : SameContexts m₂ m₃) : SameContexts m₁ m₃ :=
  ⟨h'.allocated.trans h.allocated, fun p => (h'.context p).trans (h.context p)⟩

theorem sameContexts_modify {f : Thread → Thread} (h : ∀ t, (f t).thread_context = t.thread_context)
    (p : Nat) : SameContexts m (m.modify p f) :=
  ⟨rfl, modify_field _ h⟩

/-- A piece of a call whose crashes are sane, with `R` of its result. -/
structure Tame {α : Type} (R : α → Prop) (r : Except Crash α) : Prop where
  sane : ∀ crash, r = .error crash → crash.Sane
  post : ∀ v, r = .ok v → R v

section Pieces

variable {α : Type} {R R' : α → Prop}

theorem Tame.ok {v : α} (h : R v) : Tame R (.ok v) where
  sane _ h' := by cases h'
  post _ h' := by cases h'; exact h

theorem Tame.error {crash : Crash} (h : crash.Sane) : Tame R (.error crash) where
  sane _ h' := by cases h'; exact h
  post _ h' := by cases h'

theorem Tame.mono {r : Except Crash α} (h : Tame R r) (hR : ∀ v, R v → R' v) : Tame R' r :=
  ⟨h.sane, fun v heq => hR v (h.post v heq)⟩

theorem endless_sane : Crash.endless.Sane := ⟨by decide, by decide⟩

theorem insertLast_tame (m : Machine) (head : Option Nat) (p : Nat) :
    Tame (fun r => SameContexts m r.2) (m.insertLast head p) := by
  cases head with
  | none => exact .ok (.refl m)
  | some first =>
    rw [Machine.insertLast]
    cases Library.lastNode m.next m.allocated first with
    | none => exact .error endless_sane
    | some temp =>
      exact .ok (sameContexts_modify (f := fun t => { t with next := some p }) (fun _ => rfl) temp)

theorem insertThreadToReady_tame (m : Machine) (p : Nat) :
    Tame (SameContexts m) (m.insertThreadToReady p) := by
  have h := insertLast_tame m m.READY_HEAD p
  rw [Machine.insertThreadToReady]
  cases hr : m.insertLast m.READY_HEAD p with
  | error crash => exact .error (h.sane _ hr)
  | ok r => exact .ok ⟨(h.post _ hr).1, (h.post _ hr).2⟩

theorem insertThreadToDelete_tame (m : Machine) (p : Nat) :
    Tame (SameContexts m) (m.insertThreadToDelete p) := by
  have h := insertLast_tame m m.TO_DELETE_THREAD p
  rw [Machine.insertThreadToDelete]
  cases hr : m.insertLast m.TO_DELETE_THREAD p with
  | error crash => exact .error (h.sane _ hr)
  | ok r => exact .ok ⟨(h.post _ hr).1, (h.post _ hr).2⟩

theorem insertThreadToWait_tame (m : Machine) (p q : Nat) :
    Tame (SameContexts m) (m.insertThreadToWait p q) := by
  have h := insertLast_tame m (m.queue q).wait_head p
  rw [Machine.insertThreadToWait]
  cases hr : m.insertLast (m.queue q).wait_head p with
  | error crash => exact .error (h.sane _ hr)
  | ok r => exact .ok ⟨(h.post _ hr).1, (h.post _ hr).2⟩

theorem freeAll_tame (fuel : Nat) (thread : Nat → Thread) (head : Option Nat) :
    Tame (fun thread' => SameContexts { m with thread := thread } { m with thread := thread' })
      (Machine.freeAll fuel thread head) := by
  induction fuel generalizing thread head with
  | zero =>
    cases head with
    | none => exact .ok (.refl _)
    | some first => exact .error endless_sane
  | succ fuel ih =>
    cases head with
    | none => exact .ok (.refl _)
    | some to_delete =>
      rw [Machine.freeAll]
      by_cases hfreed : (thread to_delete).freed = true
      · rw [if_pos hfreed]
        exact .error ⟨by decide, by decide⟩
      · rw [if_neg hfreed]
        exact (ih _ _).mono fun _ => (sameContexts_modify (m := { m with thread := thread })
          (f := fun t => { t with freed := true }) (fun _ => rfl) to_delete).trans

theorem deleteThreadsList_tame (m : Machine) : Tame (SameContexts m) m.deleteThreadsList := by
  have h := freeAll_tame (m := m) m.allocated m.thread m.TO_DELETE_THREAD
  rw [Machine.deleteThreadsList]
  cases hr : Machine.freeAll m.allocated m.thread m.TO_DELETE_THREAD with
  | error crash => exact .error (h.sane _ hr)
  | ok thread => exact .ok ⟨(h.post _ hr).1, (h.post _ hr).2⟩

theorem sameContexts_leave (m : Machine) (new_run : Nat) : SameContexts m (m.leave new_run) :=
  ⟨rfl, modify_field (f := fun t => { t with next := none, exited := true })
    Thread.thread_context fun _ => rfl⟩

theorem sameContexts_run (m : Machine) (new_run : Nat) : SameContexts m (m.run new_run) :=
  ⟨rfl, modify_field (f := fun t => { t with next := none, state := .recover })
    Thread.thread_context fun _ => rfl⟩

theorem exitSelf_tame (m : Machine) : Tame (fun r => SameContexts m (r.getD m)) m.exitSelf := by
  rw [Machine.exitSelf]
  cases m.READY_HEAD with
  | none => exact .ok (.refl m)
  | some new_run =>
    dsimp only
    have h := insertThreadToDelete_tame (m.leave new_run) m.RUNNING_THREAD
    cases hr : (m.leave new_run).insertThreadToDelete m.RUNNING_THREAD with
    | error crash => exact .error (h.sane _ hr)
    | ok m₁ => exact .ok (((sameContexts_leave m new_run).trans (h.post _ hr)).trans
      (sameContexts_run m₁ new_run))

end Pieces

section Switch

variable {pass : Machine → Tid → Nat → Except Crash (Option Tid × Machine)} {returned_tid : Tid}
  {temp fuel : Nat}

theorem resumeWith_tame (h : ∀ m r t, Tame (fun r => SameContexts m r.2) (pass m r t)) (m : Machine) :
    Tame (fun r => SameContexts m r.2) (Machine.resumeWith pass m) := by
  rw [Machine.resumeWith]
  cases (m.thread m.RUNNING_THREAD).thread_context with
  | stub => exact .ok (.refl m)
  | switched returned_tid temp => exact h m returned_tid temp

theorem afterFlag_tame (h : ∀ m r t, Tame (fun r => SameContexts m r.2) (pass m r t)) :
    Tame (fun r => SameContexts m r.2) (m.afterFlag pass returned_tid temp) := by
  have hdelete := deleteThreadsList_tame m
  rw [Machine.afterFlag]
  cases hr : m.deleteThreadsList with
  | error crash => exact .error (hdelete.sane _ hr)
  | ok m₁ =>
    dsimp only
    refine Tame.mono ?_ fun _ => (hdelete.post _ hr).trans
    split_ifs
    · exact .ok (.refl m₁)
    · exact .error ⟨by decide, by decide⟩
    · refine (resumeWith_tame h _).mono fun _ => SameContexts.trans ⟨rfl, ?_⟩
      exact modify_field (f := fun t => { t with state := .recover }) Thread.thread_context
        fun _ => rfl
    · exact .ok (.refl m₁)

theorem afterGetcontext_tame (fuel : Nat) (m : Machine) (returned_tid : Tid) (temp : Nat) :
    Tame (fun r => SameContexts m r.2) (Machine.afterGetcontext fuel m returned_tid temp) := by
  induction fuel generalizing m returned_tid temp with
  | zero => exact .error endless_sane
  | succ fuel ih =>
    rw [Machine.afterGetcontext]
    by_cases hflag : (m.thread m.RUNNING_THREAD).flag = true
    · rw [if_pos hflag]
      have hexit := exitSelf_tame m
      cases hr : m.exitSelf with
      | error crash => exact .error (hexit.sane _ hr)
      | ok r =>
        cases r with
        | none => exact afterFlag_tame ih
        | some m₁ => exact (resumeWith_tame ih m₁).mono fun _ => (hexit.post _ hr).trans
    · rw [if_neg hflag]
      exact afterFlag_tame ih

end Switch

/-- The running thread is suspended behind a switch. -/
theorem suspend_tame (same : SameContexts m m') (saved : Saved m) {returned_tid : Tid} {temp : Nat}
    (index : Index returned_tid) :
    Tame (fun r => Saved r.2) (m'.suspend returned_tid temp) := by
  refine (afterGetcontext_tame _ _ _ _).mono fun r hsame p hp v t hctx => ?_
  rw [hsame.context] at hctx
  by_cases hrun : p = m'.RUNNING_THREAD
  · subst hrun
    rw [modify_self] at hctx
    cases hctx
    exact index
  · rw [modify_of_ne hrun, same.context] at hctx
    refine saved p ?_ v t hctx
    rw [hsame.allocated] at hp
    exact same.allocated ▸ hp

theorem SameContexts.saved (h : SameContexts m m') (saved : Saved m) : Saved m' := by
  intro p hp v t hctx
  rw [h.context] at hctx
  exact saved p (h.allocated ▸ hp) v t hctx

theorem sameContexts_popReady (m : Machine) (temp : Nat) : SameContexts m (m.popReady temp) :=
  ⟨rfl, modify_field (f := fun t => { t with next := none }) Thread.thread_context fun _ => rfl⟩

theorem Rep.index (rep : Rep m L) {i : Place} (hi : i ≠ .dying) {p : Nat} (hp : p ∈ L i) :
    Index (m.thread p).tid :=
  rep.tids.bound p (rep.live_of_mem hi hp)

/-- The first thread of the ready list. -/
theorem Rep.mem_ready (rep : Rep m L) {first : Nat} (h : m.READY_HEAD = some first) :
    first ∈ L .ready := by
  have hhead := (rep.linked.chain .ready).head_eq
  rw [show m.head .ready = m.READY_HEAD from rfl, h] at hhead
  exact List.mem_of_mem_head? hhead.symm

/-- The search of the ready list finds a thread that is there. -/
theorem ReadyTid.find (rep : Rep m L) (h : ReadyTid m tid) :
    ∃ first prev temp, m.READY_HEAD = some first ∧
      Library.findNode m.next (fun p => (m.thread p).tid == tid) m.allocated first first =
        some (prev, temp) ∧ temp ∈ L .ready ∧ (m.thread temp).tid = tid := by
  obtain ⟨p, hp, rfl⟩ := h.mem rep
  obtain ⟨l, r, hready⟩ := List.append_of_mem hp
  obtain ⟨first, hfirst⟩ := rep.ready_some hp
  exact ⟨first, _, p, hfirst, (findReady rep hready hfirst).1, hp, rfl⟩

/-- The search of the ready list runs off its end on an identifier that is not there. -/
theorem find_absent (rep : Rep m L) {first : Nat} (hfirst : m.READY_HEAD = some first)
    (h : ¬ ReadyTid m tid) :
    Library.findNode m.next (fun p => (m.thread p).tid == tid) m.allocated first first = none := by
  cases hfind : Library.findNode m.next (fun p => (m.thread p).tid == tid) m.allocated first
      first with
  | none => rfl
  | some found =>
    have hchain := rep.linked.chain .ready
    rw [show m.head .ready = m.READY_HEAD from rfl, hfirst] at hchain
    obtain ⟨hmem, htid⟩ := hchain.mem_of_findNode hfind
    exact absurd ⟨_, hfirst ▸ hchain, _, hmem, by simpa using htid⟩ h

/-- A control code is no identifier. -/
theorem Index.ne (h : Index tid) : tid ≠ THREAD_ANY ∧ tid ≠ THREAD_SELF := tid_ne h.1

theorem Refused.ne (h : Refused m tid) : tid ≠ THREAD_ANY ∧ tid ≠ THREAD_SELF := by
  constructor <;>
  · rintro rfl
    rcases h with h | h | h
    · exact absurd h (by decide)
    · exact absurd h (by decide)
    · exact absurd h.1 (by decide)

section Yield

theorem threadYield_refused (hown : tid ≠ m.threadId) (h : Refused m tid) :
    m.threadYield tid = .ok (some THREAD_INVALID, m) := by
  rw [Machine.threadYield, if_neg h.ne.1, if_neg (not_or.2 ⟨h.ne.2, hown⟩)]
  by_cases hrange : tid > THREAD_MAX_THREADS - 1 ∨ tid < THREAD_FAILED
  · rw [if_pos hrange]
  · obtain ⟨h₀, harray⟩ := (h.resolve_left fun h => hrange (.inl h)).resolve_left
      fun h => hrange (.inr h)
    rw [if_neg hrange, if_neg (Int.not_lt.2 h₀), if_pos harray]

/-- Any other identifier crashes: outside the table, or behind the end of the ready list. -/
theorem threadYield_lost (rep : Rep m L) (h : ¬ YieldHandled m tid) :
    ∃ crash, m.threadYield tid = .error crash ∧ ¬ crash.Sane := by
  simp only [YieldHandled, Refused, not_or] at h
  obtain ⟨hany, hself, hown, ⟨hhigh, hlow, hfree⟩, hready⟩ := h
  rw [Machine.threadYield, if_neg hany, if_neg (not_or.2 ⟨hself, hown⟩),
    if_neg (not_or.2 ⟨hhigh, hlow⟩)]
  by_cases hneg : tid < 0
  · rw [if_pos hneg]
    exact ⟨_, rfl, fun h => h.1 rfl⟩
  · rw [if_neg hneg, if_neg fun h => hfree ⟨Int.not_lt.1 hneg, h⟩]
    cases hfirst : m.READY_HEAD with
    | none => exact ⟨_, rfl, fun h => h.2 rfl⟩
    | some first =>
      dsimp only
      rw [find_absent rep hfirst hready]
      exact ⟨_, rfl, fun h => h.2 rfl⟩

theorem threadYield_tame (rep : Rep m L) (saved : Saved m) (h : YieldHandled m tid) :
    Tame (fun r => Saved r.2) (m.threadYield tid) := by
  by_cases hany : tid = THREAD_ANY
  · rw [Machine.threadYield, if_pos hany]
    cases hfirst : m.READY_HEAD with
    | none => exact .ok saved
    | some temp =>
      dsimp only
      have hi := insertThreadToReady_tame (m.popReady temp) m.RUNNING_THREAD
      cases hr : (m.popReady temp).insertThreadToReady m.RUNNING_THREAD with
      | error crash => exact .error (hi.sane _ hr)
      | ok m₁ =>
        exact suspend_tame ((sameContexts_popReady m temp).trans (hi.post _ hr)) saved
          (rep.index (by decide) (rep.mem_ready hfirst))
  by_cases hself : tid = THREAD_SELF ∨ tid = m.threadId
  · rw [threadYield_self hany hself]
    exact .ok (SameContexts.saved (sameContexts_modify (f := fun t => { t with state := .recover })
      (fun _ => rfl) m.RUNNING_THREAD) saved)
  by_cases hrefused : Refused m tid
  · rw [threadYield_refused (fun h => hself (.inr h)) hrefused]
    exact .ok saved
  have hready : ReadyTid m tid := by
    rw [not_or] at hself
    exact ((((h.resolve_left hany).resolve_left hself.1).resolve_left hself.2).resolve_left hrefused)
  obtain ⟨first, prev, temp, hfirst, hfind, htemp, rfl⟩ := hready.find rep
  obtain ⟨h₀, h₁, harray⟩ := live_tid rep (by decide) htemp
  rw [Machine.threadYield, if_neg hany, if_neg hself, if_neg (valid_tid h₀ h₁),
    if_neg (Int.not_lt.2 h₀), if_neg (by rw [harray]; decide), hfirst]
  dsimp only
  rw [hfind]
  dsimp only
  obtain ⟨m₁, hm₁⟩ : ∃ m₁, m₁ = if (m.thread first).tid = (m.thread temp).tid then
    { m with READY_HEAD := m.next first } else m.setNext prev (m.next temp) := ⟨_, rfl⟩
  rw [← hm₁]
  have hsame : SameContexts m m₁ := by
    rw [hm₁]
    split
    · exact ⟨rfl, fun _ => rfl⟩
    · exact sameContexts_modify (f := fun t => { t with next := m.next temp }) (fun _ => rfl) prev
  have hcut : SameContexts m (m₁.setNext temp none) :=
    hsame.trans (sameContexts_modify (f := fun t => { t with next := none }) (fun _ => rfl) temp)
  have hi := insertThreadToReady_tame (m₁.setNext temp none) m.RUNNING_THREAD
  cases hr : (m₁.setNext temp none).insertThreadToReady m.RUNNING_THREAD with
  | error crash => exact .error (hi.sane _ hr)
  | ok m₂ => exact suspend_tame (hcut.trans (hi.post _ hr)) saved ⟨h₀, h₁⟩

/-- `thread_yield` is safe exactly on the arguments it can handle. -/
theorem yieldSafe_iff (rep : Rep m L) (saved : Saved m) :
    YieldSafe m tid ↔ YieldHandled m tid := by
  constructor
  · intro safe
    by_contra h
    obtain ⟨crash, heq, hcrash⟩ := threadYield_lost rep h
    exact hcrash (safe.inside crash heq)
  · refine fun h => ⟨(threadYield_tame rep saved h).sane, fun hany hself hown hready => ?_⟩
    have hrefused := (((h.resolve_left hany).resolve_left hself).resolve_left hown).resolve_right
      hready
    exact ⟨_, .inl rfl, threadYield_refused hown hrefused⟩

end Yield

section Exit

theorem threadExit_refused (h : Refused m tid) :
    m.threadExit tid = .ok (some THREAD_INVALID, m) := by
  rw [Machine.threadExit, if_neg h.ne.2, if_neg h.ne.1]
  by_cases hrange : tid > THREAD_MAX_THREADS - 1 ∨ tid < THREAD_FAILED
  · rw [if_pos hrange]
  · obtain ⟨h₀, harray⟩ := (h.resolve_left fun h => hrange (.inl h)).resolve_left
      fun h => hrange (.inr h)
    rw [if_neg hrange, if_neg (Int.not_lt.2 h₀), if_pos harray]

/-- With nobody ready `thread_exit` does not search. -/
theorem threadExit_none (h₀ : 0 ≤ tid) (hrefused : ¬ Refused m tid) (hready : m.READY_HEAD = none) :
    m.threadExit tid = .ok (some THREAD_NONE, m) := by
  simp only [Refused, not_or] at hrefused
  obtain ⟨hhigh, hlow, hfree⟩ := hrefused
  rw [Machine.threadExit, if_neg (tid_ne h₀).2, if_neg (tid_ne h₀).1,
    if_neg (not_or.2 ⟨hhigh, hlow⟩), if_neg (Int.not_lt.2 h₀), if_neg fun h => hfree ⟨h₀, h⟩, hready]

theorem threadExit_lost (rep : Rep m L) (h : ¬ ExitHandled m tid) :
    ∃ crash, m.threadExit tid = .error crash ∧ ¬ crash.Sane := by
  simp only [ExitHandled, Refused, not_or] at h
  obtain ⟨hany, hself, ⟨hhigh, hlow, hfree⟩, hready, hnone⟩ := h
  rw [Machine.threadExit, if_neg hself, if_neg hany, if_neg (not_or.2 ⟨hhigh, hlow⟩)]
  by_cases hneg : tid < 0
  · rw [if_pos hneg]
    exact ⟨_, rfl, fun h => h.1 rfl⟩
  · rw [if_neg hneg, if_neg fun h => hfree ⟨Int.not_lt.1 hneg, h⟩]
    cases hfirst : m.READY_HEAD with
    | none => exact absurd ⟨Int.not_lt.1 hneg, hfirst⟩ hnone
    | some first =>
      dsimp only
      rw [find_absent rep hfirst hready]
      exact ⟨_, rfl, fun h => h.2 rfl⟩

theorem sameContexts_mark (m : Machine) (p : Nat) :
    SameContexts m (m.modify p fun t => { t with flag := true }) :=
  sameContexts_modify (f := fun t => { t with flag := true }) (fun _ => rfl) p

theorem exit_tame (m : Machine) : Tame (fun r => SameContexts m r.2) (m.threadExit THREAD_SELF) := by
  have hexit := exitSelf_tame m
  rw [Machine.threadExit, if_pos rfl]
  cases hr : m.exitSelf with
  | error crash => exact .error (hexit.sane _ hr)
  | ok r =>
    cases r with
    | none => exact .ok (.refl m)
    | some m₁ =>
      exact (resumeWith_tame (afterGetcontext_tame _) m₁).mono fun _ => (hexit.post _ hr).trans

theorem threadExit_tame (rep : Rep m L) (h : ExitHandled m tid) :
    Tame (fun r => SameContexts m r.2) (m.threadExit tid) := by
  by_cases hself : tid = THREAD_SELF
  · rw [hself]
    exact exit_tame m
  by_cases hany : tid = THREAD_ANY
  · rw [Machine.threadExit, if_neg hself, if_pos hany]
    cases m.READY_HEAD with
    | none => exact .ok (.refl m)
    | some temp => exact .ok (sameContexts_mark m temp)
  by_cases hrefused : Refused m tid
  · rw [threadExit_refused hrefused]
    exact .ok (.refl m)
  rcases ((h.resolve_left hany).resolve_left hself).resolve_left hrefused with hready | ⟨h₀, hnone⟩
  · obtain ⟨p, hp, rfl⟩ := hready.mem rep
    rw [threadExit_tid rep hp]
    exact .ok (sameContexts_mark m p)
  · rw [threadExit_none h₀ hrefused hnone]
    exact .ok (.refl m)

/-- `thread_exit` is safe exactly on the arguments it can handle. -/
theorem exitSafe_iff (rep : Rep m L) : ExitSafe m tid ↔ ExitHandled m tid := by
  constructor
  · intro safe
    by_contra h
    obtain ⟨crash, heq, hcrash⟩ := threadExit_lost rep h
    exact hcrash (safe.inside crash heq)
  · refine fun h => ⟨(threadExit_tame rep h).sane, fun hany hself hready => ?_⟩
    by_cases hrefused : Refused m tid
    · exact ⟨_, .inl rfl, threadExit_refused hrefused⟩
    · obtain ⟨h₀, hnone⟩ := (((h.resolve_left hany).resolve_left hself).resolve_left
        hrefused).resolve_left hready
      exact ⟨_, .inr rfl, threadExit_none h₀ hrefused hnone⟩

end Exit

section Runs

theorem threadCreate_eq {new_id : Nat} (hid : m.assignThreadId = some new_id) :
    m.threadCreate = ((withNew m new_id).insertThreadToReady m.allocated).map
      fun M => ((new_id : Tid), M) := by
  cases hr : (withNew m new_id).insertThreadToReady m.allocated with
  | ok M => exact threadCreate_of hid hr
  | error crash =>
    unfold Machine.threadCreate
    split
    · rename_i hnone
      rw [hid] at hnone
      cases hnone
    · rename_i id hsome
      rw [hid] at hsome
      cases hsome
      unfold withNew at hr
      dsimp only
      rw [hr]
      rfl

theorem threadCreate_tame (saved : Saved m) : Tame (fun r => Saved r.2) m.threadCreate := by
  cases hid : m.assignThreadId with
  | none =>
    rw [threadCreate_none hid]
    exact .ok saved
  | some new_id =>
    have hnew : Saved (withNew m new_id) := by
      intro p hp v t hctx
      by_cases hlast : p = m.allocated
      · subst hlast
        rw [withNew_self] at hctx
        cases hctx
      · rw [withNew_of_ne hlast] at hctx
        exact saved p (Nat.lt_of_le_of_ne (Nat.lt_succ_iff.1 hp) hlast) v t hctx
    have hi := insertThreadToReady_tame (withNew m new_id) m.allocated
    rw [threadCreate_eq hid]
    cases hr : (withNew m new_id).insertThreadToReady m.allocated with
    | error crash => exact .error (hi.sane _ hr)
    | ok m₁ => exact .ok ((hi.post _ hr).saved hnew)

theorem threadSleep_tame (rep : Rep m L) (saved : Saved m) (queue : Option Nat) :
    Tame (fun r => Saved r.2) (m.threadSleep queue) := by
  cases queue with
  | none => exact .ok saved
  | some q =>
    cases hfirst : m.READY_HEAD with
    | none =>
      simp only [Machine.threadSleep, hfirst]
      exact .ok saved
    | some temp =>
      simp only [Machine.threadSleep, hfirst]
      have hi := insertThreadToWait_tame (m.popReady temp) m.RUNNING_THREAD q
      cases hr : (m.popReady temp).insertThreadToWait m.RUNNING_THREAD q with
      | error crash => exact .error (hi.sane _ hr)
      | ok m₁ =>
        exact suspend_tame ((sameContexts_popReady m temp).trans (hi.post _ hr)) saved
          (rep.index (by decide) (rep.mem_ready hfirst))

theorem threadWakeup_tame (queue : Option Nat) (all : Int) :
    Tame (fun r => SameContexts m r.2) (m.threadWakeup queue all) := by
  cases queue with
  | none => exact .ok (.refl m)
  | some q =>
    cases hhead : (m.queue q).wait_head with
    | none =>
      simp only [Machine.threadWakeup, hhead]
      exact .ok (.refl m)
    | some temp =>
      simp only [Machine.threadWakeup, hhead]
      have hi := insertThreadToReady_tame m temp
      split_ifs with hzero hone hall
      · cases hr : m.insertThreadToReady temp with
        | error crash => exact .error (hi.sane _ hr)
        | ok m₁ => exact .ok ⟨(hi.post _ hr).1, (hi.post _ hr).2⟩
      · obtain ⟨m₁, hm₁⟩ : ∃ m₁, m₁ = Machine.setNext { m with
          queue := Function.update m.queue q ⟨m.next temp, (m.queue q).size⟩ } temp none := ⟨_, rfl⟩
        have hsame : SameContexts m m₁ := by
          rw [hm₁]
          exact ⟨rfl, modify_field (f := fun t => { t with next := none }) Thread.thread_context
            fun _ => rfl⟩
        have hi := insertThreadToReady_tame m₁ temp
        rw [← hm₁]
        cases hr : m₁.insertThreadToReady temp with
        | error crash => exact .error (hi.sane _ hr)
        | ok m₂ => exact .ok (hsame.trans (hi.post _ hr))
      · cases hr : m.insertThreadToReady temp with
        | error crash => exact .error (hi.sane _ hr)
        | ok m₁ => exact .ok ⟨(hi.post _ hr).1, (hi.post _ hr).2⟩
      · exact .ok (.refl m)

theorem Tame.of_map {α : Type} {r : Except Crash (α × Machine)} (h : Tame (fun r => Saved r.2) r)
    (hr : (r.map fun r => some r.2) = .ok (some m')) : Saved m' := by
  cases heq : r with
  | error crash =>
    rw [heq] at hr
    cases hr
  | ok v =>
    rw [heq] at hr
    cases hr
    exact h.post _ heq

/-- The saved indices stay in the table, in every call that handles its argument. -/
theorem perform_saved (rep : Rep m L) (saved : Saved m) (sound : Sound m call)
    (h : m.perform call = .ok (some m')) : Saved m' := by
  cases call with
  | create => exact (threadCreate_tame saved).of_map h
  | yield tid => exact (threadYield_tame rep saved sound.1).of_map h
  | sleep queue => exact (threadSleep_tame rep saved queue).of_map h
  | wakeup queue all =>
    exact ((threadWakeup_tame queue all).mono fun _ hs => hs.saved saved).of_map h
  | exit tid => exact ((threadExit_tame rep sound).mono fun _ hs => hs.saved saved).of_map h
  | ret =>
    have hexit := exitSelf_tame m
    rw [Machine.perform] at h
    cases hr : m.exitSelf with
    | error crash =>
      rw [hr] at h
      cases h
    | ok r =>
      rw [hr] at h
      cases r with
      | none => cases h
      | some m₁ =>
        have hsame := hexit.post _ hr
        exact ((resumeWith_tame (afterGetcontext_tame _) m₁).mono fun _ hs =>
          (hsame.trans hs).saved saved).of_map h

/-- A sound call is one of those that keep the queues, or it changes nothing. -/
theorem Sound.cases (rep : Rep m L) (sound : Sound m call) (h : m.perform call = .ok (some m')) :
    m' = m ∨ (SelfOnly m call ∨ Marking m call) ∧ Clean m call := by
  cases call with
  | create => exact .inr ⟨.inl trivial, trivial⟩
  | yield tid =>
    obtain ⟨hhandled, hmark⟩ := sound
    by_cases hself : tid = THREAD_SELF ∨ tid = m.threadId
    · refine .inr ⟨.inl ?_, fun _ => ?_⟩
      · exact hself.elim (fun h => .inr (.inl h)) fun h => .inr (.inr (.inl h))
      · exact hself.elim .inl fun h => .inr (.inl h)
    by_cases hother : tid = THREAD_ANY ∨ ReadyTid m tid
    · refine .inr ⟨.inl ?_, fun hflag => .inr (.inr ?_)⟩
      · exact hother.elim .inl fun h => .inr (.inr (.inr h))
      · refine (hmark hflag).resolve_right fun h => ?_
        exact hother.elim h.1 h.2
    · rw [not_or] at hself hother
      refine .inl ?_
      have hrefused := (((hhandled.resolve_left hother.1).resolve_left hself.1).resolve_left
        hself.2).resolve_right hother.2
      rw [Machine.perform, threadYield_refused hself.2 hrefused] at h
      cases h
      rfl
  | sleep queue => exact .inr ⟨.inl trivial, sound⟩
  | wakeup queue all =>
    by_cases hall : all = 0 ∨ all = 1
    · exact .inr ⟨.inl hall, trivial⟩
    · rw [not_or] at hall
      refine .inl ?_
      rw [Machine.perform] at h
      cases queue with
      | none =>
        cases h
        rfl
      | some q =>
        cases hhead : (m.queue q).wait_head <;>
        · simp only [Machine.threadWakeup, hhead, if_neg hall.1, if_neg hall.2] at h
          cases h
          rfl
  | exit tid =>
    by_cases hself : tid = THREAD_SELF
    · exact .inr ⟨.inl hself, trivial⟩
    by_cases hother : tid = THREAD_ANY ∨ ReadyTid m tid
    · exact .inr ⟨.inr hother, trivial⟩
    · rw [not_or] at hother
      refine .inl ?_
      obtain ⟨v, -, heq⟩ := (exitSafe_iff rep).2 sound |>.fails hother.1 hself hother.2
      rw [Machine.perform, heq] at h
      cases h
      rfl
  | ret => exact .inr ⟨.inl trivial, trivial⟩

theorem saved_threadInit (thread : Nat → Thread) : Saved (Machine.threadInit thread) := by
  intro p hp v t hctx
  obtain rfl : p = 0 := Nat.lt_one_iff.1 hp
  cases hctx

/-- In every run of sound calls the queues are held and the saved indices are in the table. -/
theorem sound_rep {calls : List Call} (run : (calling.restrict Sound).Run calls m) :
    (∃ L, Rep m L) ∧ Saved m := by
  refine run.invariant_state (I := fun m => (∃ L, Rep m L) ∧ Saved m) ?_ ?_
  · rintro m ⟨thread, rfl⟩
    exact ⟨⟨_, rep_threadInit thread⟩, saved_threadInit thread⟩
  · rintro m call m' ⟨⟨L, rep⟩, saved⟩ ⟨hstep, sound⟩
    change m.perform call = .ok (some m') at hstep
    have hsaved := perform_saved rep saved sound hstep
    rcases sound.cases rep hstep with rfl | ⟨allowed, clean⟩
    · exact ⟨⟨L, rep⟩, hsaved⟩
    · exact ⟨((perform_spec rep allowed clean).reaches hstep).rep, hsaved⟩

/-- In every run of sound calls, the table is read and written at its indices only, and
`thread_yield` and `thread_exit` are safe exactly on the identifiers they can handle. -/
theorem tid_arguments {calls : List Call} (run : (calling.restrict Sound).Run calls m) :
    (∀ p, m.Live p → Index (m.thread p).tid) ∧ Saved m ∧
      ∀ tid, (YieldSafe m tid ↔ YieldHandled m tid) ∧ (ExitSafe m tid ↔ ExitHandled m tid) := by
  obtain ⟨⟨L, rep⟩, saved⟩ := sound_rep run
  exact ⟨rep.tids.bound, saved, fun tid => ⟨yieldSafe_iff rep saved, exitSafe_iff rep⟩⟩

/-- A thread is created and runs; the initial thread is ready. -/
theorem tid_arguments_created :
    (YieldSafe ((initial.after .create).after (.yield THREAD_ANY)) 0 ↔
      YieldHandled ((initial.after .create).after (.yield THREAD_ANY)) 0) ∧
      (ExitSafe ((initial.after .create).after (.yield THREAD_ANY)) 0 ↔
        ExitHandled ((initial.after .create).after (.yield THREAD_ANY)) 0) := by
  have created : (calling.restrict Sound).Run [.create] (initial.after .create) :=
    .next (.start ⟨_, rfl⟩ : (calling.restrict Sound).Run [] initial)
      ⟨perform_after (by decide +kernel), trivial⟩
  have sound : Sound (initial.after .create) (.yield THREAD_ANY) :=
    ⟨.inl rfl, fun h => absurd h (by decide +kernel)⟩
  exact (tid_arguments (created.next ⟨perform_after (by decide +kernel), sound⟩)).2.2 0

/-- `thread_yield(THREAD_INVALID)` reads in front of the table. -/
theorem negative_tid_unsafe : ¬ ∀ calls m, calling.Run calls m →
    ∀ tid, YieldSafe m tid ∧ ExitSafe m tid := by
  intro h
  have safe := (h [] initial (.start ⟨_, rfl⟩) THREAD_INVALID).1
  exact (safe.inside .badIndex rfl).1 rfl

end Runs

end Ece344Lab.Threads
