import Ece344Lab.Library.Runs
import Ece344Lab.Threads.Lifecycle

/-!
# Runs of the scheduler

From `thread_init` on, the running thread makes one call after the other. In every run in which
threads terminate only themselves, each live thread is running, ready or waiting, once. Marking
another thread with `thread_exit` keeps this as long as no marked thread gives up the processor
by itself while the mark would be examined too early.
-/
namespace Ece344Lab.Threads

open Library (Queues Linked IsChain Partitioned System)

/-- A call of the running thread; `ret` is the return of its `thread_main`. -/
inductive Call where
  | create
  | yield (want_tid : Tid)
  | sleep (queue : Option Nat)
  | wakeup (queue : Option Nat) (all : Int)
  | exit (tid : Tid)
  | ret

/-- The machine when the next call can be made; `none` when the process has ended. -/
def Machine.perform (m : Machine) : Call → Except Crash (Option Machine)
  | .create => m.threadCreate.map fun r => some r.2
  | .yield want_tid => (m.threadYield want_tid).map fun r => some r.2
  | .sleep queue => (m.threadSleep queue).map fun r => some r.2
  | .wakeup queue all => (m.threadWakeup queue all).map fun r => some r.2
  | .exit tid => (m.threadExit tid).map fun r => some r.2
  | .ret =>
    match m.exitSelf with
    | .error crash => .error crash
    | .ok none => .ok none
    | .ok (some m') =>
      (Machine.resumeWith (Machine.afterGetcontext m'.fuel) m').map fun r => some r.2

namespace Machine

/-- `thread_id`. -/
abbrev threadId (m : Machine) : Tid := (m.thread m.RUNNING_THREAD).tid

/-- The threads of the ready list and of a wait queue, in order. -/
def readyList (m : Machine) : List Nat := Library.nodes m.next m.allocated m.READY_HEAD

def waitList (m : Machine) (queue : Nat) : List Nat :=
  Library.nodes m.next m.allocated (m.queue queue).wait_head

/-- The thread to which a call switches. -/
def chosen (m : Machine) : Call → Option Nat
  | .yield want_tid =>
    if want_tid = THREAD_ANY then m.readyList.head?
    else if want_tid = THREAD_SELF ∨ want_tid = m.threadId then none
    else m.readyList.find? fun p => (m.thread p).tid == want_tid
  | .sleep (some _) => m.readyList.head?
  | .exit tid => if tid = THREAD_SELF then m.readyList.head? else none
  | .ret => m.readyList.head?
  | _ => none

end Machine

/-- Where a call that switches leaves the calling thread. -/
def Call.destination : Call → Place
  | .sleep (some q) => .waiting q
  | .exit _ => .dying
  | .ret => .dying
  | _ => .ready

/-- The thread to which the call switches looks at a freed thread. -/
def Machine.ReadsFreed (m : Machine) (call : Call) : Prop :=
  ∃ c, m.chosen call = some c ∧ m.Stale call.destination c

/-- `tid` is the identifier of a ready thread. -/
def ReadyTid (m : Machine) (tid : Tid) : Prop :=
  ∃ l, IsChain m.next m.READY_HEAD l ∧ ∃ p ∈ l, (m.thread p).tid = tid

/-- The calls by which a thread terminates at most itself. -/
def SelfOnly (m : Machine) : Call → Prop
  | .yield want_tid => want_tid = THREAD_ANY ∨ want_tid = THREAD_SELF ∨
      want_tid = (m.thread m.RUNNING_THREAD).tid ∨ ReadyTid m want_tid
  | .wakeup _ all => all = 0 ∨ all = 1
  | .exit tid => tid = THREAD_SELF
  | _ => True

/-- The calls that mark a ready thread. -/
def Marking (m : Machine) : Call → Prop
  | .exit tid => tid = THREAD_ANY ∨ ReadyTid m tid
  | _ => False

/-- Runs in which threads terminate only themselves. `malloc` does not fail, here and in the runs
with marks. -/
def selfOnly : System Machine Call where
  start m := ∃ thread, m = Machine.threadInit thread
  step m call m' := SelfOnly m call ∧ m.perform call = .ok (some m')

/-- Runs in which threads also mark ready threads. -/
def marking : System Machine Call where
  start m := ∃ thread, m = Machine.threadInit thread
  step m call m' := (SelfOnly m call ∨ Marking m call) ∧ m.perform call = .ok (some m')

/-- The mark of the running thread is not examined before it is suspended for good: a marked
thread yields to another only when there is none, and sleeps only when at most one is ready. -/
def Clean (m : Machine) : Call → Prop
  | .yield want_tid => (m.thread m.RUNNING_THREAD).flag = true → want_tid = THREAD_SELF ∨
      want_tid = (m.thread m.RUNNING_THREAD).tid ∨ m.READY_HEAD = none
  | .sleep (some _) => (m.thread m.RUNNING_THREAD).flag = true →
      ∀ temp, m.READY_HEAD = some temp → m.next temp = none
  | _ => True

/-- Every live thread stands in exactly one place, the lists are disjoint and end, and the
identifiers in use are those of exactly one live thread each. -/
structure Scheduled (m : Machine) (L : Places) : Prop where
  lists : ∀ i, IsChain m.next (m.head i) (L i)
  disjoint : Partitioned L
  running : L .running = [m.RUNNING_THREAD]
  one_place : ∀ p, m.Live p → ∃! i, i ≠ .dying ∧ p ∈ L i
  terminated : ∀ p, (m.thread p).exited = true → ∀ i, p ∈ L i → i = .dying
  in_use : ∀ t : Nat, t < THREAD_MAX_THREADS →
    (m.thread_id_array t = true ↔ ∃! p, m.Live p ∧ (m.thread p).tid = t)

variable {m m' : Machine} {L : Places} {call : Call}

theorem Rep.scheduled (rep : Rep m L) : Scheduled m L where
  lists := rep.linked.chain
  disjoint := rep.linked.partitioned
  running := rep.running
  one_place p hp := by
    obtain ⟨i, hi, hpi⟩ := (rep.live p).1 hp
    exact ⟨i, ⟨hi, hpi⟩, fun j hj => rep.linked.partitioned.unique j i p hj.2 hpi⟩
  terminated p hp i hpi := by
    by_contra hi
    have h := (rep.live_of_mem hi hpi).2
    rw [hp] at h
    cases h
  in_use t ht := by
    rw [rep.tids.in_use t ht]
    constructor
    · rintro ⟨p, hp, hpt⟩
      exact ⟨p, ⟨hp, hpt⟩, fun q hq => rep.tids.unique q p hq.1 hp (hq.2.trans hpt.symm)⟩
    · rintro ⟨p, hp, -⟩
      exact ⟨p, hp⟩

/-- Either no thread is created or none terminates. -/
def Continues (m m' : Machine) : Prop :=
  (∀ p, m'.Live p → m.Live p ∧ (m'.thread p).tid = (m.thread p).tid) ∨ ∀ p, m.Live p → m'.Live p

theorem Keeps.continues (h : Keeps m m') : Continues m m' := by
  refine .inl fun p hp => ⟨⟨h.allocated ▸ hp.1, ?_⟩, h.tid p⟩
  by_contra hexited
  have hexited' := h.exited p (by simpa using hexited)
  rw [hp.2] at hexited'
  cases hexited'

theorem ReadyTid.mem (rep : Rep m L) {tid : Tid} (h : ReadyTid m tid) :
    ∃ p ∈ L .ready, (m.thread p).tid = tid := by
  obtain ⟨l, hl, p, hp, heq⟩ := h
  rw [hl.unique (rep.linked.chain .ready)] at hp
  exact ⟨p, hp, heq⟩

/-- What a call leads to: the queues are held again, and a call by which a thread terminates at
most itself marks nobody. -/
structure Reaches (m : Machine) (call : Call) (m' : Machine) : Prop where
  rep : ∃ L', Rep m' L'
  continues : Continues m m'
  unmarked : SelfOnly m call → Unmarked m → Unmarked m'

theorem Keeps.unmarked (h : Keeps m m') (hm : Unmarked m) : Unmarked m' := fun p hp => by
  rw [h.flag, hm p (h.allocated ▸ hp)]

theorem reaches_of_keeps {L' : Places} (rep : Rep m' L') (keeps : Keeps m m') :
    Reaches m call m' :=
  ⟨⟨L', rep⟩, keeps.continues, fun _ => keeps.unmarked⟩

theorem Rep.readyList (rep : Rep m L) : m.readyList = L .ready :=
  (rep.linked.chain .ready).nodes_eq (rep.length_le .ready)

/-- The ready thread with an identifier. -/
theorem Rep.find_tid (rep : Rep m L) (hc : c ∈ L .ready) :
    (L .ready).find? (fun p => (m.thread p).tid == (m.thread c).tid) = some c := by
  obtain ⟨l, r, hready⟩ := List.append_of_mem hc
  obtain ⟨first, hfirst⟩ := rep.ready_some hc
  obtain ⟨-, hl⟩ := findReady rep hready hfirst
  rw [hready, List.find?_append, List.find?_eq_none.2 (by simpa using hl), Option.none_or,
    List.find?_cons_of_pos (by simp)]

/-- The head of the ready list is chosen. -/
theorem Rep.head?_ready (rep : Rep m L) {rest : List Nat} (h : L .ready = c :: rest) :
    m.readyList.head? = some c ∧ (L .ready).erase c = rest := by
  rw [rep.readyList, h]
  exact ⟨rfl, List.erase_cons_head ..⟩

theorem Rep.head?_nil (rep : Rep m L) (h : L .ready = []) : m.readyList.head? = none := by
  rw [rep.readyList, h]
  rfl

theorem not_readsFreed (h : m.chosen call = none) : ¬ m.ReadsFreed call := by
  rintro ⟨c, hc, -⟩
  rw [h] at hc
  cases hc

/-- A result behind a wrapper. -/
theorem map_ok {α β : Type} {r : Except Crash α} {f : α → β} {b : β} (h : r.map f = .ok b) :
    ∃ a, r = .ok a ∧ f a = b := by
  cases r with
  | error => cases h
  | ok a => exact ⟨a, rfl, Except.ok.inj h⟩

/-- The call comes back with the queues held and every thread kept, unless it ends in a thread
that looks at a freed one. -/
structure ComesBack (m : Machine) (call : Call) : Prop where
  ends : m.perform call = .error .useAfterFree ∨
    ∃ m' L', m.perform call = .ok (some m') ∧ Rep m' L' ∧ Keeps m m'
  faults : Unmarked m → (m.perform call = .error .useAfterFree ↔ m.ReadsFreed call)

theorem ComesBack.returns (h : ComesBack m call) (hr : m.perform call = .ok (some m')) :
    ∃ L', Rep m' L' ∧ Keeps m m' := by
  rcases h.ends with heq | ⟨m₁, L', heq, h⟩
  · rw [heq] at hr
    cases hr
  · rw [heq] at hr
    cases hr
    exact ⟨L', h⟩

/-- A call that is resumed elsewhere. -/
theorem comesBack_of_switches {rest : List Nat} {temp : Nat}
    {r : Except Crash (Option Tid × Machine)} (rep : Rep m L)
    (h : Switches m L call.destination rest temp r) (hc : m.chosen call = some temp)
    (hmem : temp ∈ L .ready) (hr : m.perform call = r.map fun r => some r.2) :
    ComesBack m call := by
  have hfault : m.perform call = .error .useAfterFree ↔ r = .error .useAfterFree := by
    rw [hr]
    cases r <;> simp [Except.map]
  refine ⟨?_, fun hm => ?_⟩
  · rcases h.ends with heq | ⟨v, m', L', rfl, rep', keeps, -⟩
    · exact .inl (hfault.2 heq)
    · exact .inr ⟨m', L', hr, rep', keeps⟩
  · rw [hfault, h.faults (hm temp (rep.held .ready temp hmem).1)]
    simp [Machine.ReadsFreed, hc]

theorem comesBack_stay {L' : Places} (hc : m.chosen call = none)
    (h : m.perform call = .ok (some m')) (rep' : Rep m' L') (keeps : Keeps m m') :
    ComesBack m call :=
  ⟨.inr ⟨m', L', h, rep', keeps⟩,
    fun _ => iff_of_false (fun hfault => by rw [hfault] at h; cases h) (not_readsFreed hc)⟩

theorem comesBack_self (rep : Rep m L) (hc : m.chosen call = none)
    (h : m.perform call = .ok (some m)) : ComesBack m call :=
  comesBack_stay hc h rep (Keeps.refl m)

/-- What one call comes to: the process ends, or the queues are held again, unless a freed thread
is looked at. -/
structure Performs (m : Machine) (call : Call) : Prop where
  ends : m.perform call = .error .useAfterFree ∨
    m.perform call = .ok none ∧ m.chosen call = none ∨
      ∃ m', m.perform call = .ok (some m') ∧ Reaches m call m'
  faults : Unmarked m → (m.perform call = .error .useAfterFree ↔ m.ReadsFreed call)

theorem Performs.reaches (h : Performs m call) (hr : m.perform call = .ok (some m')) :
    Reaches m call m' := by
  rcases h.ends with heq | ⟨heq, -⟩ | ⟨m₁, heq, h⟩
  · rw [heq] at hr
    cases hr
  · rw [heq] at hr
    cases hr
  · rw [heq] at hr
    cases hr
    exact h

/-- The call returns exactly when no freed thread is looked at. -/
theorem Performs.returns_iff (h : Performs m call) (hm : Unmarked m) :
    (∃ r, m.perform call = .ok r) ↔ ¬ m.ReadsFreed call := by
  rw [← h.faults hm]
  rcases h.ends with heq | ⟨heq, -⟩ | ⟨m₁, heq, -⟩ <;> simp [heq]

theorem ComesBack.performs (h : ComesBack m call) : Performs m call where
  ends := h.ends.imp_right fun ⟨m', _, heq, rep', keeps⟩ =>
    .inr ⟨m', heq, reaches_of_keeps rep' keeps⟩
  faults := h.faults

theorem performs_stay (hc : m.chosen call = none) (h : m.perform call = .ok (some m'))
    (reaches : Reaches m call m') : Performs m call :=
  ⟨.inr (.inr ⟨m', h, reaches⟩),
    fun _ => iff_of_false (fun hfault => by rw [hfault] at h; cases h) (not_readsFreed hc)⟩

theorem reaches_self (rep : Rep m L) : Reaches m call m := reaches_of_keeps rep (Keeps.refl m)

theorem perform_create (rep : Rep m L) : Performs m .create := by
  cases hid : m.assignThreadId with
  | none =>
    exact performs_stay rfl (by rw [Machine.perform, threadCreate_none hid]; rfl) (reaches_self rep)
  | some new_id =>
    obtain ⟨m', heq, rep', hallocated, hnew, hflag, hexited⟩ := threadCreate_spec rep hid
    refine performs_stay rfl (by rw [Machine.perform, heq]; rfl)
      ⟨⟨_, rep'⟩, .inr fun p hp => ?_, fun _ hm p hp => ?_⟩
    · rw [Machine.Live, hallocated, hexited p hp.1]
      exact ⟨Nat.lt_succ_of_lt hp.1, hp.2⟩
    · rw [hallocated] at hp
      rcases Nat.lt_succ_iff_lt_or_eq.1 hp with hp | rfl
      · rw [hflag p hp, hm p hp]
      · exact hnew

theorem perform_yield (rep : Rep m L) {want_tid : Tid} (allowed : SelfOnly m (.yield want_tid))
    (clean : Clean m (.yield want_tid)) : ComesBack m (.yield want_tid) := by
  by_cases hany : want_tid = THREAD_ANY
  · subst hany
    cases hready : L .ready with
    | nil =>
      exact comesBack_self rep (rep.head?_nil hready)
        (by rw [Machine.perform, threadYield_any_nil rep hready]; rfl)
    | cons temp rest =>
      refine comesBack_of_switches rep (threadYield_any rep hready ?_) (rep.head?_ready hready).1
        (by rw [hready]; exact List.mem_cons_self) rfl
      by_contra hflag
      have hown := (tid_ne (live_tid rep (by decide) rep.mem_running).1).1
      rcases clean (by simpa using hflag) with h | h | h
      · exact absurd h (by decide)
      · exact absurd h.symm hown
      · rw [rep.head_ready hready] at h
        cases h
  by_cases hself : want_tid = THREAD_SELF ∨ want_tid = (m.thread m.RUNNING_THREAD).tid
  · exact comesBack_stay (by rw [Machine.chosen, if_neg hany, if_pos hself])
      (by rw [Machine.perform, threadYield_self hany hself]; rfl)
      (rep.setState_running .recover) (keeps_setState m _ _)
  · have hready : ReadyTid m want_tid := by
      rw [not_or] at hself
      rcases allowed with h | h | h | h
      · exact absurd h hany
      · exact absurd h hself.1
      · exact absurd h hself.2
      · exact h
    obtain ⟨p, hp, rfl⟩ := hready.mem rep
    have hflag : (m.thread m.RUNNING_THREAD).flag = false := by
      by_contra hflag
      rcases clean (by simpa using hflag) with h | h | h
      · exact hself (.inl h)
      · exact hself (.inr h)
      · rw [rep.ready_nil.1 h] at hp
        cases hp
    obtain ⟨rest, -, -, hswitch⟩ := threadYield_tid rep hp hflag
    have hc : m.chosen (.yield (m.thread p).tid) = some p := by
      rw [Machine.chosen, if_neg hany, if_neg hself, rep.readyList]
      exact rep.find_tid hp
    exact comesBack_of_switches rep hswitch hc hp rfl

theorem perform_sleep (rep : Rep m L) {queue : Option Nat} (clean : Clean m (.sleep queue)) :
    ComesBack m (.sleep queue) := by
  cases queue with
  | none => exact comesBack_self rep rfl rfl
  | some q =>
    cases hready : L .ready with
    | nil =>
      exact comesBack_self rep (rep.head?_nil hready)
        (by rw [Machine.perform, threadSleep_nil rep hready]; rfl)
    | cons temp rest =>
      refine comesBack_of_switches rep (threadSleep_cons rep hready (fun hflag => ?_) q)
        (rep.head?_ready hready).1 (by rw [hready]; exact List.mem_cons_self) rfl
      have hnext := clean hflag temp (rep.head_ready hready)
      have hchain := rep.linked.chain .ready
      rw [hready, IsChain.cons_iff, hnext] at hchain
      cases rest with
      | nil => rfl
      | cons => cases hchain.2

theorem perform_wakeup (rep : Rep m L) {queue : Option Nat} {all : Int} (hall : all = 0 ∨ all = 1) :
    ComesBack m (.wakeup queue all) := by
  cases queue with
  | none => exact comesBack_self rep rfl rfl
  | some q =>
    obtain ⟨v, m', heq, rep', keeps⟩ := threadWakeup_spec rep q hall
    exact comesBack_stay rfl (by rw [Machine.perform, heq]; rfl) rep' keeps

/-- Marking a thread keeps the queues and the live threads. -/
theorem reaches_mark (rep : Rep m L) (p : Nat) {tid : Tid} (htid : tid ≠ THREAD_SELF) :
    Reaches m (.exit tid) (m.modify p fun t => { t with flag := true }) :=
  ⟨⟨L, rep.mark p⟩, .inr fun q hq => ⟨hq.1, by
    rw [modify_field (f := fun t => { t with flag := true }) Thread.exited fun _ => rfl]
    exact hq.2⟩, fun h => absurd h htid⟩

theorem perform_exit_self (rep : Rep m L) : ComesBack m (.exit THREAD_SELF) := by
  cases hready : L .ready with
  | nil =>
    refine comesBack_self rep ?_ ?_
    · rw [Machine.chosen, if_pos rfl]
      exact rep.head?_nil hready
    · rw [Machine.perform, Machine.threadExit, if_pos rfl, exitSelf_nil rep hready]
      rfl
  | cons temp rest =>
    obtain ⟨m₁, hexit, hswitch⟩ := exit_resume rep hready
    refine comesBack_of_switches rep hswitch ?_ (by rw [hready]; exact List.mem_cons_self) ?_
    · rw [Machine.chosen, if_pos rfl]
      exact (rep.head?_ready hready).1
    · rw [Machine.perform, Machine.threadExit, if_pos rfl, hexit]

theorem perform_exit (rep : Rep m L) {tid : Tid}
    (allowed : SelfOnly m (.exit tid) ∨ Marking m (.exit tid)) : Performs m (.exit tid) := by
  have hother : ∀ {tid : Tid}, tid ≠ THREAD_SELF → m.chosen (.exit tid) = none :=
    fun h => if_neg h
  rcases allowed with rfl | rfl | h
  · exact (perform_exit_self rep).performs
  · cases hready : L .ready with
    | nil =>
      exact performs_stay (hother (by decide))
        (by rw [Machine.perform, threadExit_any_nil rep hready]; rfl) (reaches_self rep)
    | cons temp rest =>
      exact performs_stay (hother (by decide))
        (by rw [Machine.perform, threadExit_any_cons rep hready]; rfl)
        (reaches_mark rep temp (by decide))
  · obtain ⟨p, hp, rfl⟩ := h.mem rep
    have hself := (tid_ne (live_tid rep (by decide) hp).1).2
    exact performs_stay (hother hself) (by rw [Machine.perform, threadExit_tid rep hp]; rfl)
      (reaches_mark rep p hself)

theorem perform_ret (rep : Rep m L) : m.perform .ret = .ok none ∧ m.chosen .ret = none ∨
    ComesBack m .ret := by
  cases hready : L .ready with
  | nil =>
    exact .inl ⟨by rw [Machine.perform, exitSelf_nil rep hready], rep.head?_nil hready⟩
  | cons temp rest =>
    obtain ⟨m₁, hexit, hswitch⟩ := exit_resume rep hready
    refine .inr (comesBack_of_switches rep hswitch (rep.head?_ready hready).1
      (by rw [hready]; exact List.mem_cons_self) ?_)
    rw [Machine.perform, hexit]

/-- One call from a machine that holds its queues. -/
theorem perform_spec (rep : Rep m L) (allowed : SelfOnly m call ∨ Marking m call)
    (clean : Clean m call) : Performs m call := by
  cases call with
  | create => exact perform_create rep
  | yield want_tid => exact (perform_yield rep (allowed.resolve_right id) clean).performs
  | sleep queue => exact (perform_sleep rep clean).performs
  | wakeup queue all => exact (perform_wakeup rep (allowed.resolve_right id)).performs
  | exit tid => exact perform_exit rep allowed
  | ret =>
    rcases perform_ret rep with ⟨hnone, hc⟩ | hback
    · exact ⟨.inr (.inl ⟨hnone, hc⟩),
        fun _ => iff_of_false (fun h => by rw [h] at hnone; cases hnone) (not_readsFreed hc)⟩
    · exact hback.performs

theorem clean_of_flag (h : (m.thread m.RUNNING_THREAD).flag = false) : Clean m call := by
  cases call with
  | yield want_tid => exact fun hflag => by rw [h] at hflag; cases hflag
  | sleep queue =>
    cases queue with
    | none => trivial
    | some q => exact fun hflag => by rw [h] at hflag; cases hflag
  | _ => trivial

theorem clean_of_unmarked (rep : Rep m L) (hm : Unmarked m) : Clean m call :=
  clean_of_flag (hm _ (rep.held .running _ rep.mem_running).1)

/-- After `thread_init` the initial thread runs alone. -/
theorem rep_threadInit (thread : Nat → Thread) :
    Rep (Machine.threadInit thread) fun i => if i = .running then [0] else [] := by
  have hself : (Machine.threadInit thread).thread 0 =
      ⟨.stub, 0, .new, none, false, false, false⟩ := by
    rw [Machine.threadInit]
    dsimp only
    exact Function.update_self ..
  have hlive : ∀ p, (Machine.threadInit thread).Live p ↔ p = 0 := by
    intro p
    constructor
    · intro hp
      exact Nat.lt_one_iff.1 hp.1
    · rintro rfl
      exact ⟨Nat.one_pos, by rw [hself]⟩
  have hmem : ∀ i p, p ∈ (if i = Place.running then [0] else []) → i = .running ∧ p = 0 := by
    intro i p hp
    by_cases hi : i = .running
    · rw [if_pos hi, List.mem_singleton] at hp
      exact ⟨hi, hp⟩
    · rw [if_neg hi] at hp
      cases hp
  refine ⟨⟨fun i => ?_, fun i => ?_, fun i j p hi hj => ?_⟩, rfl, fun p => ?_, fun i p hp => ?_,
    fun i p hp hr => absurd (hmem i p hp).1 hr, fun q => ?_, fun p hp => ?_, fun p q hp hq _ => ?_,
    fun t ht => ?_⟩
  · by_cases hi : i = .running
    · subst hi
      rw [if_pos rfl, IsChain.cons_iff, IsChain.nil_iff, Machine.next, hself]
      exact ⟨rfl, rfl⟩
    · rw [if_neg hi, IsChain.nil_iff]
      cases i <;> first | rfl | exact absurd rfl hi
  · by_cases hi : i = .running <;> simp [hi]
  · rw [(hmem i p hi).1, (hmem j p hj).1]
  · rw [hlive]
    constructor
    · rintro rfl
      exact ⟨.running, by decide, by simp⟩
    · rintro ⟨i, -, hp⟩
      exact (hmem i p hp).2
  · obtain ⟨-, rfl⟩ := hmem i p hp
    exact ⟨Nat.one_pos, by rw [hself]⟩
  · rw [if_neg (by simp)]
    exact Int.le_refl 0
  · rw [(hlive p).1 hp, hself]
    decide
  · rw [(hlive p).1 hp, (hlive q).1 hq]
  · have harray : (Machine.threadInit thread).thread_id_array =
        Function.update (fun _ => false) 0 true := rfl
    rw [harray]
    by_cases h : t = 0
    · subst h
      refine iff_of_true rfl ⟨0, (hlive 0).2 rfl, by rw [hself]; rfl⟩
    · rw [Function.update_of_ne h]
      refine iff_of_false Bool.false_ne_true ?_
      rintro ⟨p, hp, hpt⟩
      rw [(hlive p).1 hp, hself] at hpt
      exact h (Int.ofNat.inj hpt).symm

theorem unmarked_threadInit (thread : Nat → Thread) : Unmarked (Machine.threadInit thread) := by
  intro p hp
  rw [Nat.lt_one_iff.1 hp]
  rfl

/-- In every run in which threads terminate only themselves the queues are held and no thread is
marked. -/
theorem selfOnly_rep {calls : List Call} (run : selfOnly.Run calls m) :
    (∃ L, Rep m L) ∧ Unmarked m := by
  refine run.invariant_state (I := fun m => (∃ L, Rep m L) ∧ Unmarked m) ?_ ?_
  · rintro m ⟨thread, rfl⟩
    exact ⟨⟨_, rep_threadInit thread⟩, unmarked_threadInit thread⟩
  · rintro m call m' ⟨⟨L, rep⟩, hm⟩ ⟨hself, hstep⟩
    have hreach := (perform_spec rep (.inl hself) (clean_of_unmarked rep hm)).reaches hstep
    exact ⟨hreach.rep, hreach.unmarked hself hm⟩

/-- Every reachable state is scheduled, every call comes back but where a freed thread is looked
at, and a new thread has the least identifier that is not in use. -/
theorem scheduler_partition {calls : List Call} (run : selfOnly.Run calls m) :
    (∃ L, Scheduled m L) ∧
      (∀ call, SelfOnly m call → ((∃ r, m.perform call = .ok r) ↔ ¬ m.ReadsFreed call)) ∧
      ∃ v m', m.threadCreate = .ok (v, m') ∧
        (v = THREAD_NOMORE ↔ ∀ t < THREAD_MAX_THREADS, m.thread_id_array t = true) ∧
        (v ≠ THREAD_NOMORE → ∃ t : Nat, v = t ∧ t < THREAD_MAX_THREADS ∧
          m.thread_id_array t = false ∧ ∀ s < t, m.thread_id_array s = true) := by
  obtain ⟨⟨L, rep⟩, hm⟩ := selfOnly_rep run
  refine ⟨⟨L, rep.scheduled⟩, fun call hself => ?_, ?_⟩
  · exact (perform_spec rep (.inl hself) (clean_of_unmarked rep hm)).returns_iff hm
  · cases hid : m.assignThreadId with
    | none =>
      exact ⟨_, _, threadCreate_none hid, iff_of_true rfl (assignThreadId_none.1 hid),
        fun h => absurd rfl h⟩
    | some new_id =>
      obtain ⟨hlt, hfree, hleast⟩ := assignThreadId_some hid
      obtain ⟨m', heq, -⟩ := threadCreate_spec rep hid
      have hne : (new_id : Tid) ≠ THREAD_NOMORE := fun h => by cases h
      refine ⟨_, m', heq, iff_of_false hne fun h => ?_, fun _ => ⟨new_id, rfl, hlt, hfree, hleast⟩⟩
      rw [h new_id hlt] at hfree
      cases hfree

/-- The machine after a call that comes back. -/
def Machine.after (m : Machine) (call : Call) : Machine :=
  match m.perform call with
  | .ok (some m') => m'
  | _ => m

/-- The call comes back. -/
def Machine.returns (m : Machine) (call : Call) : Bool :=
  match m.perform call with
  | .ok (some _) => true
  | _ => false

theorem perform_after (h : m.returns call = true) : m.perform call = .ok (some (m.after call)) := by
  unfold Machine.returns at h
  unfold Machine.after
  split at h
  · rename_i m' heq
    rw [heq]
  · cases h

/-- `thread_init` in memory that holds no thread yet. -/
def initial : Machine :=
  Machine.threadInit fun _ => ⟨.stub, 0, .new, none, false, true, false⟩

theorem selfOnly_next (call : Call) {calls : List Call} (run : selfOnly.Run calls m)
    (h : SelfOnly m call) (returns : m.returns call = true) :
    selfOnly.Run (calls ++ [call]) (m.after call) :=
  run.next ⟨h, perform_after returns⟩

/-- A thread is created, yielded to and returns. -/
theorem scheduler_partition_return :
    ∃ L, Scheduled (((initial.after .create).after (.yield THREAD_ANY)).after .ret) L := by
  have created := selfOnly_next .create (.start ⟨_, rfl⟩ : selfOnly.Run [] initial) trivial
    (by decide +kernel)
  have yielded := selfOnly_next (.yield THREAD_ANY) created (.inl rfl) (by decide +kernel)
  have returned := selfOnly_next .ret yielded trivial (by decide +kernel)
  exact (scheduler_partition returned).1

/-- In every run whose calls are clean the queues are held. -/
theorem marking_rep {calls : List Call} (run : (marking.restrict Clean).Run calls m) :
    ∃ L, Rep m L := by
  refine run.invariant_state (I := fun m => ∃ L, Rep m L) ?_ ?_
  · rintro m ⟨thread, rfl⟩
    exact ⟨_, rep_threadInit thread⟩
  · rintro m call m' ⟨L, rep⟩ ⟨⟨allowed, hstep⟩, clean⟩
    exact ((perform_spec rep allowed clean).reaches hstep).rep

/-- When a call is clean, a thread that terminates in it frees its identifier. -/
theorem tid_free_of_exit {L' : Places} {p : Nat} (rep : Rep m L) (rep' : Rep m' L')
    (continues : Continues m m') (hp : m.Live p) (exited : (m'.thread p).exited = true) :
    m'.thread_id_array (m.thread p).tid.toNat = false := by
  have hgone : ¬ m'.Live p := by
    rintro ⟨-, h⟩
    rw [exited] at h
    cases h
  rcases continues with hold | hkept
  · obtain ⟨h₀, h₁⟩ := rep.tids.bound p hp
    by_contra hused
    obtain ⟨q, hq, hqt⟩ := (rep'.tids.in_use _ ((Int.toNat_lt h₀).2 h₁)).1 (by simpa using hused)
    obtain ⟨hq', htid⟩ := hold q hq
    have heq : q = p := by
      refine rep.tids.unique q p hq' hp ?_
      rw [← htid, hqt]
      exact Int.toNat_of_nonneg h₀
    exact hgone (heq ▸ hq)
  · exact absurd (hkept p hp) hgone

/-- In every run in which no mark is examined too early, every state reached is scheduled, and a
thread that terminates frees its identifier and stands in no list but that of the threads to
delete. -/
theorem marked_exit_of_clean {calls : List Call} (run : (marking.restrict Clean).Run calls m) :
    (∃ L, Scheduled m L) ∧ ∀ call m', (marking.restrict Clean).step m call m' →
      ∀ p, m.Live p → (m'.thread p).exited = true →
        m'.thread_id_array (m.thread p).tid.toNat = false ∧
        ∃ L, Scheduled m' L ∧ ∀ i, p ∈ L i → i = .dying := by
  obtain ⟨L, rep⟩ := marking_rep run
  refine ⟨⟨L, rep.scheduled⟩, fun call m' ⟨⟨allowed, hstep⟩, clean⟩ p hp hexited => ?_⟩
  have hreach := (perform_spec rep allowed clean).reaches hstep
  obtain ⟨L', rep'⟩ := hreach.rep
  exact ⟨tid_free_of_exit rep rep' hreach.continues hp hexited, L', rep'.scheduled,
    rep'.scheduled.terminated p hexited⟩

theorem marking_next (call : Call) {calls : List Call} (run : marking.Run calls m)
    (h : SelfOnly m call ∨ Marking m call) (returns : m.returns call = true) :
    marking.Run (calls ++ [call]) (m.after call) :=
  run.next ⟨h, perform_after returns⟩

theorem clean_next (call : Call) {calls : List Call} (run : (marking.restrict Clean).Run calls m)
    (h : SelfOnly m call ∨ Marking m call) (flag : (m.thread m.RUNNING_THREAD).flag = false)
    (returns : m.returns call = true) :
    (marking.restrict Clean).Run (calls ++ [call]) (m.after call) :=
  run.next ⟨⟨h, perform_after returns⟩, clean_of_flag flag⟩

/-- A thread is created, yields back, is marked and terminates when it is resumed. -/
theorem marked_exit_resumed : ∃ L, Scheduled (((((initial.after .create).after
    (.yield THREAD_ANY)).after (.yield THREAD_ANY)).after (.exit THREAD_ANY)).after
      (.yield THREAD_ANY)) L := by
  have created := clean_next .create
    (.start ⟨_, rfl⟩ : (marking.restrict Clean).Run [] initial) (.inl trivial)
    (by decide +kernel) (by decide +kernel)
  have first := clean_next (.yield THREAD_ANY) created (.inl (.inl rfl)) (by decide +kernel)
    (by decide +kernel)
  have back := clean_next (.yield THREAD_ANY) first (.inl (.inl rfl)) (by decide +kernel)
    (by decide +kernel)
  have marked := clean_next (.exit THREAD_ANY) back (.inr (.inl rfl)) (by decide +kernel)
    (by decide +kernel)
  have resumed := clean_next (.yield THREAD_ANY) marked (.inl (.inl rfl)) (by decide +kernel)
    (by decide +kernel)
  exact (marked_exit_of_clean resumed).1

set_option maxRecDepth 20000 in
/-- A thread marked before it ever ran yields: the thread it yields to is lost. -/
theorem marked_yield_loses : ¬ ∀ calls m, marking.Run calls m → ∃ L, Scheduled m L := by
  intro h
  have created := marking_next .create (.start ⟨_, rfl⟩ : marking.Run [] initial) (.inl trivial)
    (by decide +kernel)
  have marked := marking_next (.exit THREAD_ANY) created (.inr (.inl rfl)) (by decide +kernel)
  have first := marking_next (.yield THREAD_ANY) marked (.inl (.inl rfl)) (by decide +kernel)
  have lost := marking_next (.yield THREAD_ANY) first (.inl (.inl rfl)) (by decide +kernel)
  obtain ⟨L, scheduled⟩ := h _ _ lost
  -- the initial thread is live, but no list is left that could hold it
  obtain ⟨i, ⟨hi, hp⟩, -⟩ := scheduled.one_place 0 ⟨by decide +kernel, by decide +kernel⟩
  have hlist := scheduled.lists i
  cases i with
  | running =>
    rw [scheduled.running, List.mem_singleton] at hp
    exact absurd hp (by decide +kernel)
  | ready =>
    have hnil := hlist.unique (m := []) (IsChain.nil_iff.2 (by decide +kernel))
    rw [hnil] at hp
    cases hp
  | waiting q =>
    have hnil := hlist.unique (m := []) (IsChain.nil_iff.2 (by rfl))
    rw [hnil] at hp
    cases hp
  | dying => exact hi rfl

end Ece344Lab.Threads
