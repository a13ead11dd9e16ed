import Ece344Lab.Threads.Arguments

/-!
# One call as one step of the queues

Without marks every call is one step of an abstract scheduler: a switch to the thread it chooses,
a new thread, a wakeup, or nothing. The thread that runs afterwards returns from the call in
which it was suspended, with the value that this call saved.
-/
namespace Ece344Lab.Threads

open Library (System IsChain)

/-- What a resumed call returns; `none` for a thread that starts. -/
def Context.value : Context → Option Tid
  | .stub => none
  | .switched returned_tid _ => some returned_tid

namespace Machine

/-- A call with the value it gives to the thread that runs afterwards; `none` when the process has
ended. -/
def invoke (m : Machine) : Call → Except Crash (Option (Option Tid × Machine))
  | .create => m.threadCreate.map fun r => some (some r.1, r.2)
  | .yield want_tid => (m.threadYield want_tid).map some
  | .sleep queue => (m.threadSleep queue).map some
  | .wakeup queue all => (m.threadWakeup queue all).map fun r => some (some r.1, r.2)
  | .exit tid => (m.threadExit tid).map some
  | .ret =>
    match m.exitSelf with
    | .error crash => .error crash
    | .ok none => .ok none
    | .ok (some m') => (resumeWith (afterGetcontext m'.fuel) m').map some

end Machine

/-- The queues after a call that does not switch. -/
def stayed (L : Places) (m : Machine) : Call → Places
  | .create => if m.assignThreadId.isSome then entered L m.allocated else L
  | .wakeup (some q) all => if all = 0 ∨ all = 1 then wakes L q all else L
  | _ => L

/-- The calls by which a thread terminates at most itself. -/
def SelfExit : Call → Prop
  | .exit tid => tid = THREAD_SELF
  | _ => True

/-- The queues after a call. -/
def stepped (L : Places) (m : Machine) (call : Call) : Places :=
  match m.chosen call with
  | some c => switched L call.destination ((L .ready).erase c) m.RUNNING_THREAD c
  | none => stayed L m call

variable {m m' : Machine} {L L' : Places} {call : Call} {v : Option Tid} {c : Nat}

theorem Rep.waitList (rep : Rep m L) (q : Nat) : m.waitList q = L (.waiting q) :=
  (rep.linked.chain (.waiting q)).nodes_eq (rep.length_le (.waiting q))

theorem stepped_chosen (h : m.chosen call = some c) :
    stepped L m call = switched L call.destination ((L .ready).erase c) m.RUNNING_THREAD c := by
  rw [stepped, h]

theorem stepped_none (h : m.chosen call = none) : stepped L m call = stayed L m call := by
  rw [stepped, h]

/-- `perform` is `invoke` without the value. -/
theorem perform_invoke (m : Machine) (call : Call) :
    m.perform call = (m.invoke call).map (Option.map Prod.snd) := by
  cases call with
  | create => rw [Machine.perform, Machine.invoke]; cases m.threadCreate <;> rfl
  | yield want_tid => rw [Machine.perform, Machine.invoke]; cases m.threadYield want_tid <;> rfl
  | sleep queue => rw [Machine.perform, Machine.invoke]; cases m.threadSleep queue <;> rfl
  | wakeup queue all =>
    rw [Machine.perform, Machine.invoke]
    cases m.threadWakeup queue all <;> rfl
  | exit tid => rw [Machine.perform, Machine.invoke]; cases m.threadExit tid <;> rfl
  | ret =>
    rw [Machine.perform, Machine.invoke]
    cases m.exitSelf with
    | error crash => rfl
    | ok r =>
      cases r with
      | none => rfl
      | some m₁ =>
        dsimp only
        cases Machine.resumeWith (Machine.afterGetcontext m₁.fuel) m₁ <;> rfl

/-- The machine after a call holds the queues of the abstract step, and marks nobody. -/
structure Steps (m : Machine) (L : Places) (call : Call) (m' : Machine) (L' : Places) : Prop where
  rep : Rep m' L'
  unmarked : Unmarked m'
  queues : SameQueues (stepped L m call) L'

/-- A call that leaves every thread in its place. -/
theorem steps_stay (rep' : Rep m' L) (keeps : Keeps m m') (hm : Unmarked m)
    (hc : m.chosen call = none) (hstay : stayed L m call = L) : Steps m L call m' L where
  rep := rep'
  unmarked := keeps.unmarked hm
  queues i _ := by rw [stepped_none hc, hstay]

theorem steps_switch (rep : Rep m L) (hm : Unmarked m) (hc : m.chosen call = some c)
    (hmem : c ∈ L .ready) {r : Except Crash (Option Tid × Machine)}
    (h : Switches m L call.destination ((L .ready).erase c) c r) (hr : r = .ok (v, m')) :
    ∃ L', Steps m L call m' L' := by
  obtain ⟨L', rep', keeps, hsame⟩ := h.returns hr
  refine ⟨L', rep', keeps.unmarked hm, ?_⟩
  rw [stepped_chosen hc]
  exact hsame (hm c (rep.held .ready c hmem).1)

theorem steps_create (rep : Rep m L) (hm : Unmarked m) {n : Tid}
    (h : m.threadCreate = .ok (n, m')) : ∃ L', Steps m L .create m' L' := by
  cases hid : m.assignThreadId with
  | none =>
    rw [threadCreate_none hid] at h
    cases h
    exact ⟨L, steps_stay rep (Keeps.refl m) hm rfl (by rw [stayed, hid]; rfl)⟩
  | some new_id =>
    obtain ⟨m₁, heq, rep', hallocated, hnew, hflag, -⟩ := threadCreate_spec rep hid
    rw [heq] at h
    cases h
    refine ⟨_, rep', fun p hp => ?_, fun i _ => by rw [stepped_none rfl, stayed, hid]; rfl⟩
    rw [hallocated] at hp
    rcases Nat.lt_succ_iff_lt_or_eq.1 hp with hp | rfl
    · rw [hflag p hp, hm p hp]
    · exact hnew

theorem steps_yield (rep : Rep m L) (hm : Unmarked m) {want_tid : Tid}
    (h : m.threadYield want_tid = .ok (v, m')) : ∃ L', Steps m L (.yield want_tid) m' L' := by
  have hflag := hm _ (rep.held .running _ rep.mem_running).1
  by_cases hany : want_tid = THREAD_ANY
  · subst hany
    cases hready : L .ready with
    | nil =>
      have hc : m.chosen (.yield THREAD_ANY) = none := rep.head?_nil hready
      rw [threadYield_any_nil rep hready] at h
      cases h
      exact ⟨L, steps_stay rep (Keeps.refl m) hm hc rfl⟩
    | cons c rest =>
      obtain ⟨hc, herase⟩ := rep.head?_ready hready
      have hswitch := threadYield_any rep hready hflag
      rw [← herase] at hswitch
      exact steps_switch rep hm hc (by rw [hready]; exact List.mem_cons_self) hswitch h
  by_cases hself : want_tid = THREAD_SELF ∨ want_tid = m.threadId
  · have hc : m.chosen (.yield want_tid) = none := by
      rw [Machine.chosen, if_neg hany, if_pos hself]
    rw [threadYield_self hany hself] at h
    cases h
    exact ⟨L, steps_stay (rep.setState_running .recover) (keeps_setState m _ _) hm hc rfl⟩
  have hc : m.chosen (.yield want_tid) =
      (L .ready).find? fun p => (m.thread p).tid == want_tid := by
    rw [Machine.chosen, if_neg hany, if_neg hself, rep.readyList]
  by_cases hfound : ∃ p ∈ L .ready, (m.thread p).tid = want_tid
  · obtain ⟨p, hp, rfl⟩ := hfound
    rw [rep.find_tid hp] at hc
    obtain ⟨rest, -, herase, hswitch⟩ := threadYield_tid rep hp hflag
    rw [herase] at hswitch
    exact steps_switch rep hm hc hp hswitch h
  · have hnone : (L .ready).find? (fun p => (m.thread p).tid == want_tid) = none := by
      rw [List.find?_eq_none]
      intro p hp heq
      exact hfound ⟨p, hp, by simpa using heq⟩
    have heq := threadYield_absent rep hany hself hfound h
    exact ⟨L, steps_stay (heq ▸ rep) (heq ▸ Keeps.refl m) hm (hc.trans hnone) rfl⟩

theorem steps_sleep (rep : Rep m L) (hm : Unmarked m) {queue : Option Nat}
    (h : m.threadSleep queue = .ok (v, m')) : ∃ L', Steps m L (.sleep queue) m' L' := by
  have hflag := hm _ (rep.held .running _ rep.mem_running).1
  cases queue with
  | none =>
    cases h
    exact ⟨L, steps_stay rep (Keeps.refl m) hm rfl rfl⟩
  | some q =>
    cases hready : L .ready with
    | nil =>
      have hc : m.chosen (.sleep (some q)) = none := rep.head?_nil hready
      rw [threadSleep_nil rep hready] at h
      cases h
      exact ⟨L, steps_stay rep (Keeps.refl m) hm hc rfl⟩
    | cons c rest =>
      obtain ⟨hc, herase⟩ := rep.head?_ready hready
      have hswitch := threadSleep_cons rep hready (fun hf => by rw [hflag] at hf; cases hf) q
      rw [← herase] at hswitch
      exact steps_switch rep hm hc (by rw [hready]; exact List.mem_cons_self) hswitch h

/-- `thread_wakeup` with another value of `all`. -/
theorem threadWakeup_other {q : Nat} {all : Int} (hall : ¬ (all = 0 ∨ all = 1)) :
    m.threadWakeup (some q) all = .ok (0, m) := by
  rw [not_or] at hall
  cases hhead : (m.queue q).wait_head <;>
    simp only [Machine.threadWakeup, hhead, if_neg hall.1, if_neg hall.2]

theorem steps_wakeup (rep : Rep m L) (hm : Unmarked m) {queue : Option Nat} {all n : Int}
    (h : m.threadWakeup queue all = .ok (n, m')) : ∃ L', Steps m L (.wakeup queue all) m' L' := by
  cases queue with
  | none =>
    cases h
    exact ⟨L, steps_stay rep (Keeps.refl m) hm rfl rfl⟩
  | some q =>
    have hc : m.chosen (.wakeup (some q) all) = none := rfl
    by_cases hall : all = 0 ∨ all = 1
    · obtain ⟨n', m₁, heq, rep', keeps⟩ := threadWakeup_spec rep q hall
      rw [heq] at h
      cases h
      refine ⟨_, rep', keeps.unmarked hm, fun i _ => ?_⟩
      rw [stepped_none hc, stayed, if_pos hall]
    · rw [threadWakeup_other hall] at h
      cases h
      exact ⟨L, steps_stay rep (Keeps.refl m) hm hc (by rw [stayed, if_neg hall])⟩

/-- The calling thread terminates. -/
theorem steps_leave (rep : Rep m L) (hm : Unmarked m) {rest : List Nat}
    (hready : L .ready = c :: rest) (hc : m.chosen call = some c)
    (hd : call.destination = .dying) {m₁ : Machine} (hexit : m.exitSelf = .ok (some m₁))
    (h : Machine.resumeWith (Machine.afterGetcontext m₁.fuel) m₁ = .ok (v, m')) :
    ∃ L', Steps m L call m' L' := by
  obtain ⟨m₂, hexit', hswitch⟩ := exit_resume rep hready
  rw [hexit'] at hexit
  cases hexit
  obtain ⟨L', rep', keeps, hsame⟩ := hswitch.returns h
  have hmem : c ∈ L .ready := by rw [hready]; exact List.mem_cons_self
  refine ⟨L', rep', keeps.unmarked hm, ?_⟩
  rw [stepped_chosen hc, hd, (rep.head?_ready hready).2]
  exact hsame (hm c (rep.held .ready c hmem).1)

theorem steps_exit (rep : Rep m L) (hm : Unmarked m)
    (h : m.threadExit THREAD_SELF = .ok (v, m')) : ∃ L', Steps m L (.exit THREAD_SELF) m' L' := by
  rw [Machine.threadExit, if_pos rfl] at h
  cases hready : L .ready with
  | nil =>
    have hc : m.chosen (.exit THREAD_SELF) = none := by
      rw [Machine.chosen, if_pos rfl]
      exact rep.head?_nil hready
    rw [exitSelf_nil rep hready] at h
    cases h
    exact ⟨L, steps_stay rep (Keeps.refl m) hm hc rfl⟩
  | cons c rest =>
    have hc : m.chosen (.exit THREAD_SELF) = some c := by
      rw [Machine.chosen, if_pos rfl]
      exact (rep.head?_ready hready).1
    obtain ⟨m₁, hexit, -⟩ := exit_resume rep hready
    rw [hexit] at h
    exact steps_leave rep hm hready hc rfl hexit h

theorem steps_ret (rep : Rep m L) (hm : Unmarked m) (h : m.invoke .ret = .ok (some (v, m'))) :
    ∃ L', Steps m L .ret m' L' := by
  rw [Machine.invoke] at h
  cases hready : L .ready with
  | nil =>
    rw [exitSelf_nil rep hready] at h
    cases h
  | cons c rest =>
    obtain ⟨m₁, hexit, -⟩ := exit_resume rep hready
    rw [hexit] at h
    dsimp only at h
    have hc : m.chosen .ret = some c := by
      rw [Machine.chosen]
      exact (rep.head?_ready hready).1
    have hd : Call.ret.destination = .dying := rfl
    cases hres : Machine.resumeWith (Machine.afterGetcontext m₁.fuel) m₁ with
    | error crash => rw [hres] at h; cases h
    | ok r =>
      rw [hres] at h
      obtain ⟨v', m₂⟩ := r
      have heq : (some (v', m₂) : Option (Option Tid × Machine)) = some (v, m') := Except.ok.inj h
      cases heq
      exact steps_leave rep hm hready hc hd hexit hres

/-- A call that marks no thread takes the step of the abstract scheduler. -/
theorem invoke_steps (rep : Rep m L) (hm : Unmarked m) (h : m.invoke call = .ok (some (v, m')))
    (self : SelfExit call) : ∃ L', Steps m L call m' L' := by
  cases call with
  | create =>
    rw [Machine.invoke] at h
    obtain ⟨a, heq, ha⟩ := map_ok h
    cases ha
    exact steps_create rep hm heq
  | yield want_tid =>
    rw [Machine.invoke] at h
    obtain ⟨a, heq, ha⟩ := map_ok h
    cases ha
    exact steps_yield rep hm heq
  | sleep queue =>
    rw [Machine.invoke] at h
    obtain ⟨a, heq, ha⟩ := map_ok h
    cases ha
    exact steps_sleep rep hm heq
  | wakeup queue all =>
    rw [Machine.invoke] at h
    obtain ⟨a, heq, ha⟩ := map_ok h
    cases ha
    exact steps_wakeup rep hm heq
  | exit tid =>
    obtain rfl : tid = THREAD_SELF := self
    rw [Machine.invoke] at h
    obtain ⟨a, heq, ha⟩ := map_ok h
    cases ha
    exact steps_exit rep hm heq
  | ret => exact steps_ret rep hm h

end Ece344Lab.Threads
