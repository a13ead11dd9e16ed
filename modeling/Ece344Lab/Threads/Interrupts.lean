import Ece344Lab.Threads.Arguments

/-!
# The interrupt state of the calls

Each call disables interrupts and is to leave them as it found them. A call that switches does so
when its thread is resumed, from the local variable `enabled` of that thread; a new thread enables
them in `thread_stub`. A handled signal is the call `thread_yield(THREAD_ANY)` of the thread that
it interrupts.
-/
namespace Ece344Lab.Threads

open Library (System)

def THREAD_NOMEMORY : Tid := -6

/-- The library with the interrupt state, and the `enabled` of each suspended call. -/
structure Cpu where
  machine : Machine
  enabled : Bool
  saved : Nat → Bool

namespace Cpu

/-- A return without `interrupts_set(enabled)`. -/
def off (c : Cpu) : Cpu := { c with enabled := false }

/-- The machine after a switch, in the thread that runs. -/
def comeBack (saved : Nat → Bool) (r : Option Tid × Machine) : Option Tid × Cpu :=
  (r.1, {
    machine := r.2
    enabled := if r.1 = none then true else saved r.2.RUNNING_THREAD
    saved := saved })

/-- `thread_create`; `block` and `stack` say whether the two calls of `malloc` return memory. -/
def threadCreate (c : Cpu) (block stack : Bool) : Except Crash (Option Tid × Cpu) :=
  match c.machine.assignThreadId with
  | none => .ok (some THREAD_NOMORE, c.off)
  | some new_id =>
    if block = false then .ok (some THREAD_NOMEMORY, c.off)
    else if stack = false then
      .ok (some THREAD_NOMEMORY, { c.off with machine := withNew c.machine new_id })
    else (c.machine.threadCreate).map fun r => (some r.1, { c with machine := r.2 })

def threadYield (c : Cpu) (want_tid : Tid) : Except Crash (Option Tid × Cpu) :=
  (c.machine.threadYield want_tid).map
    (comeBack (Function.update c.saved c.machine.RUNNING_THREAD c.enabled))

def threadSleep (c : Cpu) (queue : Option Nat) : Except Crash (Option Tid × Cpu) :=
  (c.machine.threadSleep queue).map
    (comeBack (Function.update c.saved c.machine.RUNNING_THREAD c.enabled))

def threadWakeup (c : Cpu) (queue : Option Nat) (all : Int) : Except Crash (Option Tid × Cpu) :=
  (c.machine.threadWakeup queue all).map fun r => (some r.1, { c with machine := r.2 })

/-- A thread marked for destruction; the only return of `thread_exit` behind
`interrupts_set(enabled)`. -/
def mark (c : Cpu) (temp : Nat) : Option Tid × Cpu :=
  (some (c.machine.thread temp).tid,
    { c with machine := c.machine.modify temp fun t => { t with flag := true } })

def threadExit (c : Cpu) (tid : Tid) : Except Crash (Option Tid × Cpu) :=
  if tid = THREAD_SELF then
    match c.machine.exitSelf with
    | .error crash => .error crash
    | .ok none => .ok (some THREAD_NONE, c.off)
    | .ok (some m') =>
      (Machine.resumeWith (Machine.afterGetcontext m'.fuel) m').map (comeBack c.saved)
  else if tid = THREAD_ANY then
    match c.machine.READY_HEAD with
    | none => .ok (some THREAD_NONE, c.off)
    | some temp => .ok (c.mark temp)
  else if tid > THREAD_MAX_THREADS - 1 ∨ tid < THREAD_FAILED then .ok (some THREAD_INVALID, c.off)
  else if tid < 0 then .error .badIndex
  else if c.machine.thread_id_array tid.toNat = false then .ok (some THREAD_INVALID, c.off)
  else
    match c.machine.READY_HEAD with
    | none => .ok (some THREAD_NONE, c.off)
    | some first =>
      match Library.findNode c.machine.next (fun p => (c.machine.thread p).tid == tid)
          c.machine.allocated first first with
      | none => .error .nullPointer
      | some (_, temp) => .ok (c.mark temp)

end Cpu

/-- The calls whose failures matter. -/
inductive Request where
  | create (block stack : Bool)
  | yield (want_tid : Tid)
  | exit (tid : Tid)
  | sleep (queue : Option Nat)

/-- What else a thread does: it wakes others, sets the interrupts, or returns from its
`thread_main`. -/
inductive Action where
  | request (r : Request)
  | wakeup (queue : Option Nat) (all : Int)
  | set (enabled : Bool)
  | ret

/-- The value belongs to the thread that runs afterwards. -/
def Cpu.serve (c : Cpu) : Request → Except Crash (Option Tid × Cpu)
  | .create block stack => c.threadCreate block stack
  | .yield want_tid => c.threadYield want_tid
  | .exit tid => c.threadExit tid
  | .sleep queue => c.threadSleep queue

def Cpu.act (c : Cpu) : Action → Except Crash (Option (Option Tid × Cpu))
  | .request r => (c.serve r).map some
  | .wakeup queue all => (c.threadWakeup queue all).map some
  | .set enabled => .ok (some (none, { c with enabled := enabled }))
  | .ret =>
    match c.machine.exitSelf with
    | .error crash => .error crash
    | .ok none => .ok none
    | .ok (some m') =>
      (Machine.resumeWith (Machine.afterGetcontext m'.fuel) m').map fun r =>
        some (Cpu.comeBack c.saved r)

/-- Every action of the running thread, as long as it comes back. -/
def acting : System Cpu Action where
  start c := ∃ thread, c.machine = Machine.threadInit thread
  step c action c' := ∃ v, c.act action = .ok (some (v, c'))

/-- What a failing call must leave alone. -/
structure Untouched (c c' : Cpu) : Prop where
  thread_id_array : c'.machine.thread_id_array = c.machine.thread_id_array
  running : c'.machine.RUNNING_THREAD = c.machine.RUNNING_THREAD
  ready : c'.machine.READY_HEAD = c.machine.READY_HEAD
  to_delete : c'.machine.TO_DELETE_THREAD = c.machine.TO_DELETE_THREAD
  queue : c'.machine.queue = c.machine.queue
  next : ∀ p < c.machine.allocated, c'.machine.next p = c.machine.next p
  enabled : c'.enabled = c.enabled

/-- A call that returns a negative code leaves everything as it was. -/
def FailsClean (c : Cpu) (r : Request) : Prop :=
  ∀ v c', c.serve r = .ok (some v, c') → v < 0 → Untouched c c'

/-- The arguments on which `thread_exit` fails. -/
def ExitFails (m : Machine) (tid : Tid) : Prop :=
  if tid = THREAD_SELF ∨ tid = THREAD_ANY then m.READY_HEAD = none
  else Refused m tid ∨ 0 ≤ tid ∧ m.READY_HEAD = none

/-- The requests that leave a failure without a trace: `thread_create` and `thread_exit` do when
interrupts are off already, but for a `thread_create` without memory for the stack. -/
def Traceless (c : Cpu) : Request → Prop
  | .create block stack =>
    (c.machine.assignThreadId = none ∨ block = false → c.enabled = false) ∧
      (c.machine.assignThreadId ≠ none → block = true → stack = true)
  | .exit tid => ExitFails c.machine tid → c.enabled = false
  | _ => True

variable {m m' : Machine} {p q temp fuel : Nat} {tid : Tid} {r : Option Tid × Machine}

/-- The fields of a thread stay within `n` blocks and the table. -/
structure Thread.Inside (t : Thread) (n : Nat) : Prop where
  tid : Index t.tid
  next : ∀ q, t.next = some q → q < n
  context : ∀ v q, t.thread_context = .switched v q → Index v ∧ q < n

/-- The pointers stay within the blocks that were handed out. Nothing else is needed of a machine
for its failing calls; in particular the lists need not be disjoint. -/
structure Closed (m : Machine) : Prop where
  ready : ∀ p, m.READY_HEAD = some p → p < m.allocated
  running : m.RUNNING_THREAD < m.allocated
  queue : ∀ i p, (m.queue i).wait_head = some p → p < m.allocated
  inside : ∀ p < m.allocated, (m.thread p).Inside m.allocated

/-- The pointers still stay within the same blocks. -/
def StaysClosed (m m' : Machine) : Prop := Closed m' ∧ m'.allocated = m.allocated

theorem StaysClosed.trans {m₁ m₂ m₃ : Machine} (h : StaysClosed m₁ m₂) (h' : StaysClosed m₂ m₃) :
    StaysClosed m₁ m₃ :=
  ⟨h'.1, h'.2.trans h.2⟩

theorem Closed.refl (closed : Closed m) : StaysClosed m m := ⟨closed, rfl⟩

section Pieces

theorem Closed.modify (closed : Closed m) {f : Thread → Thread}
    (h : ∀ t, t.Inside m.allocated → (f t).Inside m.allocated) (p : Nat) :
    StaysClosed m (m.modify p f) := by
  refine ⟨⟨closed.ready, closed.running, closed.queue, fun x hx => ?_⟩, rfl⟩
  by_cases hp : x = p
  · subst hp
    rw [modify_self]
    exact h _ (closed.inside x hx)
  · rw [modify_of_ne hp]
    exact closed.inside x hx

theorem Closed.setNext (closed : Closed m) {v : Option Nat}
    (h : ∀ q, v = some q → q < m.allocated) (p : Nat) : StaysClosed m (m.setNext p v) :=
  closed.modify (f := fun t => { t with next := v }) (fun _ ht => ⟨ht.tid, h, ht.context⟩) p

/-- The pointer behind a block. -/
theorem Closed.next (closed : Closed m) (hp : p < m.allocated) (h : m.next p = some q) :
    q < m.allocated :=
  (closed.inside p hp).next q h

theorem Closed.findNode (closed : Closed m) {found : Nat → Bool} {prev prev' : Nat}
    (hp : p < m.allocated) (h : Library.findNode m.next found fuel prev p = some (prev', q)) :
    q < m.allocated := by
  induction fuel generalizing prev p with
  | zero => cases h
  | succ fuel ih =>
    rw [Library.findNode] at h
    split_ifs at h
    · cases h
      exact hp
    · cases hnext : m.next p with
      | none =>
        rw [hnext] at h
        cases h
      | some x =>
        rw [hnext] at h
        exact ih (closed.next hp hnext) h

theorem Closed.insertLast (closed : Closed m) (hp : p < m.allocated) {head first : Option Nat}
    (h : m.insertLast head p = .ok (first, m')) :
    StaysClosed m m' ∧ (first = some p ∨ first = head) := by
  cases head with
  | none =>
    cases h
    exact ⟨closed.refl, .inl rfl⟩
  | some x =>
    rw [Machine.insertLast] at h
    cases hlast : Library.lastNode m.next m.allocated x with
    | none =>
      rw [hlast] at h
      cases h
    | some temp =>
      rw [hlast] at h
      cases h
      exact ⟨closed.setNext (fun q hq => Option.some.inj hq ▸ hp) temp, .inr rfl⟩

theorem Closed.insertThreadToReady (closed : Closed m) (hp : p < m.allocated)
    (h : m.insertThreadToReady p = .ok m') : StaysClosed m m' := by
  rw [Machine.insertThreadToReady] at h
  cases hr : m.insertLast m.READY_HEAD p with
  | error crash =>
    rw [hr] at h
    cases h
  | ok r =>
    rw [hr] at h
    cases h
    obtain ⟨⟨closed', hallocated⟩, hhead⟩ := closed.insertLast hp hr
    refine ⟨⟨fun q hq => ?_, closed'.running, closed'.queue, closed'.inside⟩, hallocated⟩
    change q < r.2.allocated
    rw [hallocated]
    rcases hhead with hhead | hhead
    · exact Option.some.inj (hhead.symm.trans hq) ▸ hp
    · exact closed.ready q (hhead ▸ hq)

theorem Closed.insertThreadToWait (closed : Closed m) (hp : p < m.allocated)
    (h : m.insertThreadToWait p q = .ok m') : StaysClosed m m' := by
  rw [Machine.insertThreadToWait] at h
  cases hr : m.insertLast (m.queue q).wait_head p with
  | error crash =>
    rw [hr] at h
    cases h
  | ok r =>
    rw [hr] at h
    cases h
    obtain ⟨⟨closed', hallocated⟩, hhead⟩ := closed.insertLast hp hr
    refine ⟨⟨closed'.ready, closed'.running, fun i x hx => ?_, closed'.inside⟩, hallocated⟩
    dsimp only at hx ⊢
    by_cases hi : i = q
    · rw [hi, Function.update_self] at hx
      rw [hallocated]
      rcases hhead with hhead | hhead
      · exact Option.some.inj (hhead.symm.trans hx) ▸ hp
      · exact closed.queue q x (hhead ▸ hx)
    · rw [Function.update_of_ne hi] at hx
      exact closed'.queue i x hx

theorem Closed.insertThreadToDelete (closed : Closed m) (hp : p < m.allocated)
    (h : m.insertThreadToDelete p = .ok m') : StaysClosed m m' := by
  rw [Machine.insertThreadToDelete] at h
  cases hr : m.insertLast m.TO_DELETE_THREAD p with
  | error crash =>
    rw [hr] at h
    cases h
  | ok r =>
    rw [hr] at h
    cases h
    obtain ⟨⟨closed', hallocated⟩, -⟩ := closed.insertLast hp hr
    exact ⟨⟨closed'.ready, closed'.running, closed'.queue, closed'.inside⟩, hallocated⟩

theorem freeAll_inside {n : Nat} {thread thread' : Nat → Thread} {head : Option Nat}
    (h : Machine.freeAll fuel thread head = .ok thread') (hp : (thread p).Inside n) :
    (thread' p).Inside n := by
  induction fuel generalizing thread head with
  | zero =>
    cases head with
    | none =>
      cases h
      exact hp
    | some => cases h
  | succ fuel ih =>
    cases head with
    | none =>
      cases h
      exact hp
    | some to_delete =>
      rw [Machine.freeAll] at h
      split_ifs at h
      refine ih h ?_
      by_cases hx : p = to_delete
      · subst hx
        rw [Function.update_self]
        exact ⟨hp.tid, hp.next, hp.context⟩
      · rwa [Function.update_of_ne hx]

theorem Closed.deleteThreadsList (closed : Closed m) (h : m.deleteThreadsList = .ok m') :
    StaysClosed m m' := by
  rw [Machine.deleteThreadsList] at h
  cases hr : Machine.freeAll m.allocated m.thread m.TO_DELETE_THREAD with
  | error crash =>
    rw [hr] at h
    cases h
  | ok thread =>
    rw [hr] at h
    cases h
    exact ⟨⟨closed.ready, closed.running, closed.queue, fun p hp =>
      freeAll_inside hr (closed.inside p hp)⟩, rfl⟩

theorem Closed.popReady (closed : Closed m) (hp : p < m.allocated) :
    StaysClosed m (m.popReady p) := by
  have hnext : Closed { m with READY_HEAD := m.next p } :=
    ⟨fun q hq => closed.next hp hq, closed.running, closed.queue, closed.inside⟩
  exact hnext.setNext (fun q hq => by cases hq) p

theorem Closed.leave (closed : Closed m) (hp : p < m.allocated) : StaysClosed m (m.leave p) := by
  obtain ⟨closed', hallocated⟩ := closed.modify
    (f := fun t => { t with next := none, exited := true })
    (fun _ ht => ⟨ht.tid, fun q hq => (by cases hq), ht.context⟩) m.RUNNING_THREAD
  exact ⟨⟨fun q hq => closed.next hp hq, closed'.running, closed'.queue, closed'.inside⟩, hallocated⟩

theorem Closed.run (closed : Closed m) (hp : p < m.allocated) : StaysClosed m (m.run p) := by
  obtain ⟨closed', hallocated⟩ := closed.modify
    (f := fun t => { t with next := none, state := .recover })
    (fun _ ht => ⟨ht.tid, fun q hq => (by cases hq), ht.context⟩) p
  exact ⟨⟨closed'.ready, hp, closed'.queue, closed'.inside⟩, hallocated⟩

theorem Closed.exitSelf (closed : Closed m) (h : m.exitSelf = .ok (some m')) :
    StaysClosed m m' := by
  rw [Machine.exitSelf] at h
  cases hready : m.READY_HEAD with
  | none =>
    rw [hready] at h
    cases h
  | some new_run =>
    have hlt := closed.ready _ hready
    rw [hready] at h
    dsimp only at h
    cases hr : (m.leave new_run).insertThreadToDelete m.RUNNING_THREAD with
    | error crash =>
      rw [hr] at h
      cases h
    | ok m₁ =>
      rw [hr] at h
      cases h
      have hleave := closed.leave hlt
      have hinsert := hleave.1.insertThreadToDelete (hleave.2 ▸ closed.running) hr
      have hsame := hleave.trans hinsert
      exact hsame.trans (hsame.1.run (hsame.2 ▸ hlt))

end Pieces

/-- What a piece of a switch ends in: a thread that returns an identifier. -/
def Returning (m : Machine) (r : Option Tid × Machine) : Prop :=
  StaysClosed m r.2 ∧ ∀ v, r.1 = some v → Index v

theorem Returning.trans (h : StaysClosed m m') (h' : Returning m' r) : Returning m r :=
  ⟨h.trans h'.1, h'.2⟩

section Passes

variable {pass : Machine → Tid → Nat → Except Crash (Option Tid × Machine)} {returned_tid : Tid}

theorem Closed.resumeWith (closed : Closed m)
    (hpass : ∀ m v t r, Closed m → Index v → t < m.allocated → pass m v t = .ok r → Returning m r)
    (h : Machine.resumeWith pass m = .ok r) : Returning m r := by
  rw [Machine.resumeWith] at h
  cases hcontext : (m.thread m.RUNNING_THREAD).thread_context with
  | stub =>
    rw [hcontext] at h
    cases h
    exact ⟨closed.refl, fun v hv => by cases hv⟩
  | switched v t =>
    rw [hcontext] at h
    obtain ⟨hv, ht⟩ := (closed.inside _ closed.running).context v t hcontext
    exact hpass m v t r closed hv ht h

theorem Closed.afterFlag (closed : Closed m)
    (hpass : ∀ m v t r, Closed m → Index v → t < m.allocated → pass m v t = .ok r → Returning m r)
    (hv : Index returned_tid) (ht : temp < m.allocated)
    (h : m.afterFlag pass returned_tid temp = .ok r) : Returning m r := by
  rw [Machine.afterFlag] at h
  cases hdelete : m.deleteThreadsList with
  | error crash =>
    rw [hdelete] at h
    cases h
  | ok m₁ =>
    have hsame := closed.deleteThreadsList hdelete
    have hreturn : Returning m (some returned_tid, m₁) := ⟨hsame, fun v h => by cases h; exact hv⟩
    rw [hdelete] at h
    dsimp only at h
    split_ifs at h
    · cases h
      exact hreturn
    · obtain ⟨closed', hallocated⟩ := hsame.1.modify (f := fun t => { t with state := .recover })
        (fun _ ht => ⟨ht.tid, ht.next, ht.context⟩) temp
      have hrun : StaysClosed m { m₁.setState temp .recover with RUNNING_THREAD := temp } :=
        hsame.trans ⟨⟨closed'.ready, hsame.2 ▸ ht, closed'.queue, closed'.inside⟩, hallocated⟩
      exact .trans hrun (hrun.1.resumeWith hpass h)
    · cases h
      exact hreturn

theorem Closed.afterGetcontext (closed : Closed m) (hv : Index returned_tid)
    (ht : temp < m.allocated) (h : m.afterGetcontext fuel returned_tid temp = .ok r) :
    Returning m r := by
  induction fuel generalizing m returned_tid temp r with
  | zero => cases h
  | succ fuel ih =>
    have hpass : ∀ m v t r, Closed m → Index v → t < m.allocated →
        Machine.afterGetcontext fuel m v t = .ok r → Returning m r :=
      fun _ _ _ _ closed hv ht h => ih closed hv ht h
    rw [Machine.afterGetcontext] at h
    split_ifs at h
    · cases hexit : m.exitSelf with
      | error crash =>
        rw [hexit] at h
        cases h
      | ok next =>
        rw [hexit] at h
        cases next with
        | none => exact closed.afterFlag hpass hv ht h
        | some m₁ =>
          have hsame := closed.exitSelf hexit
          exact .trans hsame (hsame.1.resumeWith hpass h)
    · exact closed.afterFlag hpass hv ht h

theorem Closed.exited (closed : Closed m) (hexit : m.exitSelf = .ok (some m'))
    (h : Machine.resumeWith (Machine.afterGetcontext fuel) m' = .ok r) : Returning m r := by
  have hsame := closed.exitSelf hexit
  exact .trans hsame (hsame.1.resumeWith (fun _ _ _ _ closed hv ht h =>
    closed.afterGetcontext hv ht h) h)

theorem Closed.suspend (closed : Closed m) (hv : Index returned_tid) (ht : temp < m.allocated)
    (h : m.suspend returned_tid temp = .ok r) : Returning m r := by
  have hsame := closed.modify
    (f := fun t => { t with state := .new, thread_context := .switched returned_tid temp })
    (fun _ h => ⟨h.tid, h.next, fun v q heq => by cases heq; exact ⟨hv, ht⟩⟩) m.RUNNING_THREAD
  exact .trans hsame (hsame.1.afterGetcontext hv (hsame.2 ▸ ht) h)

end Passes

/-- A call keeps the pointers inside, and leaves the machine when it returns a negative code. -/
def Honest (m : Machine) (r : Option Tid × Machine) : Prop :=
  Closed r.2 ∧ ∀ v, r.1 = some v → v < 0 → r.2 = m

theorem Returning.honest (h : Returning m r) : Honest m r :=
  ⟨h.1.1, fun v hv hneg => absurd (h.2 v hv).1 (Int.not_le.2 hneg)⟩

theorem honest_code (closed : Closed m) (v : Tid) : Honest m (some v, m) :=
  ⟨closed, fun _ _ _ => rfl⟩

section Calls

theorem Closed.threadYield (closed : Closed m) (h : m.threadYield tid = .ok r) : Honest m r := by
  have hrunning := closed.running
  rw [Machine.threadYield] at h
  split_ifs at h
  · cases hfirst : m.READY_HEAD with
    | none =>
      rw [hfirst] at h
      cases h
      exact honest_code closed _
    | some temp =>
      have htemp := closed.ready _ hfirst
      rw [hfirst] at h
      dsimp only at h
      cases hr : (m.popReady temp).insertThreadToReady m.RUNNING_THREAD with
      | error crash =>
        rw [hr] at h
        cases h
      | ok m₁ =>
        rw [hr] at h
        have hpop := closed.popReady htemp
        have hsame := hpop.trans (hpop.1.insertThreadToReady (hpop.2 ▸ hrunning) hr)
        exact (Returning.trans hsame (hsame.1.suspend (closed.inside _ htemp).tid
          (hsame.2 ▸ htemp) h)).honest
  · cases h
    have hsame : StaysClosed m (m.setState m.RUNNING_THREAD .recover) :=
      closed.modify (f := fun t => { t with state := .recover })
        (fun _ ht => ⟨ht.tid, ht.next, ht.context⟩) _
    exact Returning.honest ⟨hsame, fun v hv => by cases hv; exact (closed.inside _ hrunning).tid⟩
  · cases h
    exact honest_code closed _
  · cases h
    exact honest_code closed _
  · cases hfirst : m.READY_HEAD with
    | none =>
      rw [hfirst] at h
      cases h
    | some first =>
      rw [hfirst] at h
      dsimp only at h
      cases hfind : Library.findNode m.next (fun p => (m.thread p).tid == tid) m.allocated first
          first with
      | none =>
        rw [hfind] at h
        cases h
      | some found =>
        obtain ⟨prev, temp⟩ := found
        have htemp := closed.findNode (closed.ready _ hfirst) hfind
        rw [hfind] at h
        dsimp only at h
        obtain ⟨m₁, hm₁⟩ : ∃ m₁, m₁ = if (m.thread first).tid = tid then
          { m with READY_HEAD := m.next first } else m.setNext prev (m.next temp) := ⟨_, rfl⟩
        rw [← hm₁] at h
        have hcut : StaysClosed m m₁ := by
          rw [hm₁]
          split
          · exact ⟨⟨fun q hq => closed.next (closed.ready _ hfirst) hq, closed.running,
              closed.queue, closed.inside⟩, rfl⟩
          · exact closed.setNext (fun q hq => closed.next htemp hq) prev
        have hnext := hcut.trans (hcut.1.setNext (v := none) (fun q hq => by cases hq) temp)
        cases hr : (m₁.setNext temp none).insertThreadToReady m.RUNNING_THREAD with
        | error crash =>
          rw [hr] at h
          cases h
        | ok m₂ =>
          rw [hr] at h
          have hsame := hnext.trans (hnext.1.insertThreadToReady (hnext.2 ▸ hrunning) hr)
          exact (Returning.trans hsame (hsame.1.suspend (closed.inside _ htemp).tid
            (hsame.2 ▸ htemp) h)).honest

theorem Closed.threadSleep (closed : Closed m) {queue : Option Nat}
    (h : m.threadSleep queue = .ok r) : Honest m r := by
  cases queue with
  | none =>
    cases h
    exact honest_code closed _
  | some q =>
    cases hfirst : m.READY_HEAD with
    | none =>
      simp only [Machine.threadSleep, hfirst] at h
      cases h
      exact honest_code closed _
    | some temp =>
      have htemp := closed.ready _ hfirst
      simp only [Machine.threadSleep, hfirst] at h
      cases hr : (m.popReady temp).insertThreadToWait m.RUNNING_THREAD q with
      | error crash =>
        rw [hr] at h
        cases h
      | ok m₁ =>
        rw [hr] at h
        have hpop := closed.popReady htemp
        have hsame := hpop.trans (hpop.1.insertThreadToWait (hpop.2 ▸ closed.running) hr)
        exact (Returning.trans hsame (hsame.1.suspend (closed.inside _ htemp).tid
          (hsame.2 ▸ htemp) h)).honest

theorem closed_withNew (closed : Closed m) {new_id : Nat} (hid : m.assignThreadId = some new_id) :
    Closed (withNew m new_id) := by
  have hindex : Index (new_id : Tid) := by
    have hlt := (assignThreadId_some hid).1
    exact ⟨Int.natCast_nonneg _, by exact_mod_cast hlt⟩
  refine ⟨fun p hp => Nat.lt_succ_of_lt (closed.ready p hp), Nat.lt_succ_of_lt closed.running,
    fun i p hp => Nat.lt_succ_of_lt (closed.queue i p hp), fun p hp => ?_⟩
  by_cases hlast : p = m.allocated
  · subst hlast
    rw [withNew_self]
    exact ⟨hindex, fun q hq => (by cases hq), fun v q h => (by cases h)⟩
  · rw [withNew_of_ne hlast]
    have hold := closed.inside p (Nat.lt_of_le_of_ne (Nat.lt_succ_iff.1 hp) hlast)
    exact ⟨hold.tid, fun q hq => Nat.lt_succ_of_lt (hold.next q hq), fun v q h =>
      ⟨(hold.context v q h).1, Nat.lt_succ_of_lt (hold.context v q h).2⟩⟩

theorem Closed.threadCreate (closed : Closed m) {v : Tid} (h : m.threadCreate = .ok (v, m')) :
    Closed m' ∧ (m.assignThreadId ≠ none → 0 ≤ v) := by
  cases hid : m.assignThreadId with
  | none =>
    rw [threadCreate_none hid] at h
    cases h
    exact ⟨closed, fun h => absurd rfl h⟩
  | some new_id =>
    rw [threadCreate_eq hid] at h
    cases hr : (withNew m new_id).insertThreadToReady m.allocated with
    | error crash =>
      rw [hr] at h
      cases h
    | ok m₁ =>
      rw [hr] at h
      cases h
      exact ⟨((closed_withNew closed hid).insertThreadToReady (Nat.lt_succ_self _) hr).1,
        fun _ => Int.natCast_nonneg _⟩

theorem Closed.threadWakeup (closed : Closed m) {queue : Option Nat} {all n : Int}
    (h : m.threadWakeup queue all = .ok (n, m')) : Closed m' := by
  cases queue with
  | none =>
    cases h
    exact closed
  | some q =>
    cases hhead : (m.queue q).wait_head with
    | none =>
      simp only [Machine.threadWakeup, hhead] at h
      cases h
      exact closed
    | some temp =>
      have htemp := closed.queue q _ hhead
      have hclear : ∀ {M : Machine} {w : WaitQueue}, Closed M →
          (∀ p, w.wait_head = some p → p < M.allocated) →
          Closed { M with queue := Function.update M.queue q w } := by
        intro M w hM hw
        refine ⟨hM.ready, hM.running, fun i p hp => ?_, hM.inside⟩
        dsimp only at hp
        by_cases hi : i = q
        · rw [hi, Function.update_self] at hp
          exact hw p hp
        · rw [Function.update_of_ne hi] at hp
          exact hM.queue i p hp
      simp only [Machine.threadWakeup, hhead] at h
      split_ifs at h
      · cases hr : m.insertThreadToReady temp with
        | error crash => rw [hr] at h; cases h
        | ok M =>
          rw [hr] at h
          cases h
          exact hclear (closed.insertThreadToReady htemp hr).1 fun p hp => (by cases hp)
      · have hpop := hclear (w := ⟨m.next temp, (m.queue q).size⟩) closed
          fun p hp => closed.next htemp hp
        have hnext := hpop.setNext (v := none) (fun q hq => by cases hq) temp
        cases hr : (Machine.setNext { m with
            queue := Function.update m.queue q ⟨m.next temp, (m.queue q).size⟩ } temp
              none).insertThreadToReady temp with
        | error crash => rw [hr] at h; cases h
        | ok M =>
          rw [hr] at h
          cases h
          exact (hnext.1.insertThreadToReady (hnext.2 ▸ htemp) hr).1
      · cases hr : m.insertThreadToReady temp with
        | error crash => rw [hr] at h; cases h
        | ok M =>
          rw [hr] at h
          cases h
          exact hclear (closed.insertThreadToReady htemp hr).1 fun p hp => (by cases hp)
      · cases h
        exact closed

theorem closed_threadInit (thread : Nat → Thread) : Closed (Machine.threadInit thread) := by
  refine ⟨fun p hp => (by cases hp), Nat.one_pos, fun i p hp => (by cases hp), fun p hp => ?_⟩
  obtain rfl : p = 0 := Nat.lt_one_iff.1 hp
  have hindex : Index (0 : Tid) := ⟨by decide, by decide⟩
  exact ⟨hindex, fun q hq => (by cases hq), fun v q h => (by cases h)⟩

end Calls

section Requests

variable {c c' : Cpu} {v : Option Tid} {saved : Nat → Bool}

/-- Without the interrupts this is `thread_exit`. -/
theorem threadExit_machine (c : Cpu) (tid : Tid) :
    (c.threadExit tid).map (fun r => (r.1, r.2.machine)) = c.machine.threadExit tid := by
  rw [Cpu.threadExit, Machine.threadExit]
  split_ifs
  · cases c.machine.exitSelf with
    | error crash => rfl
    | ok next =>
      cases next with
      | none => rfl
      | some m' =>
        dsimp only
        cases Machine.resumeWith (Machine.afterGetcontext m'.fuel) m' <;> rfl
  · cases c.machine.READY_HEAD <;> rfl
  · rfl
  · rfl
  · rfl
  · cases c.machine.READY_HEAD with
    | none => rfl
    | some first =>
      dsimp only
      cases Library.findNode c.machine.next (fun p => (c.machine.thread p).tid == tid)
        c.machine.allocated first first <;> rfl

theorem untouched_off (c : Cpu) (h : c.enabled = false) : Untouched c c.off :=
  ⟨rfl, rfl, rfl, rfl, rfl, fun _ _ => rfl, h.symm⟩

theorem enabled_of_untouched (h : Untouched c c.off) : c.enabled = false := h.enabled.symm

/-- The failing returns that leave interrupts off. -/
theorem failsClean_off {request : Request} {code : Tid} (hcode : code < 0)
    (h : c.serve request = .ok (some code, c.off)) : FailsClean c request ↔ c.enabled = false := by
  constructor
  · exact fun clean => enabled_of_untouched (clean _ _ h hcode)
  · intro henabled v c' h' _
    rw [h] at h'
    cases h'
    exact untouched_off c henabled

/-- A call that returns through `interrupts_set(enabled)`. -/
theorem untouched_comeBack {m' : Machine} {code : Tid}
    (h : Cpu.comeBack (Function.update c.saved c.machine.RUNNING_THREAD c.enabled) (some code, m') =
      (v, c')) (hm : m' = c.machine) : Untouched c c' := by
  subst hm
  cases h
  refine ⟨rfl, rfl, rfl, rfl, rfl, fun _ _ => rfl, ?_⟩
  rw [if_neg (by simp), Function.update_self]

theorem failsClean_switch {x : Except Crash (Option Tid × Machine)} {request : Request}
    (hserve : c.serve request =
      x.map (Cpu.comeBack (Function.update c.saved c.machine.RUNNING_THREAD c.enabled)))
    (honest : ∀ r, x = .ok r → Honest c.machine r) : FailsClean c request := by
  intro v c' h hneg
  rw [hserve] at h
  obtain ⟨r, hr, heq⟩ := map_ok h
  obtain ⟨w, m'⟩ := r
  have hw : w = some v := congrArg Prod.fst heq
  subst hw
  exact untouched_comeBack heq ((honest _ hr).2 v rfl hneg)

theorem create_nomore (hid : c.machine.assignThreadId = none) (block stack : Bool) :
    c.serve (.create block stack) = .ok (some THREAD_NOMORE, c.off) := by
  rw [Cpu.serve]
  unfold Cpu.threadCreate
  split
  · rfl
  · rename_i hsome
    rw [hid] at hsome
    cases hsome

theorem create_some {new_id : Nat} (hid : c.machine.assignThreadId = some new_id)
    (block stack : Bool) : c.serve (.create block stack) =
      if block = false then .ok (some THREAD_NOMEMORY, c.off)
      else if stack = false then
        .ok (some THREAD_NOMEMORY, { c.off with machine := withNew c.machine new_id })
      else (c.machine.threadCreate).map fun r => (some r.1, { c with machine := r.2 }) := by
  rw [Cpu.serve]
  unfold Cpu.threadCreate
  split
  · rename_i hnone
    rw [hid] at hnone
    cases hnone
  · rename_i id hsome
    rw [hid] at hsome
    cases hsome
    rfl

theorem failsClean_create (closed : Closed c.machine) (block stack : Bool) :
    FailsClean c (.create block stack) ↔ Traceless c (.create block stack) := by
  rw [Traceless]
  cases hid : c.machine.assignThreadId with
  | none =>
    rw [failsClean_off (by decide) (create_nomore hid block stack)]
    simp
  | some new_id =>
    cases hblock : block with
    | false =>
      have h : c.serve (.create false stack) = .ok (some THREAD_NOMEMORY, c.off) := by
        rw [create_some hid, if_pos rfl]
      rw [failsClean_off (by decide) h]
      simp
    | true =>
      cases hstack : stack with
      | false =>
        have h : c.serve (.create true false) =
            .ok (some THREAD_NOMEMORY, { c.off with machine := withNew c.machine new_id }) := by
          rw [create_some hid, if_neg (by decide), if_pos rfl]
        refine iff_of_false (fun clean => ?_) fun h => by simpa using h.2
        have harray := congrFun (clean _ _ h (by decide)).thread_id_array new_id
        rw [(assignThreadId_some hid).2.1] at harray
        have hused : (withNew c.machine new_id).thread_id_array new_id = true :=
          Function.update_self ..
        exact absurd (hused.symm.trans harray) (by decide)
      | true =>
        refine iff_of_true (fun v c' h hneg => ?_) (by simp)
        rw [create_some hid, if_neg (by decide), if_neg (by decide)] at h
        obtain ⟨r, hr, heq⟩ := map_ok h
        cases heq
        exact absurd ((closed.threadCreate hr).2 (by rw [hid]; simp)) (Int.not_le.2 hneg)

/-- A thread that is found and marked has an identifier. -/
theorem failsClean_mark (closed : Closed c.machine) {request : Request}
    (hp : p < c.machine.allocated) (h : c.serve request = .ok (c.mark p)) :
    FailsClean c request := by
  intro v c' h' hneg
  rw [h] at h'
  have hv : (c.machine.thread p).tid = v := Option.some.inj (congrArg Prod.fst (Except.ok.inj h'))
  exact absurd (hv ▸ (closed.inside p hp).tid.1) (Int.not_le.2 hneg)

/-- `thread_exit` fails on the argument, or it does not. -/
theorem failsClean_of_code {request : Request} {code : Tid} {fails : Prop} (hfails : fails)
    (hcode : code < 0) (h : c.serve request = .ok (some code, c.off)) :
    FailsClean c request ↔ (fails → c.enabled = false) := by
  rw [failsClean_off hcode h]
  exact ⟨fun henabled _ => henabled, fun h => h hfails⟩

theorem failsClean_exit_self (closed : Closed c.machine) :
    FailsClean c (.exit THREAD_SELF) ↔ Traceless c (.exit THREAD_SELF) := by
  rw [Traceless, ExitFails, if_pos (.inl rfl)]
  cases hready : c.machine.READY_HEAD with
  | none =>
    have hcode : THREAD_NONE < 0 := by decide
    refine failsClean_of_code rfl hcode ?_
    rw [Cpu.serve, Cpu.threadExit, if_pos rfl, Machine.exitSelf, hready]
  | some new_run =>
    refine iff_of_true (fun v c' h hneg => ?_) fun h => by cases h
    rw [Cpu.serve, Cpu.threadExit, if_pos rfl] at h
    cases hexit : c.machine.exitSelf with
    | error crash =>
      rw [hexit] at h
      cases h
    | ok next =>
      rw [hexit] at h
      cases next with
      | none =>
        rw [Machine.exitSelf, hready] at hexit
        dsimp only at hexit
        split at hexit <;> cases hexit
      | some m' =>
        obtain ⟨r, hr, heq⟩ := map_ok h
        have hv : r.1 = some v := congrArg Prod.fst heq
        exact absurd ((closed.exited hexit hr).2 v hv).1 (Int.not_le.2 hneg)

theorem failsClean_exit_any (closed : Closed c.machine) :
    FailsClean c (.exit THREAD_ANY) ↔ Traceless c (.exit THREAD_ANY) := by
  rw [Traceless, ExitFails, if_pos (.inr rfl)]
  cases hready : c.machine.READY_HEAD with
  | none =>
    have hcode : THREAD_NONE < 0 := by decide
    refine failsClean_of_code rfl hcode ?_
    rw [Cpu.serve, Cpu.threadExit, if_neg (by decide), if_pos rfl, hready]
  | some temp =>
    refine iff_of_true (failsClean_mark closed (closed.ready _ hready) ?_) fun h => by cases h
    rw [Cpu.serve, Cpu.threadExit, if_neg (by decide), if_pos rfl, hready]

theorem failsClean_exit (closed : Closed c.machine) (tid : Tid) :
    FailsClean c (.exit tid) ↔ Traceless c (.exit tid) := by
  by_cases hself : tid = THREAD_SELF
  · rw [hself]
    exact failsClean_exit_self closed
  by_cases hany : tid = THREAD_ANY
  · rw [hany]
    exact failsClean_exit_any closed
  rw [Traceless, ExitFails, if_neg (not_or.2 ⟨hself, hany⟩)]
  have hserve : c.serve (.exit tid) = c.threadExit tid := rfl
  rw [Cpu.threadExit, if_neg hself, if_neg hany] at hserve
  by_cases hrange : tid > THREAD_MAX_THREADS - 1 ∨ tid < THREAD_FAILED
  · rw [if_pos hrange] at hserve
    exact failsClean_of_code (.inl (hrange.imp_right .inl)) (by decide) hserve
  rw [if_neg hrange] at hserve
  by_cases hneg : tid < 0
  · rw [if_pos hneg] at hserve
    refine iff_of_true (fun v c' h => ?_) fun hfails => ?_
    · rw [hserve] at h
      cases h
    · rcases hfails with (h | h | h) | h
      · exact absurd (.inl h) hrange
      · exact absurd (.inr h) hrange
      · exact absurd h.1 (Int.not_le.2 hneg)
      · exact absurd h.1 (Int.not_le.2 hneg)
  rw [if_neg hneg] at hserve
  have hpos : 0 ≤ tid := Int.not_lt.1 hneg
  by_cases hfree : c.machine.thread_id_array tid.toNat = false
  · rw [if_pos hfree] at hserve
    exact failsClean_of_code (.inl (.inr (.inr ⟨hpos, hfree⟩))) (by decide) hserve
  rw [if_neg hfree] at hserve
  cases hready : c.machine.READY_HEAD with
  | none =>
    rw [hready] at hserve
    exact failsClean_of_code (.inr ⟨hpos, rfl⟩) (by decide) hserve
  | some first =>
    have hsucceeds : ¬ (Refused c.machine tid ∨ 0 ≤ tid ∧ some first = none) := by
      rintro ((h | h | h) | h)
      · exact hrange (.inl h)
      · exact hrange (.inr h)
      · exact hfree h.2
      · cases h.2
    refine iff_of_true ?_ fun h => absurd h hsucceeds
    rw [hready] at hserve
    dsimp only at hserve
    cases hfind : Library.findNode c.machine.next (fun p => (c.machine.thread p).tid == tid)
        c.machine.allocated first first with
    | none =>
      rw [hfind] at hserve
      intro v c' h
      rw [hserve] at h
      cases h
    | some found =>
      rw [hfind] at hserve
      exact failsClean_mark closed (closed.findNode (closed.ready _ hready) hfind) hserve

theorem failsClean_iff (closed : Closed c.machine) (request : Request) :
    FailsClean c request ↔ Traceless c request := by
  cases request with
  | create block stack => exact failsClean_create closed block stack
  | yield want_tid =>
    exact iff_of_true (failsClean_switch rfl fun r hr => closed.threadYield hr) trivial
  | exit tid => exact failsClean_exit closed tid
  | sleep queue =>
    exact iff_of_true (failsClean_switch rfl fun r hr => closed.threadSleep hr) trivial

end Requests

section Runs

variable {c c' : Cpu} {v : Option Tid}

theorem closed_comeBack {saved : Nat → Bool} (h : Cpu.comeBack saved r = (v, c'))
    (closed : Closed r.2) : Closed c'.machine := by
  cases h
  exact closed

theorem closed_create (closed : Closed c.machine) {block stack : Bool}
    (h : c.serve (.create block stack) = .ok (v, c')) : Closed c'.machine := by
  cases hid : c.machine.assignThreadId with
  | none =>
    rw [create_nomore hid] at h
    cases h
    exact closed
  | some new_id =>
    rw [create_some hid] at h
    split_ifs at h
    · cases h
      exact closed
    · cases h
      exact closed_withNew closed hid
    · obtain ⟨r, hr, heq⟩ := map_ok h
      cases heq
      exact (closed.threadCreate hr).1

theorem closed_mark (closed : Closed c.machine) (p : Nat) (h : c.mark p = (v, c')) :
    Closed c'.machine := by
  cases h
  exact (closed.modify (f := fun t => { t with flag := true })
    (fun _ ht => ⟨ht.tid, ht.next, ht.context⟩) p).1

theorem closed_exit (closed : Closed c.machine) {tid : Tid}
    (h : c.threadExit tid = .ok (v, c')) : Closed c'.machine := by
  rw [Cpu.threadExit] at h
  split_ifs at h
  · cases hexit : c.machine.exitSelf with
    | error crash =>
      rw [hexit] at h
      cases h
    | ok next =>
      rw [hexit] at h
      cases next with
      | none =>
        cases h
        exact closed
      | some m' =>
        obtain ⟨r, hr, heq⟩ := map_ok h
        exact closed_comeBack heq (closed.exited hexit hr).1.1
  · cases hready : c.machine.READY_HEAD with
    | none =>
      rw [hready] at h
      cases h
      exact closed
    | some temp =>
      rw [hready] at h
      exact closed_mark closed temp (Except.ok.inj h)
  · cases h
    exact closed
  · cases h
    exact closed
  · cases hready : c.machine.READY_HEAD with
    | none =>
      rw [hready] at h
      cases h
      exact closed
    | some first =>
      rw [hready] at h
      dsimp only at h
      cases hfind : Library.findNode c.machine.next (fun p => (c.machine.thread p).tid == tid)
          c.machine.allocated first first with
      | none =>
        rw [hfind] at h
        cases h
      | some found =>
        rw [hfind] at h
        exact closed_mark closed found.2 (Except.ok.inj h)

theorem closed_act (closed : Closed c.machine) {action : Action}
    (h : c.act action = .ok (some (v, c'))) : Closed c'.machine := by
  cases action with
  | request r =>
    rw [Cpu.act] at h
    obtain ⟨a, ha, heq⟩ := map_ok h
    cases heq
    cases r with
    | create block stack => exact closed_create closed ha
    | yield want_tid =>
      obtain ⟨r, hr, heq⟩ := map_ok ha
      exact closed_comeBack heq (closed.threadYield hr).1
    | exit tid => exact closed_exit closed ha
    | sleep queue =>
      obtain ⟨r, hr, heq⟩ := map_ok ha
      exact closed_comeBack heq (closed.threadSleep hr).1
  | wakeup queue all =>
    rw [Cpu.act] at h
    obtain ⟨a, ha, heq⟩ := map_ok h
    cases heq
    obtain ⟨r, hr, heq⟩ := map_ok ha
    cases heq
    exact closed.threadWakeup hr
  | set enabled =>
    cases h
    exact closed
  | ret =>
    rw [Cpu.act] at h
    cases hexit : c.machine.exitSelf with
    | error crash =>
      rw [hexit] at h
      cases h
    | ok next =>
      rw [hexit] at h
      cases next with
      | none => cases h
      | some m' =>
        obtain ⟨r, hr, heq⟩ := map_ok h
        exact closed_comeBack (Option.some.inj heq) (closed.exited hexit hr).1.1

/-- In every reachable state, a failing call leaves no trace exactly when it is a `thread_yield`
or a `thread_sleep`, or interrupts were off before and it is no `thread_create` that runs out of
memory for the stack. -/
theorem failing_calls {actions : List Action} (run : acting.Run actions c) (request : Request) :
    FailsClean c request ↔ Traceless c request := by
  refine failsClean_iff (run.invariant_state (I := fun c => Closed c.machine) ?_ ?_) request
  · rintro c ⟨thread, hm⟩
    rw [hm]
    exact closed_threadInit thread
  · rintro c action c' closed ⟨v, h⟩
    exact closed_act closed h

/-- `thread_yield` with nobody ready. -/
theorem failing_calls_yield : FailsClean ⟨initial, true, fun _ => true⟩ (.yield THREAD_ANY) :=
  (failing_calls (.start ⟨_, rfl⟩) (.yield THREAD_ANY)).2 trivial

/-- `thread_exit(THREAD_ANY)` with nobody else returns `THREAD_NONE` with interrupts off. -/
theorem failing_exit_interrupts : ¬ ∀ actions c, acting.Run actions c → ∀ request,
    FailsClean c request := by
  intro h
  have clean := h [] ⟨initial, true, fun _ => true⟩ (.start ⟨_, rfl⟩) (.exit THREAD_ANY)
  have untouched := clean THREAD_NONE _ rfl (by decide)
  exact absurd untouched.enabled (by decide)

end Runs

end Ece344Lab.Threads
