import Ece344Lab.Threads.Switching

/-!
# What a suspended call returns

The code behind `getcontext` runs when a thread is suspended and again when it is resumed, and
decides by the states of two threads and by the table of identifiers whether it switches. A call
that switches transfers control once, and the thread it resumes returns the identifier that it
recorded when it was suspended, whatever happened in between.
-/
namespace Ece344Lab.Threads

open Library (System IsChain)

variable {m m' : Machine} {L L' : Places} {call : Call} {v : Option Tid} {c p temp fuel : Nat}
  {returned_tid : Tid} {r : Option Tid × Machine}
  {pass : Machine → Tid → Nat → Except Crash (Option Tid × Machine)}

/-- The same thread runs, and the states and the wait queues are the same. -/
structure SameStates (m m' : Machine) : Prop where
  running : m'.RUNNING_THREAD = m.RUNNING_THREAD
  queue : m'.queue = m.queue
  state : ∀ p, (m'.thread p).state = (m.thread p).state

theorem SameStates.refl (m : Machine) : SameStates m m := ⟨rfl, rfl, fun _ => rfl⟩

theorem SameStates.trans {m₁ m₂ m₃ : Machine} (h : SameStates m₁ m₂) (h' : SameStates m₂ m₃) :
    SameStates m₁ m₃ :=
  ⟨h'.running.trans h.running, h'.queue.trans h.queue, fun p => (h'.state p).trans (h.state p)⟩

theorem sameStates_modify {f : Thread → Thread} (h : ∀ t, (f t).state = t.state) (p : Nat) :
    SameStates m (m.modify p f) :=
  ⟨rfl, rfl, modify_field _ h⟩

/-- The running thread has been resumed, and `r` is what its call returns. -/
structure Restored (r : Option Tid × Machine) : Prop where
  state : (r.2.thread r.2.RUNNING_THREAD).state = .recover
  value : r.1 = (r.2.thread r.2.RUNNING_THREAD).thread_context.value

/-- What a piece of a switch leads to: the thread that runs in the end was resumed, unless it is
the one that was being suspended. -/
structure Lands (m : Machine) (r : Option Tid × Machine) : Prop where
  queue : r.2.queue = m.queue
  restored : r.2.RUNNING_THREAD ≠ m.RUNNING_THREAD ∨ (m.thread m.RUNNING_THREAD).state = .recover →
    Restored r

section Pieces

theorem insertLast_states {head first : Option Nat} (h : m.insertLast head p = .ok (first, m')) :
    SameStates m m' := by
  cases head with
  | none =>
    cases h
    exact .refl m
  | some first =>
    rw [Machine.insertLast] at h
    cases hlast : Library.lastNode m.next m.allocated first with
    | none =>
      rw [hlast] at h
      cases h
    | some temp =>
      rw [hlast] at h
      cases h
      exact sameStates_modify (f := fun t => { t with next := some p }) (fun _ => rfl) temp

theorem insertThreadToReady_states (h : m.insertThreadToReady p = .ok m') : SameStates m m' := by
  rw [Machine.insertThreadToReady] at h
  cases hr : m.insertLast m.READY_HEAD p with
  | error crash =>
    rw [hr] at h
    cases h
  | ok r =>
    rw [hr] at h
    cases h
    have hsame := insertLast_states hr
    exact ⟨hsame.running, hsame.queue, hsame.state⟩

theorem insertThreadToDelete_states (h : m.insertThreadToDelete p = .ok m') :
    SameStates m m' := by
  rw [Machine.insertThreadToDelete] at h
  cases hr : m.insertLast m.TO_DELETE_THREAD p with
  | error crash =>
    rw [hr] at h
    cases h
  | ok r =>
    rw [hr] at h
    cases h
    have hsame := insertLast_states hr
    exact ⟨hsame.running, hsame.queue, hsame.state⟩

/-- The insertion into a wait queue counts the thread. -/
theorem insertThreadToWait_size {q : Nat} (h : m.insertThreadToWait p q = .ok m') (i : Nat) :
    (m'.queue i).size = (m.queue i).size + if i = q then 1 else 0 := by
  rw [Machine.insertThreadToWait] at h
  cases hr : m.insertLast (m.queue q).wait_head p with
  | error crash =>
    rw [hr] at h
    cases h
  | ok r =>
    rw [hr] at h
    cases h
    have hqueue := (insertLast_states hr).queue
    dsimp only
    by_cases hi : i = q
    · rw [hi, Function.update_self, if_pos rfl]
    · rw [Function.update_of_ne hi, if_neg hi, hqueue, Int.add_zero]

theorem insertThreadToWait_running {q : Nat} (h : m.insertThreadToWait p q = .ok m') :
    m'.RUNNING_THREAD = m.RUNNING_THREAD := by
  rw [Machine.insertThreadToWait] at h
  cases hr : m.insertLast (m.queue q).wait_head p with
  | error crash =>
    rw [hr] at h
    cases h
  | ok r =>
    rw [hr] at h
    cases h
    exact (insertLast_states hr).running

theorem freeAll_states {thread thread' : Nat → Thread} {head : Option Nat}
    (h : Machine.freeAll fuel thread head = .ok thread') (p : Nat) :
    (thread' p).state = (thread p).state := by
  induction fuel generalizing thread head with
  | zero =>
    cases head with
    | none =>
      cases h
      rfl
    | some => cases h
  | succ fuel ih =>
    cases head with
    | none =>
      cases h
      rfl
    | some to_delete =>
      rw [Machine.freeAll] at h
      by_cases hfreed : (thread to_delete).freed = true
      · rw [if_pos hfreed] at h
        cases h
      · rw [if_neg hfreed] at h
        rw [ih h]
        by_cases hp : p = to_delete
        · rw [hp, Function.update_self]
        · rw [Function.update_of_ne hp]

theorem deleteThreadsList_states (h : m.deleteThreadsList = .ok m') : SameStates m m' := by
  rw [Machine.deleteThreadsList] at h
  cases hr : Machine.freeAll m.allocated m.thread m.TO_DELETE_THREAD with
  | error crash =>
    rw [hr] at h
    cases h
  | ok thread =>
    rw [hr] at h
    cases h
    exact ⟨rfl, rfl, freeAll_states hr⟩

theorem run_state (m : Machine) (p : Nat) :
    ((m.run p).thread (m.run p).RUNNING_THREAD).state = .recover := by
  change ((m.modify p fun t => { t with next := none, state := .recover }).thread p).state = _
  rw [modify_self]

/-- The thread to which an exiting thread switches. -/
theorem exitSelf_resumes (h : m.exitSelf = .ok (some m')) :
    m'.queue = m.queue ∧ (m'.thread m'.RUNNING_THREAD).state = .recover := by
  rw [Machine.exitSelf] at h
  cases hready : m.READY_HEAD with
  | none =>
    rw [hready] at h
    cases h
  | some new_run =>
    rw [hready] at h
    dsimp only at h
    cases hr : (m.leave new_run).insertThreadToDelete m.RUNNING_THREAD with
    | error crash =>
      rw [hr] at h
      cases h
    | ok m₁ =>
      rw [hr] at h
      cases h
      have hsame := insertThreadToDelete_states hr
      exact ⟨hsame.queue, run_state m₁ new_run⟩

end Pieces

section Passes

theorem resumeWith_lands
    (hpass : ∀ m v t r, (m.thread m.RUNNING_THREAD).thread_context = .switched v t →
      pass m v t = .ok r → Lands m r)
    (state : (m.thread m.RUNNING_THREAD).state = .recover)
    (h : Machine.resumeWith pass m = .ok r) : Lands m r := by
  rw [Machine.resumeWith] at h
  cases hcontext : (m.thread m.RUNNING_THREAD).thread_context with
  | stub =>
    rw [hcontext] at h
    cases h
    exact ⟨rfl, fun _ => ⟨state, by rw [hcontext]; rfl⟩⟩
  | switched v t =>
    rw [hcontext] at h
    exact hpass m v t r hcontext h

/-- The call returns to the thread that ran before. -/
theorem lands_return (same : SameStates m m') (contexts : SameContexts m m')
    (hcontext : (m.thread m.RUNNING_THREAD).thread_context = .switched returned_tid temp) :
    Lands m (some returned_tid, m') where
  queue := same.queue
  restored h := by
    have hstate := h.resolve_left fun hne => hne same.running
    have hown := contexts.context m.RUNNING_THREAD
    constructor
    · dsimp only
      rw [same.running, same.state, hstate]
    · dsimp only
      rw [same.running, hown, hcontext]
      rfl

theorem afterFlag_lands
    (hpass : ∀ m v t r, (m.thread m.RUNNING_THREAD).thread_context = .switched v t →
      pass m v t = .ok r → Lands m r)
    (hcontext : (m.thread m.RUNNING_THREAD).thread_context = .switched returned_tid temp)
    (h : m.afterFlag pass returned_tid temp = .ok r) : Lands m r := by
  rw [Machine.afterFlag] at h
  cases hdelete : m.deleteThreadsList with
  | error crash =>
    rw [hdelete] at h
    cases h
  | ok m₁ =>
    have same := deleteThreadsList_states hdelete
    have contexts := (deleteThreadsList_tame m).post _ hdelete
    rw [hdelete] at h
    dsimp only at h
    split_ifs at h
    · cases h
      exact lands_return same contexts hcontext
    · have hstate : ((m₁.setState temp .recover).thread temp).state = .recover := setState_self
      have hlands := resumeWith_lands (m := { m₁.setState temp .recover with
        RUNNING_THREAD := temp }) hpass hstate h
      exact ⟨hlands.queue.trans same.queue, fun _ => hlands.restored (.inr hstate)⟩
    · cases h
      exact lands_return same contexts hcontext

/-- Both passes of the code behind `getcontext`. -/
theorem afterGetcontext_lands
    (hcontext : (m.thread m.RUNNING_THREAD).thread_context = .switched returned_tid temp)
    (h : m.afterGetcontext fuel returned_tid temp = .ok r) : Lands m r := by
  induction fuel generalizing m returned_tid temp r with
  | zero => cases h
  | succ fuel ih =>
    have hpass : ∀ m v t r, (m.thread m.RUNNING_THREAD).thread_context = .switched v t →
        Machine.afterGetcontext fuel m v t = .ok r → Lands m r := fun _ _ _ _ hc hr => ih hc hr
    rw [Machine.afterGetcontext] at h
    by_cases hflag : (m.thread m.RUNNING_THREAD).flag = true
    · rw [if_pos hflag] at h
      cases hexit : m.exitSelf with
      | error crash =>
        rw [hexit] at h
        cases h
      | ok next =>
        rw [hexit] at h
        cases next with
        | none => exact afterFlag_lands hpass hcontext h
        | some m₁ =>
          obtain ⟨hqueue, hstate⟩ := exitSelf_resumes hexit
          have hlands := resumeWith_lands hpass hstate h
          exact ⟨hlands.queue.trans hqueue, fun _ => hlands.restored (.inr hstate)⟩
    · rw [if_neg hflag] at h
      exact afterFlag_lands hpass hcontext h

/-- The thread after an exit was resumed. -/
theorem exit_lands (hexit : m.exitSelf = .ok (some m'))
    (h : Machine.resumeWith (Machine.afterGetcontext fuel) m' = .ok r) :
    r.2.queue = m.queue ∧ Restored r := by
  obtain ⟨hqueue, hstate⟩ := exitSelf_resumes hexit
  have hlands := resumeWith_lands (fun _ _ _ _ hc hr => afterGetcontext_lands hc hr) hstate h
  exact ⟨hlands.queue.trans hqueue, hlands.restored (.inr hstate)⟩

/-- What a suspended thread has recorded. -/
theorem suspend_context (m : Machine) (returned_tid : Tid) (temp : Nat)
    (h : m.suspend returned_tid temp = .ok r) :
    SameContexts (m.modify m.RUNNING_THREAD fun t =>
      { t with state := .new, thread_context := .switched returned_tid temp }) r.2 :=
  (afterGetcontext_tame _ _ _ _).post r h

/-- A switch whose end is another thread than the suspended one. -/
theorem suspend_lands (h : m.suspend returned_tid temp = .ok r)
    (hne : r.2.RUNNING_THREAD ≠ m.RUNNING_THREAD) : r.2.queue = m.queue ∧ Restored r := by
  have hcontext : ((m.modify m.RUNNING_THREAD fun t =>
      { t with state := .new, thread_context := .switched returned_tid temp }).thread
        m.RUNNING_THREAD).thread_context = .switched returned_tid temp := by
    rw [modify_self]
  have hlands := afterGetcontext_lands hcontext h
  exact ⟨hlands.queue, hlands.restored (.inl hne)⟩

end Passes

section Calls

theorem Rep.head_chosen (rep : Rep m L) (h : m.readyList.head? = some c) :
    ∃ rest, L .ready = c :: rest := by
  rw [rep.readyList] at h
  obtain ⟨rest, hready⟩ := List.head?_eq_some_iff.1 h
  exact ⟨rest, hready⟩

/-- A chosen thread is ready. -/
theorem Rep.chosen_mem (rep : Rep m L) (h : m.chosen call = some c) : c ∈ L .ready := by
  rw [← rep.readyList]
  cases call with
  | create => cases h
  | yield want_tid =>
    rw [Machine.chosen] at h
    split_ifs at h
    · exact List.mem_of_mem_head? h
    · exact List.mem_of_find?_eq_some h
  | sleep queue =>
    cases queue with
    | none => cases h
    | some q => exact List.mem_of_mem_head? h
  | wakeup queue all => cases h
  | exit tid =>
    rw [Machine.chosen] at h
    split_ifs at h
    exact List.mem_of_mem_head? h
  | ret => exact List.mem_of_mem_head? h

/-- `thread_yield` up to its `getcontext`. -/
theorem yield_suspends (rep : Rep m L) {want_tid : Tid} (hc : m.chosen (.yield want_tid) = some c)
    (h : m.threadYield want_tid = .ok r) :
    ∃ M, SameContexts m M ∧ SameStates m M ∧ M.suspend (m.thread c).tid c = .ok r := by
  have hmem := rep.chosen_mem hc
  rw [Machine.chosen] at hc
  rw [Machine.threadYield] at h
  by_cases hany : want_tid = THREAD_ANY
  · rw [if_pos hany] at hc h
    obtain ⟨rest, hready⟩ := rep.head_chosen hc
    rw [rep.head_ready hready] at h
    dsimp only at h
    have contexts := insertThreadToReady_tame (m.popReady c) m.RUNNING_THREAD
    have hpop : SameStates m (m.popReady c) :=
      ⟨rfl, rfl, modify_field (f := fun t => { t with next := none }) Thread.state fun _ => rfl⟩
    cases hr : (m.popReady c).insertThreadToReady m.RUNNING_THREAD with
    | error crash =>
      rw [hr] at h
      cases h
    | ok M =>
      rw [hr] at h
      exact ⟨M, (sameContexts_popReady m c).trans (contexts.post _ hr),
        hpop.trans (insertThreadToReady_states hr), h⟩
  · by_cases hself : want_tid = THREAD_SELF ∨ want_tid = m.threadId
    · rw [if_neg hany, if_pos hself] at hc
      cases hc
    rw [if_neg hany, if_neg hself] at hc h
    obtain rfl : (m.thread c).tid = want_tid := by simpa using List.find?_some hc
    obtain ⟨h₀, h₁, harray⟩ := live_tid rep (by decide) hmem
    obtain ⟨l, l', hready⟩ := List.append_of_mem hmem
    obtain ⟨first, hfirst⟩ := rep.ready_some hmem
    rw [if_neg (valid_tid h₀ h₁), if_neg (Int.not_lt.2 h₀), if_neg (by rw [harray]; decide),
      hfirst] at h
    dsimp only at h
    rw [(findReady rep hready hfirst).1] at h
    dsimp only at h
    obtain ⟨m₁, hm₁⟩ : ∃ m₁, m₁ = if (m.thread first).tid = (m.thread c).tid then
      { m with READY_HEAD := m.next first }
        else m.setNext (l.getLast?.getD first) (m.next c) := ⟨_, rfl⟩
    rw [← hm₁] at h
    have hsame : SameContexts m m₁ ∧ SameStates m m₁ := by
      rw [hm₁]
      split
      · exact ⟨⟨rfl, fun _ => rfl⟩, ⟨rfl, rfl, fun _ => rfl⟩⟩
      · exact ⟨sameContexts_modify (f := fun t => { t with next := m.next c }) (fun _ => rfl) _,
          sameStates_modify (f := fun t => { t with next := m.next c }) (fun _ => rfl) _⟩
    have hcontexts : SameContexts m₁ (m₁.setNext c none) :=
      sameContexts_modify (f := fun t => { t with next := none }) (fun _ => rfl) c
    have hstates : SameStates m₁ (m₁.setNext c none) :=
      sameStates_modify (f := fun t => { t with next := none }) (fun _ => rfl) c
    have contexts := insertThreadToReady_tame (m₁.setNext c none) m.RUNNING_THREAD
    cases hr : (m₁.setNext c none).insertThreadToReady m.RUNNING_THREAD with
    | error crash =>
      rw [hr] at h
      cases h
    | ok M =>
      rw [hr] at h
      exact ⟨M, (hsame.1.trans hcontexts).trans (contexts.post _ hr),
        (hsame.2.trans hstates).trans (insertThreadToReady_states hr), h⟩

/-- `thread_sleep` up to its `getcontext`. -/
theorem sleep_suspends (rep : Rep m L) {q : Nat} (hc : m.chosen (.sleep (some q)) = some c)
    (h : m.threadSleep (some q) = .ok r) :
    ∃ M, SameContexts m M ∧ M.RUNNING_THREAD = m.RUNNING_THREAD ∧
      (∀ i, (M.queue i).size = (m.queue i).size + if i = q then 1 else 0) ∧
      M.suspend (m.thread c).tid c = .ok r := by
  obtain ⟨rest, hready⟩ := rep.head_chosen hc
  simp only [Machine.threadSleep, rep.head_ready hready] at h
  have contexts := insertThreadToWait_tame (m.popReady c) m.RUNNING_THREAD q
  cases hr : (m.popReady c).insertThreadToWait m.RUNNING_THREAD q with
  | error crash =>
    rw [hr] at h
    cases h
  | ok M =>
    rw [hr] at h
    have hrunning : M.RUNNING_THREAD = (m.popReady c).RUNNING_THREAD :=
      insertThreadToWait_running hr
    have hsize : ∀ i, (M.queue i).size = ((m.popReady c).queue i).size + if i = q then 1 else 0 :=
      insertThreadToWait_size hr
    exact ⟨M, (sameContexts_popReady m c).trans (contexts.post _ hr), hrunning, hsize, h⟩

/-- The thread chosen by a call is one that the call may choose. -/
theorem selfOnly_of_chosen (rep : Rep m L) (self : SelfExit call) (hc : m.chosen call = some c) :
    SelfOnly m call := by
  cases call with
  | wakeup queue all => cases hc
  | yield want_tid =>
    have hmem := rep.chosen_mem hc
    rw [Machine.chosen] at hc
    split_ifs at hc with hany hself
    · exact .inl hany
    · have htid : (m.thread c).tid = want_tid := by simpa using List.find?_some hc
      exact .inr (.inr (.inr ⟨L .ready, rep.linked.chain .ready, c, hmem, htid⟩))
  | exit tid => exact self
  | _ => trivial

/-- A call that chooses a thread returns exactly when this thread looks at no freed one. -/
theorem chosen_returns (rep : Rep m L) (hm : Unmarked m) (self : SelfExit call)
    (hc : m.chosen call = some c) :
    (∃ v m', m.invoke call = .ok (some (v, m'))) ↔ ¬ m.Stale call.destination c := by
  have hfreed : m.ReadsFreed call ↔ m.Stale call.destination c := by
    simp [Machine.ReadsFreed, hc]
  have performs := perform_spec rep (.inl (selfOnly_of_chosen rep self hc))
    (clean_of_unmarked rep hm)
  rw [← hfreed, ← performs.returns_iff hm]
  constructor
  · rintro ⟨v, m', h⟩
    exact ⟨some m', by rw [perform_invoke, h]; rfl⟩
  · rintro ⟨next, h⟩
    rw [perform_invoke] at h
    obtain ⟨r, hinvoke, hr⟩ := map_ok h
    cases r with
    | some r => exact ⟨r.1, r.2, hinvoke⟩
    | none =>
      -- the process ends only when no thread is left to choose
      have hnone : m.perform call = .ok none := by rw [perform_invoke, hinvoke]; rfl
      rcases performs.ends with heq | ⟨-, hc'⟩ | ⟨m', heq, -⟩
      · rw [heq] at hnone
        cases hnone
      · rw [hc] at hc'
        cases hc'
      · rw [heq] at hnone
        cases hnone

/-- The thread that runs after a step. -/
theorem Steps.running (h : Steps m L call m' L') (rep : Rep m L) :
    m'.RUNNING_THREAD = (m.chosen call).getD m.RUNNING_THREAD := by
  have hplace := h.queues .running (by decide)
  rw [h.rep.running] at hplace
  cases hc : m.chosen call with
  | none =>
    have hstay : stayed L m call .running = L .running := by
      cases call with
      | create =>
        rw [stayed]
        split
        · exact Function.update_of_ne (by decide) ..
        · rfl
      | wakeup queue all =>
        cases queue with
        | none => rfl
        | some q =>
          rw [stayed]
          split
          · exact wakes_of_ne (by decide) (by simp)
          · rfl
      | _ => rfl
    rw [stepped_none hc, hstay, rep.running] at hplace
    exact List.singleton_inj.1 hplace
  | some c =>
    rw [stepped_chosen hc, switched_running] at hplace
    exact List.singleton_inj.1 hplace

/-- A call that switches suspends its caller, or the caller has terminated. -/
theorem switch_cases (rep : Rep m L) (self : SelfExit call) (hc : m.chosen call = some c)
    (h : m.invoke call = .ok (some r)) :
    (call.destination ≠ .dying ∧ ∃ M, SameContexts m M ∧ M.RUNNING_THREAD = m.RUNNING_THREAD ∧
      (∀ i, (M.queue i).size =
        (m.queue i).size + if call.destination = .waiting i then 1 else 0) ∧
      M.suspend (m.thread c).tid c = .ok r) ∨
    call.destination = .dying ∧ ∃ M, m.exitSelf = .ok (some M) ∧
      Machine.resumeWith (Machine.afterGetcontext M.fuel) M = .ok r := by
  cases call with
  | create => cases hc
  | wakeup queue all => cases hc
  | yield want_tid =>
    rw [Machine.invoke] at h
    obtain ⟨r, heq, hr⟩ := map_ok h
    cases hr
    obtain ⟨M, hcontexts, hsame, hsuspend⟩ := yield_suspends rep hc heq
    refine .inl ⟨by simp [Call.destination], M, hcontexts, hsame.running, fun i => ?_, hsuspend⟩
    rw [hsame.queue, if_neg (by simp [Call.destination]), Int.add_zero]
  | sleep queue =>
    cases queue with
    | none => cases hc
    | some q =>
      rw [Machine.invoke] at h
      obtain ⟨r, heq, hr⟩ := map_ok h
      cases hr
      obtain ⟨M, hcontexts, hrunning, hsize, hsuspend⟩ := sleep_suspends rep hc heq
      refine .inl ⟨by simp [Call.destination], M, hcontexts, hrunning, fun i => ?_, hsuspend⟩
      rw [hsize]
      simp only [Call.destination, Place.waiting.injEq, eq_comm]
  | exit tid =>
    obtain rfl : tid = THREAD_SELF := self
    rw [Machine.chosen, if_pos rfl] at hc
    obtain ⟨rest, hready⟩ := rep.head_chosen hc
    obtain ⟨M, hexit, -⟩ := exit_resume rep hready
    rw [Machine.invoke, Machine.threadExit, if_pos rfl, hexit] at h
    obtain ⟨r, heq, hr⟩ := map_ok h
    cases hr
    exact .inr ⟨rfl, M, hexit, heq⟩
  | ret =>
    obtain ⟨rest, hready⟩ := rep.head_chosen hc
    obtain ⟨M, hexit, -⟩ := exit_resume rep hready
    rw [Machine.invoke, hexit] at h
    obtain ⟨r, heq, hr⟩ := map_ok h
    cases hr
    exact .inr ⟨rfl, M, hexit, heq⟩

/-- A call that switches ends in the thread it chose, which returns from its own call. -/
theorem invoke_restored (rep : Rep m L) (self : SelfExit call) (hc : m.chosen call = some c)
    (h : m.invoke call = .ok (some r)) (hrunning : r.2.RUNNING_THREAD = c) :
    Restored r ∧ ∀ i, (r.2.queue i).size =
      (m.queue i).size + if call.destination = .waiting i then 1 else 0 := by
  have hne : r.2.RUNNING_THREAD ≠ m.RUNNING_THREAD :=
    hrunning ▸ rep.ne_running (rep.chosen_mem hc) (by decide)
  rcases switch_cases rep self hc h with ⟨-, M, -, hsame, hsize, hsuspend⟩ | ⟨hd, M, hexit, hres⟩
  · obtain ⟨hqueue, restored⟩ := suspend_lands hsuspend (hsame ▸ hne)
    exact ⟨restored, fun i => by rw [hqueue, hsize]⟩
  · obtain ⟨hqueue, restored⟩ := exit_lands hexit hres
    exact ⟨restored, fun i => by rw [hqueue, hd, if_neg (by simp), Int.add_zero]⟩

end Calls

/-- What each suspended thread is to return: the identifier of the thread to which it switched. -/
def Machine.awaiting (m : Machine) (call : Call) (awaits : Nat → Option Tid) : Nat → Option Tid :=
  match m.chosen call with
  | none => awaits
  | some c =>
    if call.destination = .dying then awaits
    else Function.update awaits m.RUNNING_THREAD (some (m.thread c).tid)

/-- The machine with the identifiers that the suspended calls are to return. -/
structure Traced where
  machine : Machine
  awaits : Nat → Option Tid

/-- Runs in which threads terminate only themselves. An event is a call with the value it gives to
the thread that runs afterwards. `malloc` does not fail. -/
def switching : System Traced (Call × Option Tid) where
  start s := (∃ thread, s.machine = Machine.threadInit thread) ∧ s.awaits = fun _ => none
  step s e s' := SelfExit e.1 ∧ s.machine.invoke e.1 = .ok (some (e.2, s'.machine)) ∧
    s'.awaits = s.machine.awaiting e.1 s.awaits

/-- A call transfers control to `c`, once: the caller is suspended, nobody else moves, and `c`
returns what it was to return. -/
structure SwitchesOnce (s : Traced) (call : Call) (c : Nat) (v : Option Tid) (m' : Machine) :
    Prop where
  running : m'.RUNNING_THREAD = c
  state : (m'.thread c).state = .recover
  value : v = s.awaits c
  ready : m'.readyList = s.machine.readyList.erase c ++
    if call.destination = .ready then [s.machine.RUNNING_THREAD] else []
  waiting : ∀ q, m'.waitList q = s.machine.waitList q ++
    if call.destination = .waiting q then [s.machine.RUNNING_THREAD] else []

/-- The context of each thread holds what it is to return. -/
def Recorded (m : Machine) (awaits : Nat → Option Tid) : Prop :=
  ∀ p, awaits p = if p < m.allocated then (m.thread p).thread_context.value else none

variable {awaits : Nat → Option Tid}

theorem SameContexts.recorded (h : SameContexts m m') (recorded : Recorded m awaits) :
    Recorded m' awaits := by
  intro p
  rw [recorded p, h.allocated, h.context]

/-- A suspended thread records the thread to which it switches. -/
theorem recorded_suspend {M : Machine} {t : Tid} (recorded : Recorded m awaits)
    (hrun : m.RUNNING_THREAD < m.allocated) (hcontexts : SameContexts m M)
    (hrunning : M.RUNNING_THREAD = m.RUNNING_THREAD) (h : M.suspend t temp = .ok r) :
    Recorded r.2 (Function.update awaits m.RUNNING_THREAD (some t)) := by
  have hsame := suspend_context M t temp h
  intro p
  rw [hsame.context, hsame.allocated, hrunning]
  by_cases hp : p = m.RUNNING_THREAD
  · subst hp
    have hallocated : m.RUNNING_THREAD < (M.modify m.RUNNING_THREAD fun t' =>
        { t' with state := .new, thread_context := .switched t temp }).allocated := by
      change m.RUNNING_THREAD < M.allocated
      rwa [hcontexts.allocated]
    rw [Function.update_self, modify_self, if_pos hallocated]
    rfl
  · rw [Function.update_of_ne hp, modify_of_ne hp, hcontexts.recorded recorded p]
    rfl

theorem recorded_create {new_id : Nat} (hid : m.assignThreadId = some new_id)
    (recorded : Recorded m awaits) (h : m.threadCreate = .ok (returned_tid, m')) :
    Recorded m' awaits := by
  have hnew : Recorded (withNew m new_id) awaits := by
    intro p
    have hallocated : (withNew m new_id).allocated = m.allocated + 1 := rfl
    rw [recorded p, hallocated]
    by_cases hp : p = m.allocated
    · subst hp
      rw [if_neg (Nat.lt_irrefl _), if_pos (Nat.lt_succ_self _), withNew_self]
      rfl
    · rw [withNew_of_ne hp]
      by_cases hlt : p < m.allocated
      · rw [if_pos hlt, if_pos (Nat.lt_succ_of_lt hlt)]
      · rw [if_neg hlt, if_neg (by omega)]
  rw [threadCreate_eq hid] at h
  obtain ⟨M, heq, hM⟩ := map_ok h
  cases hM
  exact ((insertThreadToReady_tame _ _).post _ heq).recorded hnew

/-- A call that chooses nobody leaves the machine, or sets the state of the running thread, or it
creates or wakes threads. -/
theorem stay_cases (rep : Rep m L) (self : SelfExit call) (hc : m.chosen call = none)
    (h : m.invoke call = .ok (some (v, m'))) :
    (m' = m ∨ m' = m.setState m.RUNNING_THREAD .recover) ∨
      (call = .create ∧ ∃ new_id n, m.assignThreadId = some new_id ∧
        m.threadCreate = .ok (n, m')) ∨
      ∃ queue all n, call = .wakeup queue all ∧ m.threadWakeup queue all = .ok (n, m') := by
  have hnil : m.readyList.head? = none → L .ready = [] := fun h =>
    rep.readyList ▸ List.head?_eq_none_iff.1 h
  cases call with
  | create =>
    rw [Machine.invoke] at h
    obtain ⟨r, heq, hr⟩ := map_ok h
    cases hr
    cases hid : m.assignThreadId with
    | none =>
      rw [threadCreate_none hid] at heq
      cases heq
      exact .inl (.inl rfl)
    | some new_id => exact .inr (.inl ⟨rfl, new_id, r.1, rfl, heq⟩)
  | yield want_tid =>
    rw [Machine.invoke] at h
    obtain ⟨r, heq, hr⟩ := map_ok h
    cases hr
    rw [Machine.chosen] at hc
    split_ifs at hc with hany hself
    · subst hany
      rw [threadYield_any_nil rep (hnil hc)] at heq
      cases heq
      exact .inl (.inl rfl)
    · rw [threadYield_self hany hself] at heq
      cases heq
      exact .inl (.inr rfl)
    · rw [rep.readyList] at hc
      have habsent : ¬ ∃ p ∈ L .ready, (m.thread p).tid = want_tid := by
        rintro ⟨p, hp, htid⟩
        have hno := List.find?_eq_none.1 hc p hp
        simp [htid] at hno
      exact .inl (.inl (threadYield_absent rep hany hself habsent heq))
  | sleep queue =>
    rw [Machine.invoke] at h
    obtain ⟨r, heq, hr⟩ := map_ok h
    cases hr
    cases queue with
    | none =>
      cases heq
      exact .inl (.inl rfl)
    | some q =>
      rw [threadSleep_nil rep (hnil hc)] at heq
      cases heq
      exact .inl (.inl rfl)
  | wakeup queue all =>
    rw [Machine.invoke] at h
    obtain ⟨r, heq, hr⟩ := map_ok h
    cases hr
    exact .inr (.inr ⟨queue, all, r.1, rfl, heq⟩)
  | exit tid =>
    obtain rfl : tid = THREAD_SELF := self
    rw [Machine.chosen, if_pos rfl] at hc
    rw [Machine.invoke, Machine.threadExit, if_pos rfl, exitSelf_nil rep (hnil hc)] at h
    cases h
    exact .inl (.inl rfl)
  | ret =>
    rw [Machine.invoke, exitSelf_nil rep (hnil hc)] at h
    cases h

/-- A call that chooses nobody leaves the contexts of the threads. -/
theorem recorded_stay (rep : Rep m L) (self : SelfExit call) (hc : m.chosen call = none)
    (recorded : Recorded m awaits) (h : m.invoke call = .ok (some (v, m'))) :
    Recorded m' awaits := by
  rcases stay_cases rep self hc h with (rfl | rfl) | ⟨-, new_id, n, hid, heq⟩ |
    ⟨queue, all, n, -, heq⟩
  · exact recorded
  · have hsame : SameContexts m (m.setState m.RUNNING_THREAD .recover) :=
      sameContexts_modify (f := fun t => { t with state := .recover }) (fun _ => rfl) _
    exact hsame.recorded recorded
  · exact recorded_create hid recorded heq
  · exact ((threadWakeup_tame queue all).post _ heq).recorded recorded

/-- The identifiers to return stay recorded in the contexts. -/
theorem recorded_step (rep : Rep m L) (self : SelfExit call)
    (recorded : Recorded m awaits) (h : m.invoke call = .ok (some (v, m'))) :
    Recorded m' (m.awaiting call awaits) := by
  have hrun := (rep.held .running _ rep.mem_running).1
  rw [Machine.awaiting]
  cases hc : m.chosen call with
  | none => exact recorded_stay rep self hc recorded h
  | some c =>
    dsimp only
    rcases switch_cases rep self hc h with ⟨hd, M, hcontexts, hrunning, -, hsuspend⟩ |
      ⟨hd, M, hexit, hres⟩
    · rw [if_neg hd]
      exact recorded_suspend recorded hrun hcontexts hrunning hsuspend
    · have hresume := (resumeWith_tame (afterGetcontext_tame M.fuel) M).post _ hres
      rw [if_pos hd]
      exact (((exitSelf_tame m).post _ hexit).trans hresume).recorded recorded

/-- The queues after a switch. -/
theorem stepped_lists (hc : m.chosen call = some c) (hd : call.destination ≠ .running) :
    stepped L m call .ready = (L .ready).erase c ++
        (if call.destination = .ready then [m.RUNNING_THREAD] else []) ∧
      ∀ q, stepped L m call (.waiting q) = L (.waiting q) ++
        if call.destination = .waiting q then [m.RUNNING_THREAD] else [] := by
  rw [stepped_chosen hc]
  refine ⟨?_, fun q => ?_⟩
  · rw [switched_of_ne hd (by decide), Function.update_self]
    simp only [eq_comm]
  · rw [switched_of_ne hd (by simp), Function.update_of_ne (by simp)]
    simp only [eq_comm]

theorem destination_ne_running : call.destination ≠ .running := by
  cases call with
  | sleep queue => cases queue <;> simp [Call.destination]
  | _ => simp [Call.destination]

/-- In every run in which threads terminate only themselves, the queues are held, no thread is
marked, and each context holds what its thread is to return. -/
theorem switching_rep {events : List (Call × Option Tid)} {s : Traced}
    (run : switching.Run events s) :
    (∃ L, Rep s.machine L) ∧ Unmarked s.machine ∧ Recorded s.machine s.awaits := by
  refine run.invariant_state (I := fun s => (∃ L, Rep s.machine L) ∧ Unmarked s.machine ∧
    Recorded s.machine s.awaits) ?_ ?_
  · rintro s ⟨⟨thread, hm⟩, hawaits⟩
    rw [hm, hawaits]
    refine ⟨⟨_, rep_threadInit thread⟩, unmarked_threadInit thread, fun p => ?_⟩
    split_ifs with hp
    · rw [Nat.lt_one_iff.1 hp]
      rfl
    · rfl
  · rintro s ⟨call, v⟩ s' ⟨⟨L, rep⟩, hm, recorded⟩ ⟨self, hinvoke, hawaits⟩
    obtain ⟨L', steps⟩ := invoke_steps rep hm hinvoke self
    exact ⟨⟨L', steps.rep⟩, steps.unmarked, hawaits ▸ recorded_step rep self recorded hinvoke⟩

/-- In every run in which threads terminate only themselves, a call that chooses a thread returns
in that thread, which it resumes once and whose own call returns the identifier recorded when it
was suspended, exactly when that thread does not look at a freed one; the other calls do not
switch. The suspended threads are in the state `NEW_STATE`. -/
theorem switches_once {events : List (Call × Option Tid)} {s : Traced}
    (run : switching.Run events s) :
    (∀ call c, SelfExit call → s.machine.chosen call = some c →
      ((∃ v m', s.machine.invoke call = .ok (some (v, m')) ∧ SwitchesOnce s call c v m') ↔
        ¬ s.machine.Stale call.destination c)) ∧
    (∀ call v m', SelfExit call → s.machine.chosen call = none →
      s.machine.invoke call = .ok (some (v, m')) →
        m'.RUNNING_THREAD = s.machine.RUNNING_THREAD) ∧
    (∀ p ∈ s.machine.readyList, (s.machine.thread p).state = .new) ∧
    ∀ q, ∀ p ∈ s.machine.waitList q, (s.machine.thread p).state = .new := by
  obtain ⟨⟨L, rep⟩, hm, recorded⟩ := switching_rep run
  refine ⟨fun call c self hc => ?_, fun call v m' self hc h => ?_, fun p hp => ?_,
    fun q p hp => ?_⟩
  · rw [← chosen_returns rep hm self hc]
    refine ⟨fun ⟨v, m', h, _⟩ => ⟨v, m', h⟩, fun ⟨v, m', h⟩ => ?_⟩
    obtain ⟨L', steps⟩ := invoke_steps rep hm h self
    have hrunning : m'.RUNNING_THREAD = c := by rw [steps.running rep, hc]; rfl
    have restored := (invoke_restored rep self hc h hrunning).1
    have hrecorded := recorded_step rep self recorded h c
    have hlt : c < m'.allocated := hrunning ▸ (steps.rep.held .running _ steps.rep.mem_running).1
    have hne : c ≠ s.machine.RUNNING_THREAD := rep.ne_running (rep.chosen_mem hc) (by decide)
    have hawaits : s.machine.awaiting call s.awaits c = s.awaits c := by
      rw [Machine.awaiting, hc]
      dsimp only
      split_ifs
      · rfl
      · exact Function.update_of_ne hne ..
    obtain ⟨hready, hwaiting⟩ := stepped_lists (L := L) hc destination_ne_running
    refine ⟨v, m', h, hrunning, ?_, ?_, ?_, fun q => ?_⟩
    · rw [← hrunning]
      exact restored.state
    · rw [← hawaits, hrecorded, if_pos hlt, ← hrunning]
      exact restored.value
    · rw [steps.rep.readyList, steps.queues _ (by decide), hready, rep.readyList]
    · rw [steps.rep.waitList, steps.queues _ (by simp), hwaiting, rep.waitList]
  · obtain ⟨L', steps⟩ := invoke_steps rep hm h self
    rw [steps.running rep, hc]
    rfl
  · rw [rep.readyList] at hp
    exact rep.suspended .ready p hp (by decide) (by decide)
  · rw [rep.waitList] at hp
    exact rep.suspended (.waiting q) p hp (by simp) (by simp)

theorem switching_next (call : Call) {events : List (Call × Option Tid)}
    (run : switching.Run events ⟨m, awaits⟩) (self : SelfExit call)
    (returns : m.returns call = true) :
    ∃ events', switching.Run events' ⟨m.after call, m.awaiting call awaits⟩ := by
  have hperform := perform_after returns
  rw [perform_invoke] at hperform
  obtain ⟨r, hinvoke, hr⟩ := map_ok hperform
  cases r with
  | none => cases hr
  | some r =>
    obtain ⟨v, m'⟩ := r
    cases hr
    exact ⟨_, run.next (e := (call, v)) ⟨self, hinvoke, rfl⟩⟩

/-- A thread is created and yielded to; it yields back, and the first call returns its
identifier. -/
theorem switches_once_back : ∃ m', ((initial.after .create).after (.yield THREAD_ANY)).invoke
    (.yield THREAD_ANY) = .ok (some (some 1, m')) ∧ m'.RUNNING_THREAD = 0 := by
  have start : switching.Run [] ⟨initial, fun _ => none⟩ := .start ⟨⟨_, rfl⟩, rfl⟩
  obtain ⟨_, created⟩ := switching_next .create start trivial (by decide +kernel)
  obtain ⟨_, yielded⟩ := switching_next (.yield THREAD_ANY) created trivial (by decide +kernel)
  have hstale : ¬ ((initial.after .create).after (.yield THREAD_ANY)).Stale .ready 0 := by
    rintro ⟨returned_tid, temp, hcontext, -, hgone⟩
    have hsaved : (((initial.after .create).after (.yield THREAD_ANY)).thread 0).thread_context =
        .switched 1 1 := by decide +kernel
    rw [hsaved] at hcontext
    cases hcontext
    rcases hgone with hfreed | hdying | ⟨h, -⟩
    · exact absurd hfreed (by decide +kernel)
    · have hnone : ((initial.after .create).after (.yield THREAD_ANY)).toDelete = [] := by
        decide +kernel
      rw [hnone] at hdying
      cases hdying
    · cases h
  have returns := (switches_once yielded).1 (.yield THREAD_ANY) 0 trivial (by decide +kernel)
  dsimp only [Call.destination] at returns
  obtain ⟨v, m', h, once⟩ := returns.2 hstale
  have hv : v = some 1 := by
    rw [once.value]
    decide +kernel
  rw [hv] at h
  exact ⟨m', h, once.running⟩

set_option maxRecDepth 20000 in
/-- Thread 0 yields to thread 1, which returns from its `thread_main`; thread 2 creates a thread,
which gets the identifier 1, and yields to thread 0: its call reads the state of thread 1, which it
has just freed. -/
theorem reused_tid_reads_freed : ¬ ∀ events s, switching.Run events s →
    ∀ call c, SelfExit call → s.machine.chosen call = some c →
      ∃ v m', s.machine.invoke call = .ok (some (v, m')) ∧ SwitchesOnce s call c v m' := by
  intro h
  have start : switching.Run [] ⟨initial, fun _ => none⟩ := .start ⟨⟨_, rfl⟩, rfl⟩
  obtain ⟨_, first⟩ := switching_next .create start trivial (by decide +kernel)
  obtain ⟨_, second⟩ := switching_next .create first trivial (by decide +kernel)
  obtain ⟨_, yielded⟩ := switching_next (.yield THREAD_ANY) second trivial (by decide +kernel)
  obtain ⟨_, returned⟩ := switching_next .ret yielded trivial (by decide +kernel)
  obtain ⟨_, reused⟩ := switching_next .create returned trivial (by decide +kernel)
  obtain ⟨v, m', hinvoke, -⟩ := h _ _ reused (.yield THREAD_ANY) 0 trivial (by decide +kernel)
  have hreturns : (((((initial.after .create).after .create).after (.yield THREAD_ANY)).after
      .ret).after .create).returns (.yield THREAD_ANY) = false := by decide +kernel
  rw [Machine.returns, perform_invoke, hinvoke] at hreturns
  cases hreturns

end Ece344Lab.Threads
