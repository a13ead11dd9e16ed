import Ece344Lab.Threads.Places
import Mathlib.Tactic.Convert
import Mathlib.Tactic.Tauto

/-!
# The calls of the thread library

What `thread_yield`, `thread_sleep`, `thread_wakeup`, `thread_exit` and `thread_create` do to the
queues. A switch runs the code behind `getcontext` twice: the suspending pass picks the next
thread, and the pass of the resumed thread deletes the exited threads, or exits when the resumed
thread is marked.
-/
namespace Ece344Lab.Threads

open Library (Queues Linked IsChain Partitioned)

variable {m : Machine} {L : Places} {temp fuel : Nat} {rest : List Nat} {τ : Place}

/-- No thread is marked by a `thread_exit` of another. -/
def Unmarked (m : Machine) : Prop := ∀ p < m.allocated, (m.thread p).flag = false

/-- The same queues but for the list of threads to delete. -/
def SameQueues (L L' : Places) : Prop := ∀ i, i ≠ .dying → L' i = L i

/-- The threads in the list of threads to delete. -/
def Machine.toDelete (m : Machine) : List Nat :=
  Library.nodes m.next m.allocated m.TO_DELETE_THREAD

/-- Resumed while the running thread goes to `τ`, the thread `c` looks at a thread that is freed by
then: the one to which it switched last has terminated, and its identifier is in use again. -/
def Machine.Stale (m : Machine) (τ : Place) (c : Nat) : Prop :=
  ∃ returned_tid temp, (m.thread c).thread_context = .switched returned_tid temp ∧
    (m.thread_id_array returned_tid.toNat = true ∧
      (τ = .dying → returned_tid.toNat ≠ (m.thread m.RUNNING_THREAD).tid.toNat)) ∧
    ((m.thread temp).freed = true ∨ temp ∈ m.toDelete ∨ τ = .dying ∧ temp = m.RUNNING_THREAD)

theorem Rep.toDelete_eq (rep : Rep m L) : m.toDelete = L .dying :=
  (rep.linked.chain .dying).nodes_eq (rep.length_le .dying)

/-- Only the context of `c`, the identifiers in use and the freed threads matter. -/
theorem stale_congr {m' : Machine} {c : Nat} (hτ : τ ≠ .dying)
    (context : (m'.thread c).thread_context = (m.thread c).thread_context)
    (array : m'.thread_id_array = m.thread_id_array)
    (gone : ∀ t, (m'.thread t).freed = true ∨ t ∈ m'.toDelete ↔
      (m.thread t).freed = true ∨ t ∈ m.toDelete) :
    m'.Stale .running c ↔ m.Stale τ c := by
  simp only [Machine.Stale, context, array, reduceCtorEq, false_imp_iff, false_and, hτ, or_false,
    and_true, gone]

theorem reap_freed {l : List Nat} {p : Nat} :
    ((m.reap l).thread p).freed = true ↔ (m.thread p).freed = true ∨ p ∈ l := by
  by_cases hp : p ∈ l
  · simp [Machine.reap, hp]
  · rw [reap_thread hp]
    simp [hp]

/-- The pass of a resumed thread that stays: it deletes what is to be deleted and returns, unless
it reads the state of a freed thread first. -/
theorem afterFlag_resumed (rep : Rep m L) (state : (m.thread m.RUNNING_THREAD).state = .recover)
    (pass : Machine → Tid → Nat → Except Crash (Option Tid × Machine)) (returned_tid : Tid) :
    m.afterFlag pass returned_tid temp =
      if m.thread_id_array returned_tid.toNat = true ∧
        ((m.reap (L .dying)).thread temp).freed = true then .error .useAfterFree
      else .ok (some returned_tid, m.reap (L .dying)) := by
  have hdelete : m.deleteThreadsList = .ok (m.reap (L .dying)) := Rep.deleteThreadsList_eq rep
  have hrunning : ((m.reap (L .dying)).thread (m.reap (L .dying)).RUNNING_THREAD).state =
      .recover := by
    rw [← state]
    exact congrArg Thread.state
      (reap_thread (rep.linked.partitioned.notMem rep.mem_running (by decide)))
  have harray : (m.reap (L .dying)).thread_id_array = m.thread_id_array := rfl
  rw [Machine.afterFlag, hdelete]
  dsimp only
  rw [hrunning, harray]
  by_cases hused : m.thread_id_array returned_tid.toNat = true
  · rw [if_neg (by rw [hused]; decide)]
    by_cases hfreed : ((m.reap (L .dying)).thread temp).freed = true
    · rw [if_pos hfreed, if_pos ⟨hused, hfreed⟩]
    · rw [if_neg hfreed, if_neg fun h => h.2 rfl, if_neg fun h => hfreed h.2]
  · rw [if_pos (by simpa using hused), if_neg fun h => hused h.1]

/-- What a resumed thread does to the queues: it may delete, and marked threads exit in turn. -/
structure Resumed (m : Machine) (L : Places) (m' : Machine) (L' : Places) : Prop where
  rep : Rep m' L'
  keeps : Keeps m m'
  same : (m.thread m.RUNNING_THREAD).flag = false → SameQueues L L'

/-- The end of a resumption: a read of a freed thread, or a thread that returns. -/
structure Resumes (m : Machine) (L : Places) (r : Except Crash (Option Tid × Machine)) :
    Prop where
  ends : r = .error .useAfterFree ∨ ∃ v m' L', r = .ok (v, m') ∧ Resumed m L m' L'
  faults : (m.thread m.RUNNING_THREAD).flag = false →
    (r = .error .useAfterFree ↔ m.Stale .running m.RUNNING_THREAD)

theorem afterFlag_resumes (rep : Rep m L) (state : (m.thread m.RUNNING_THREAD).state = .recover)
    (pass : Machine → Tid → Nat → Except Crash (Option Tid × Machine)) {returned_tid : Tid}
    (hcontext : (m.thread m.RUNNING_THREAD).thread_context = .switched returned_tid temp) :
    Resumes m L (m.afterFlag pass returned_tid temp) := by
  have hstale : m.Stale .running m.RUNNING_THREAD ↔ m.thread_id_array returned_tid.toNat = true ∧
      ((m.reap (L .dying)).thread temp).freed = true := by
    simp [Machine.Stale, hcontext, reap_freed, rep.toDelete_eq]
  rw [afterFlag_resumed rep state]
  constructor
  · split
    · exact .inl rfl
    · exact .inr ⟨_, _, _, rfl, rep.reap, keeps_reap _ _, fun _ i hi => Function.update_of_ne hi ..⟩
  · intro _
    rw [hstale]
    split
    · rename_i h
      exact iff_of_true rfl h
    · rename_i h
      exact iff_of_false (fun h => by cases h) h

/-- Resuming a thread ends, in the resumed thread or in one behind it in the ready list. -/
theorem resume_spec (rep : Rep m L) (state : (m.thread m.RUNNING_THREAD).state = .recover)
    (hfuel : (L .ready).length < fuel) :
    Resumes m L (Machine.resumeWith (Machine.afterGetcontext fuel) m) := by
  induction fuel generalizing m L with
  | zero => exact absurd hfuel (Nat.not_lt_zero _)
  | succ fuel ih =>
    rw [Machine.resumeWith]
    cases hcontext : (m.thread m.RUNNING_THREAD).thread_context with
    | stub =>
      refine ⟨.inr ⟨none, m, L, rfl, rep, Keeps.refl m, fun _ _ _ => rfl⟩,
        fun _ => iff_of_false (fun h => by cases h) ?_⟩
      rintro ⟨_, _, h, -⟩
      rw [hcontext] at h
      cases h
    | switched returned_tid temp =>
      have hstay := afterFlag_resumes rep state (Machine.afterGetcontext fuel) hcontext
      dsimp only
      rw [Machine.afterGetcontext]
      by_cases hflag : (m.thread m.RUNNING_THREAD).flag = true
      · rw [if_pos hflag]
        cases hready : L .ready with
        | nil =>
          rw [Machine.exitSelf, rep.ready_nil.2 hready]
          exact hstay
        | cons next rest =>
          obtain ⟨m₁, heq, rep₁, keeps₁, hrun, hstate, -⟩ := exitSelf_spec rep hready
          rw [heq]
          dsimp only
          have hlen : (switched L .dying rest m.RUNNING_THREAD next .ready).length < fuel := by
            rw [switched_of_ne (by decide) (by decide), Function.update_self, if_neg (by decide),
              List.append_nil]
            rw [hready, List.length_cons] at hfuel
            omega
          refine ⟨(ih rep₁ (hrun.symm ▸ hstate) hlen).ends.imp_right ?_, fun h => ?_⟩
          · rintro ⟨v, m', L', hres, rep', keeps', -⟩
            refine ⟨v, m', L', hres, rep', keeps₁.trans keeps', fun h => ?_⟩
            rw [h] at hflag
            cases hflag
          · rw [h] at hflag
            cases hflag
      · rw [if_neg hflag]
        exact hstay

theorem setState_self {s : State} : ((m.setState temp s).thread temp).state = s := by
  rw [Machine.setState, modify_self]

theorem keeps_setState (m : Machine) (p : Nat) (s : State) : Keeps m (m.setState p s) :=
  keeps_modify (fun _ => rfl) (fun _ => rfl) fun _ => rfl

theorem Rep.setState_running (rep : Rep m L) (s : State) :
    Rep (m.setState m.RUNNING_THREAD s) L :=
  rep.modify (fun _ => rfl) (fun _ => rfl) (fun _ => rfl) (fun _ => rfl) (.inl rfl)

/-- The rest of the suspending pass, once the pointers and heads of a switch are written: it goes on
in the next thread. -/
theorem afterFlag_suspending (rep : Rep (m.switchTo temp) L)
    (saved : (m.thread m.RUNNING_THREAD).state = .new) (new : (m.thread temp).state = .new) :
    m.afterFlag (Machine.afterGetcontext fuel) (m.thread temp).tid temp =
      Machine.resumeWith (Machine.afterGetcontext fuel)
        (((m.switchTo temp).reap (L .dying)).setState temp .recover) := by
  have hlive : (m.switchTo temp).Live temp := rep.live_of_mem (by decide) rep.mem_running
  have hb : 0 ≤ (m.thread temp).tid ∧ (m.thread temp).tid < THREAD_MAX_THREADS :=
    rep.tids.bound temp hlive
  have harray : m.thread_id_array (m.thread temp).tid.toNat = true :=
    (rep.tids.in_use _ ((Int.toNat_lt hb.1).2 hb.2)).2
      ⟨temp, hlive, (Int.toNat_of_nonneg hb.1).symm⟩
  have hused : ¬ (m.reap (L .dying)).thread_id_array (m.thread temp).tid.toNat = false := by
    rw [show (m.reap (L .dying)).thread_id_array = m.thread_id_array from rfl, harray]
    decide
  have hheld : ¬ ((m.reap (L .dying)).thread temp).freed = true := by
    rw [reap_freed, not_or]
    refine ⟨?_, rep.linked.partitioned.notMem rep.mem_running (by decide)⟩
    rw [show (m.thread temp).freed = false from (rep.held .running temp rep.mem_running).2]
    decide
  have hstate : ∀ q, ((m.reap (L .dying)).thread q).state = (m.thread q).state :=
    reap_field Thread.state (fun _ => rfl) (L .dying)
  have hswitch : ((m.reap (L .dying)).thread temp).state = .new ∧
      ((m.reap (L .dying)).thread (m.reap (L .dying)).RUNNING_THREAD).state ≠ .recover := by
    rw [show (m.reap (L .dying)).RUNNING_THREAD = m.RUNNING_THREAD from rfl, hstate, hstate, new,
      saved]
    decide
  rw [Machine.afterFlag, rep.deleteThreadsList_eq]
  dsimp only
  rw [if_neg hused, if_neg hheld, if_pos hswitch]
  rfl

/-- The suspending pass, from the test of the flag, runs through to the next thread. -/
theorem afterGetcontext_suspending (rep : Rep (m.switchTo temp) L)
    (stays : (m.thread m.RUNNING_THREAD).flag = true → m.READY_HEAD = none)
    (saved : (m.thread m.RUNNING_THREAD).state = .new) (new : (m.thread temp).state = .new)
    (hready : (L .ready).length < fuel) :
    Resumes (m.switchTo temp) L (m.afterGetcontext (fuel + 1) (m.thread temp).tid temp) := by
  let M := ((m.switchTo temp).reap (L .dying)).setState temp .recover
  have rep₁ : Rep M (Function.update L .dying []) := rep.reap.setState_running .recover
  have hlen : (Function.update L .dying [] .ready).length < fuel := by
    rwa [Function.update_of_ne (by decide)]
  have resumes := resume_spec rep₁ setState_self hlen
  have hkeep : Keeps (m.switchTo temp) M := by
    have h : Keeps (m.reap (L .dying)) ((m.reap (L .dying)).setState temp .recover) :=
      keeps_setState _ temp .recover
    exact (keeps_reap (m.switchTo temp) (L .dying)).trans ⟨h.1, h.2, h.3, h.4⟩
  have hstale : M.Stale .running temp ↔ (m.switchTo temp).Stale .running temp := by
    refine stale_congr (by decide) ?_ rfl fun t => ?_
    · exact (modify_field (f := fun t => { t with state := .recover }) Thread.thread_context
        (fun _ => rfl) temp).trans (reap_field Thread.thread_context (fun _ => rfl) _ temp)
    · rw [rep₁.toDelete_eq, rep.toDelete_eq, Function.update_self, List.mem_nil_iff, or_false,
        ← reap_freed]
      exact iff_of_eq (congrArg (· = true) (modify_field (f := fun t => { t with state := .recover })
        Thread.freed (fun _ => rfl) t))
  have hpass := @afterFlag_suspending m L temp fuel rep saved new
  have hres : m.afterGetcontext (fuel + 1) (m.thread temp).tid temp =
      Machine.resumeWith (Machine.afterGetcontext fuel) M := by
    rw [Machine.afterGetcontext]
    by_cases hflag : (m.thread m.RUNNING_THREAD).flag = true
    · rw [if_pos hflag, Machine.exitSelf, stays hflag]
      exact hpass
    · rw [if_neg hflag, hpass]
  rw [hres]
  refine ⟨resumes.ends.imp_right ?_, fun h => ?_⟩
  · rintro ⟨v, m', L', heq, rep', keeps, hsame⟩
    refine ⟨v, m', L', heq, rep', hkeep.trans keeps, fun h i hi => ?_⟩
    rw [hsame ((hkeep.flag temp).trans h) i hi, Function.update_of_ne hi]
  · exact (resumes.faults ((hkeep.flag temp).trans h)).trans hstale

/-- The result of a call that switches from the running thread, moved to `τ`, to `temp`. -/
structure Switches (m : Machine) (L : Places) (τ : Place) (rest : List Nat) (temp : Nat)
    (r : Except Crash (Option Tid × Machine)) : Prop where
  ends : r = .error .useAfterFree ∨ ∃ v m' L', r = .ok (v, m') ∧ Rep m' L' ∧ Keeps m m' ∧
    ((m.thread temp).flag = false → SameQueues (switched L τ rest m.RUNNING_THREAD temp) L')
  faults : (m.thread temp).flag = false → (r = .error .useAfterFree ↔ m.Stale τ temp)

/-- A switch that returns. -/
theorem Switches.returns {r : Except Crash (Option Tid × Machine)} {v : Option Tid} {m' : Machine}
    (h : Switches m L τ rest temp r) (hr : r = .ok (v, m')) :
    ∃ L', Rep m' L' ∧ Keeps m m' ∧
      ((m.thread temp).flag = false → SameQueues (switched L τ rest m.RUNNING_THREAD temp) L') := by
  rw [hr] at h
  obtain hfault | ⟨v', m₁, L', heq, h⟩ := h.ends
  · cases hfault
  · cases heq
    exact ⟨L', h⟩

/-- A switch, once the pointers `n`, the heads and the sizes are written. -/
theorem suspend_spec (rep : Rep m L) (hready : ∀ x, x ∈ L .ready ↔ x = temp ∨ x ∈ rest)
    (hτ : τ ≠ .running) (hd : τ ≠ .dying) {n : Nat → Option Nat} {a : Option Nat}
    {b : Nat → WaitQueue} (stays : (m.thread m.RUNNING_THREAD).flag = true → a = none)
    (linked : Linked n (Machine.head { m with READY_HEAD := a, queue := b, RUNNING_THREAD := temp })
      (switched L τ rest m.RUNNING_THREAD temp))
    (size : ∀ q, (b q).size = (m.queue q).size + if Place.waiting q = τ then 1 else 0) :
    Switches m L τ rest temp
      (Machine.suspend (Machine.relink { m with READY_HEAD := a, queue := b } n)
        (m.thread temp).tid temp) := by
  have htemp : temp ∈ L .ready := (hready temp).2 (.inl rfl)
  have hne : temp ≠ m.RUNNING_THREAD := rep.ne_running htemp (by decide)
  let f : Thread → Thread := fun t =>
    { t with state := .new, thread_context := .switched (m.thread temp).tid temp }
  obtain ⟨M, hM⟩ : ∃ M, M = (Machine.relink { m with READY_HEAD := a, queue := b } n).modify
    m.RUNNING_THREAD f := ⟨_, rfl⟩
  have hfield : ∀ {α : Type} (g : Thread → α), (∀ t, g (f t) = g t) →
      (∀ t v, g { t with next := v } = g t) → ∀ x, g (M.thread x) = g (m.thread x) := by
    intro α g hf hn x
    rw [hM, modify_field g hf]
    exact hn _ _
  have keeps : Keeps m M := ⟨by rw [hM]; rfl, hfield _ (fun _ => rfl) fun _ _ => rfl,
    hfield _ (fun _ => rfl) fun _ _ => rfl, fun x hx => by
      rwa [hfield Thread.exited (fun _ => rfl) fun _ _ => rfl]⟩
  have hfreed := hfield Thread.freed (fun _ => rfl) fun _ _ => rfl
  have hnew : (M.thread m.RUNNING_THREAD).state = .new := by
    rw [hM, modify_self]
  have hother : ∀ {α : Type} (g : Thread → α), (∀ t v, g { t with next := v } = g t) →
      ∀ x, x ≠ m.RUNNING_THREAD → g (M.thread x) = g (m.thread x) := by
    intro α g hn x hx
    rw [hM, modify_of_ne hx]
    exact hn _ _
  have hstate := hother Thread.state fun _ _ => rfl
  have rep₁ : Rep (M.switchTo temp) (switched L τ rest m.RUNNING_THREAD temp) := by
    refine rep.switch (M := M.switchTo temp) hready hτ hd ⟨keeps.1, keeps.2, keeps.3, keeps.4⟩ ?_
      rfl (hfield Thread.exited (fun _ => rfl) fun _ _ => rfl) hfreed hnew hstate ?_ ?_
    · rw [hM]
      have hnext := next_modify (m := Machine.relink { m with READY_HEAD := a, queue := b } n)
        (p := m.RUNNING_THREAD) (f := f) fun _ => rfl
      exact hnext.symm ▸ linked
    · rw [hM]
      exact size
    · rw [hM]
      rfl
  have hlen : (switched L τ rest m.RUNNING_THREAD temp .ready).length < M.allocated + 1 :=
    Nat.lt_succ_of_le (rep₁.length_le .ready)
  have resumes := afterGetcontext_suspending rep₁
    (by rw [keeps.flag, hM]; exact stays)
    (by rw [show M.RUNNING_THREAD = m.RUNNING_THREAD by rw [hM]; rfl]; exact hnew)
    (by rw [hstate temp hne]; exact rep.suspended .ready temp htemp (by decide) (by decide)) hlen
  have hres : Machine.suspend (Machine.relink { m with READY_HEAD := a, queue := b } n)
      (m.thread temp).tid temp = M.afterGetcontext (M.allocated + 2) (M.thread temp).tid temp := by
    rw [keeps.tid, hM]
    rfl
  have hstale : (M.switchTo temp).Stale .running temp ↔ m.Stale τ temp := by
    refine stale_congr hd (hother Thread.thread_context (fun _ _ => rfl) temp hne)
      (by rw [hM]; rfl) fun t => ?_
    rw [rep₁.toDelete_eq, rep.toDelete_eq, switched_of_ne hτ (by decide), if_neg (Ne.symm hd),
      Function.update_of_ne (by decide), List.append_nil]
    exact or_congr_left (iff_of_eq (congrArg (· = true) (hfreed t)))
  rw [hres]
  refine ⟨resumes.ends.imp_right ?_, fun h => ?_⟩
  · rintro ⟨v, m', L', heq, rep', hkeeps, hsame⟩
    exact ⟨v, m', L', heq, rep', keeps.trans ⟨hkeeps.1, hkeeps.2, hkeeps.3, hkeeps.4⟩,
      fun h => hsame ((keeps.flag temp).trans h)⟩
  · exact (resumes.faults ((keeps.flag temp).trans h)).trans hstale

section Insert

variable {a : Option Nat} {k : Nat → Option Nat}

/-- The running thread is inserted at the end of `τ` once `temp` is off the ready list. -/
theorem insert_running (rep : Rep m L) (hready : ∀ x, x ∈ L .ready ↔ x = temp ∨ x ∈ rest)
    (htemp : temp ∉ rest) (hτ : τ ≠ .running) (hk : k temp = none)
    (hp : k m.RUNNING_THREAD = none)
    (h : Linked k (Function.update m.head .ready a) (Function.update L .ready rest)) :
    ∃ last n, (Machine.relink { m with READY_HEAD := a } k).insertLast
        (Function.update m.head .ready a τ) m.RUNNING_THREAD =
          .ok (last, Machine.relink { m with READY_HEAD := a } n) ∧
      Linked n (Function.update (Function.update (Function.update (Function.update m.head .ready a)
        .running none) τ last) .running (some temp)) (switched L τ rest m.RUNNING_THREAD temp) := by
  obtain ⟨last, n, heq, hn, hlinked⟩ := linked_switched
    (M := Machine.relink { m with READY_HEAD := a } k) rep h hready htemp hτ rfl hp
  refine ⟨last, n, heq, ?_⟩
  have hupdate : Function.update n temp none = n := by
    rw [Function.update_eq_self_iff, hn]
    exact hk.symm
  rwa [hupdate] at hlinked

/-- `thread_yield` from the insertion into the ready list on. -/
theorem yield_from (rep : Rep m L) (hready : ∀ x, x ∈ L .ready ↔ x = temp ∨ x ∈ rest)
    (htemp : temp ∉ rest) (hk : k temp = none) (hp : k m.RUNNING_THREAD = none)
    (h : Linked k (Function.update m.head .ready a) (Function.update L .ready rest))
    (unmarked : (m.thread m.RUNNING_THREAD).flag = false) :
    ∃ M, (Machine.relink { m with READY_HEAD := a } k).insertThreadToReady m.RUNNING_THREAD = .ok M ∧
      Switches m L .ready rest temp (M.suspend (m.thread temp).tid temp) := by
  obtain ⟨last, n, heq, hlinked⟩ := insert_running (τ := .ready) rep hready htemp (by decide) hk hp h
  rw [Function.update_self] at heq
  refine ⟨Machine.relink { m with READY_HEAD := last } n, insertThreadToReady_of heq, ?_⟩
  refine suspend_spec (b := m.queue) rep hready (by decide) (by decide)
    (fun h => by rw [unmarked] at h; cases h) ?_ fun q => ?_
  · convert hlinked using 1
    funext i
    cases i <;> rfl
  · rw [if_neg (by simp), Int.add_zero]

/-- `thread_sleep` from the insertion into the wait queue on. -/
theorem sleep_from (rep : Rep m L) (hready : ∀ x, x ∈ L .ready ↔ x = temp ∨ x ∈ rest)
    (htemp : temp ∉ rest) (hk : k temp = none) (hp : k m.RUNNING_THREAD = none)
    (h : Linked k (Function.update m.head .ready a) (Function.update L .ready rest))
    (stays : (m.thread m.RUNNING_THREAD).flag = true → rest = []) (q : Nat) :
    ∃ M, (Machine.relink { m with READY_HEAD := a } k).insertThreadToWait m.RUNNING_THREAD q = .ok M ∧
      Switches m L (.waiting q) rest temp (M.suspend (m.thread temp).tid temp) := by
  obtain ⟨last, n, heq, hlinked⟩ := insert_running (τ := .waiting q) rep hready htemp
    (by simp) hk hp h
  rw [Function.update_of_ne (by simp)] at heq
  refine ⟨Machine.relink { m with
    READY_HEAD := a
    queue := Function.update m.queue q ⟨last, (m.queue q).size + 1⟩ } n,
    insertThreadToWait_of heq, ?_⟩
  have hempty : (m.thread m.RUNNING_THREAD).flag = true → a = none := by
    intro hflag
    have hchain := h.chain .ready
    rwa [Function.update_self, Function.update_self, stays hflag, IsChain.nil_iff] at hchain
  refine suspend_spec rep hready (by simp) (by simp) hempty ?_ fun r => ?_
  · convert hlinked using 1
    funext i
    cases i with
    | waiting r =>
      by_cases hr : r = q
      · subst hr
        simp [Machine.head]
      · simp [Machine.head, hr]
    | _ => rfl
  · by_cases hr : r = q
    · subst hr
      rw [Function.update_self, if_pos rfl]
    · rw [Function.update_of_ne hr, if_neg (by simpa using hr), Int.add_zero]

end Insert

section Calls

theorem popReady_eq (m : Machine) (temp : Nat) : m.popReady temp =
    Machine.relink { m with READY_HEAD := m.next temp } (Function.update m.next temp none) :=
  Machine.setNext_eq _ _ _

/-- The pointers once the first ready thread is taken off. -/
theorem linked_popReady (rep : Rep m L) (hready : L .ready = temp :: rest) :
    Linked (Function.update m.next temp none) (Function.update m.head .ready (m.next temp))
      (Function.update L .ready rest) :=
  (rep.linked.pop hready).frame (rep.linked.notMem_pop hready) none

theorem next_popReady (rep : Rep m L) (hready : L .ready = temp :: rest) :
    Function.update m.next temp none m.RUNNING_THREAD = none := by
  have hne : m.RUNNING_THREAD ≠ temp := by
    rintro rfl
    exact rep.ne_running (by rw [hready]; exact List.mem_cons_self) (by decide) rfl
  rw [Function.update_of_ne hne]
  exact rep.next_running

theorem threadYield_any_nil (rep : Rep m L) (hready : L .ready = []) :
    m.threadYield THREAD_ANY = .ok (some THREAD_NONE, m) := by
  rw [Machine.threadYield, if_pos rfl, rep.ready_nil.2 hready]

/-- `thread_yield(THREAD_ANY)` switches to the first ready thread. -/
theorem threadYield_any (rep : Rep m L) (hready : L .ready = temp :: rest)
    (unmarked : (m.thread m.RUNNING_THREAD).flag = false) :
    Switches m L .ready rest temp (m.threadYield THREAD_ANY) := by
  rw [Machine.threadYield, if_pos rfl, rep.head_ready hready]
  dsimp only
  obtain ⟨M, hinsert, hswitch⟩ := yield_from rep (fun x => by rw [hready, List.mem_cons])
    (rep.ready_nodup hready) (Function.update_self ..) (next_popReady rep hready)
    (linked_popReady rep hready) unmarked
  rw [popReady_eq, hinsert]
  exact hswitch

theorem threadYield_self {want_tid : Tid} (hany : want_tid ≠ THREAD_ANY)
    (hself : want_tid = THREAD_SELF ∨ want_tid = (m.thread m.RUNNING_THREAD).tid) :
    m.threadYield want_tid = .ok (some (m.thread m.RUNNING_THREAD).tid,
      m.setState m.RUNNING_THREAD .recover) := by
  rw [Machine.threadYield, if_neg hany, if_pos hself]

theorem threadSleep_nil (rep : Rep m L) (hready : L .ready = []) (q : Nat) :
    m.threadSleep (some q) = .ok (some THREAD_NONE, m) := by
  simp only [Machine.threadSleep, rep.ready_nil.2 hready]

/-- `thread_sleep` switches to the first ready thread. -/
theorem threadSleep_cons (rep : Rep m L) (hready : L .ready = temp :: rest)
    (stays : (m.thread m.RUNNING_THREAD).flag = true → rest = []) (q : Nat) :
    Switches m L (.waiting q) rest temp (m.threadSleep (some q)) := by
  simp only [Machine.threadSleep, rep.head_ready hready]
  obtain ⟨M, hinsert, hswitch⟩ := sleep_from rep (fun x => by rw [hready, List.mem_cons])
    (rep.ready_nodup hready) (Function.update_self ..) (next_popReady rep hready)
    (linked_popReady rep hready) stays q
  rw [popReady_eq, hinsert]
  exact hswitch

/-- What the tests before the search of a thread by its identifier say about a live thread. -/
theorem live_tid (rep : Rep m L) {i : Place} (hi : i ≠ .dying) {p : Nat} (hp : p ∈ L i) :
    0 ≤ (m.thread p).tid ∧ (m.thread p).tid < THREAD_MAX_THREADS ∧
      m.thread_id_array (m.thread p).tid.toNat = true := by
  have hlive := rep.live_of_mem hi hp
  obtain ⟨h₀, h₁⟩ := rep.tids.bound p hlive
  exact ⟨h₀, h₁, (rep.tids.in_use _ ((Int.toNat_lt h₀).2 h₁)).2
    ⟨p, hlive, (Int.toNat_of_nonneg h₀).symm⟩⟩

/-- Identifiers are none of the control codes. -/
theorem tid_ne {t : Tid} (h : 0 ≤ t) : t ≠ THREAD_ANY ∧ t ≠ THREAD_SELF := by
  constructor <;>
  · rintro rfl
    cases h

/-- The search of a ready thread by its identifier. -/
theorem findReady (rep : Rep m L) {l r : List Nat} {p first : Nat}
    (hready : L .ready = l ++ p :: r) (hfirst : m.READY_HEAD = some first) :
    Library.findNode m.next (fun q => (m.thread q).tid == (m.thread p).tid) m.allocated first first =
        some ((l.getLast?).getD first, p) ∧ ∀ q ∈ l, (m.thread q).tid ≠ (m.thread p).tid := by
  have hmem : ∀ q ∈ l ++ p :: r, m.Live q := fun q hq => rep.live_of_mem (by decide) (hready ▸ hq)
  have hnodup := rep.linked.partitioned.nodup .ready
  rw [hready, List.nodup_append] at hnodup
  have hl : ∀ q ∈ l, (m.thread q).tid ≠ (m.thread p).tid := by
    intro q hq heq
    exact hnodup.2.2 q hq p List.mem_cons_self (rep.tids.unique q p
      (hmem q (List.mem_append_left _ hq)) (hmem p (by simp)) heq)
  have hchain := rep.linked.chain .ready
  rw [hready, show m.head .ready = m.READY_HEAD from rfl, hfirst] at hchain
  have hlen := rep.length_le .ready
  rw [hready, List.length_append, List.length_cons] at hlen
  exact ⟨hchain.findNode_eq (fun q hq => by simpa using hl q hq) (by simp) (by omega) first, hl⟩

theorem valid_tid {t : Int} (h₀ : 0 ≤ t) (h₁ : t < THREAD_MAX_THREADS) :
    ¬ (t > THREAD_MAX_THREADS - 1 ∨ t < (THREAD_FAILED : Int)) := by
  change ¬ (t > (THREAD_MAX_THREADS : Int) - 1 ∨ t < (-7 : Int))
  omega

/-- `thread_yield` to a ready thread. -/
theorem threadYield_tid (rep : Rep m L) {p : Nat} (hp : p ∈ L .ready)
    (unmarked : (m.thread m.RUNNING_THREAD).flag = false) :
    ∃ rest, (∀ x, x ∈ L .ready ↔ x = p ∨ x ∈ rest) ∧ rest = (L .ready).erase p ∧
      Switches m L .ready rest p (m.threadYield (m.thread p).tid) := by
  obtain ⟨h₀, h₁, harray⟩ := live_tid rep (by decide) hp
  have hown : (m.thread p).tid ≠ (m.thread m.RUNNING_THREAD).tid := by
    intro heq
    exact rep.ne_running hp (by decide) (rep.tids.unique _ _ (rep.live_of_mem (by decide) hp)
      (rep.live_of_mem (by decide) rep.mem_running) heq)
  obtain ⟨hany, hself⟩ := tid_ne h₀
  obtain ⟨l, r, hready⟩ := List.append_of_mem hp
  obtain ⟨first, hfirst⟩ := rep.ready_some hp
  obtain ⟨hfind, hl⟩ := findReady rep hready hfirst
  rw [Machine.threadYield, if_neg hany, if_neg (not_or.2 ⟨hself, hown⟩), if_neg (valid_tid h₀ h₁),
    if_neg (Int.not_lt.2 h₀), if_neg (by rw [harray]; decide), hfirst]
  dsimp only
  rw [hfind]
  dsimp only
  rcases List.eq_nil_or_concat l with rfl | ⟨l, y, rfl⟩
  · rw [List.nil_append] at hready
    have heq : first = p := by
      have := rep.head_ready hready
      rw [hfirst] at this
      exact Option.some.inj this
    subst heq
    refine ⟨r, fun x => by rw [hready, List.mem_cons],
      by rw [hready, List.erase_cons_head], ?_⟩
    rw [if_pos rfl]
    have h := popReady_eq m first
    rw [Machine.popReady] at h
    obtain ⟨M, hinsert, hswitch⟩ := yield_from rep (fun x => by rw [hready, List.mem_cons])
      (rep.ready_nodup hready) (Function.update_self ..) (next_popReady rep hready)
      (linked_popReady rep hready) unmarked
    rw [h, hinsert]
    exact hswitch
  · rw [List.concat_eq_append] at hready hl ⊢
    rw [List.append_assoc, List.singleton_append] at hready
    have hhead : first ∈ l ++ [y] := by
      have h := (rep.linked.chain .ready).head_eq
      rw [show m.head .ready = m.READY_HEAD from rfl, hfirst, hready] at h
      cases l with
      | nil => simpa using h
      | cons q l => simpa using .inl (Option.some.inj h)
    have hlast : ((l ++ [y]).getLast?).getD first = y := by simp
    rw [if_neg (hl first hhead), hlast, Machine.setNext_eq, Machine.setNext_eq]
    have hnodup := rep.linked.partitioned.nodup .ready
    have hlinked := rep.linked.unlink hready
    have hrest : ∀ x, x ∈ L .ready ↔ x = p ∨ x ∈ l ++ y :: r := by
      intro x
      rw [hready]
      simp only [List.mem_append, List.mem_cons]
      tauto
    have hpout : p ∉ l ++ y :: r := by
      rw [hready] at hnodup
      simp only [List.nodup_append, List.nodup_cons, List.mem_cons, List.mem_append] at hnodup ⊢
      rintro (h | rfl | h)
      · exact hnodup.2.2 p h p (.inr (.inl rfl)) rfl
      · exact hnodup.2.1.1 (.inl rfl)
      · exact hnodup.2.1.2.1 h
    have hplaced : ∀ k, p ∉ Function.update L .ready (l ++ y :: r) k := by
      intro k
      by_cases hk : k = .ready
      · rw [hk, Function.update_self]
        exact hpout
      · rw [Function.update_of_ne hk]
        exact rep.linked.partitioned.notMem hp (Ne.symm hk)
    have hy : y ∈ L .ready := by rw [hready]; simp
    have hhead' : Function.update m.head .ready m.READY_HEAD = m.head :=
      Function.update_eq_self _ _
    have hself : Function.update (Function.update m.next y (m.next p)) p none m.RUNNING_THREAD =
        none := by
      rw [Function.update_of_ne (Ne.symm (rep.ne_running hp (by decide))),
        Function.update_of_ne (Ne.symm (rep.ne_running hy (by decide)))]
      exact rep.next_running
    obtain ⟨M, hinsert, hswitch⟩ := yield_from (a := m.READY_HEAD) rep hrest hpout
      (Function.update_self ..) hself (hhead'.symm ▸ hlinked.frame hplaced none) unmarked
    have hinsert : (m.relink (Function.update (Function.update m.next y (m.next p)) p none)
      ).insertThreadToReady m.RUNNING_THREAD = .ok M := hinsert
    have herase : l ++ y :: r = (L .ready).erase p := by
      have hpy : p ≠ y := fun heq => hpout (by rw [heq]; simp)
      have hpl : p ∉ l := fun h => hpout (List.mem_append_left _ h)
      rw [hready, List.erase_append_right _ hpl, List.erase_cons_tail (by simpa using hpy.symm),
        List.erase_cons_head]
    refine ⟨l ++ y :: r, hrest, herase, ?_⟩
    rw [Machine.next_relink, Machine.relink_relink, hinsert]
    exact hswitch

end Calls

section Wakeup

variable {q : Nat} {ys l : List Nat}

/-- The threads `ys` of a wait queue go to the end of the ready list, `l` stay. -/
def woken (L : Places) (q : Nat) (ys l : List Nat) : Places :=
  Function.update (Function.update L (.waiting q) l) .ready (L .ready ++ ys)

theorem woken_waiting (r : Nat) :
    woken L q ys l (.waiting r) = if r = q then l else L (.waiting r) := by
  rw [woken, Function.update_of_ne (by simp)]
  by_cases hr : r = q
  · subst hr
    rw [Function.update_self, if_pos rfl]
  · rw [Function.update_of_ne (by simpa using hr), if_neg hr]

theorem woken_ready : woken L q ys l .ready = L .ready ++ ys := Function.update_self ..

theorem woken_of_ne {i : Place} (hr : i ≠ .ready) (hq : i ≠ .waiting q) :
    woken L q ys l i = L i := by
  rw [woken, Function.update_of_ne hr, Function.update_of_ne hq]

theorem mem_woken (hq : L (.waiting q) = ys ++ l) {x : Nat} {i : Place}
    (hx : x ∈ woken L q ys l i) : x ∈ L i ∨ i = .ready ∧ x ∈ L (.waiting q) := by
  by_cases hi : i = .ready
  · subst hi
    rw [woken_ready, List.mem_append] at hx
    exact hx.imp_right fun hx => ⟨rfl, by rw [hq]; exact List.mem_append_left l hx⟩
  by_cases hiq : i = .waiting q
  · subst hiq
    rw [woken_waiting, if_pos rfl] at hx
    exact .inl (by rw [hq]; exact List.mem_append_right ys hx)
  · rw [woken_of_ne hi hiq] at hx
    exact .inl hx

theorem placed_woken (hq : L (.waiting q) = ys ++ l) {x : Nat} :
    (∃ i, i ≠ .dying ∧ x ∈ woken L q ys l i) ↔ ∃ i, i ≠ .dying ∧ x ∈ L i := by
  constructor
  · rintro ⟨i, hid, hx⟩
    rcases mem_woken hq hx with hx | ⟨-, hx⟩
    · exact ⟨i, hid, hx⟩
    · exact ⟨.waiting q, by simp, hx⟩
  · rintro ⟨i, hid, hx⟩
    by_cases hi : i = .ready
    · subst hi
      exact ⟨.ready, hid, by rw [woken_ready]; exact List.mem_append_left ys hx⟩
    by_cases hiq : i = .waiting q
    · subst hiq
      rw [hq, List.mem_append] at hx
      rcases hx with hx | hx
      · exact ⟨.ready, by decide, by rw [woken_ready]; exact List.mem_append_right _ hx⟩
      · exact ⟨.waiting q, by simp, by rwa [woken_waiting, if_pos rfl]⟩
    · exact ⟨i, hid, by rwa [woken_of_ne hi hiq]⟩

theorem Rep.wake (rep : Rep m L) (hq : L (.waiting q) = ys ++ l) {n : Nat → Option Nat}
    {a : Option Nat} {b : Nat → WaitQueue}
    (linked : Linked n (Machine.head { m with READY_HEAD := a, queue := b }) (woken L q ys l))
    (size : ∀ r, r ≠ q → (b r).size = (m.queue r).size) (size_q : (l.length : Int) ≤ (b q).size) :
    Rep (Machine.relink { m with READY_HEAD := a, queue := b } n) (woken L q ys l) where
  linked := linked
  running := by rw [woken_of_ne (by decide) (by simp)]; exact rep.running
  live x := by rw [placed_woken hq]; exact rep.live x
  held i x hx := by
    rcases mem_woken hq hx with hx | ⟨-, hx⟩
    · exact rep.held i x hx
    · exact rep.held _ x hx
  suspended i x hx hr hd := by
    rcases mem_woken hq hx with hx | ⟨-, hx⟩
    · exact rep.suspended i x hx hr hd
    · exact rep.suspended _ x hx (by simp) (by simp)
  size r := by
    rw [woken_waiting]
    by_cases hr : r = q
    · subst hr
      rw [if_pos rfl]
      exact size_q
    · rw [if_neg hr]
      exact (size r hr).symm ▸ rep.size r
  tids := rep.tids.congr (fun _ => Iff.rfl) (fun _ => rfl) rfl

/-- The insertion of woken threads at the end of the ready list, once they are off their queue. -/
theorem insert_woken (rep : Rep m L) {k : Nat → Option Nat} {c : Nat → WaitQueue} {hd : Option Nat}
    {p : Nat} (hq : L (.waiting q) = ys ++ l)
    (h : Linked k (Function.update m.head (.waiting q) hd) (Function.update L (.waiting q) l))
    (hys : IsChain k (some p) ys) :
    ∃ last n, (Machine.relink { m with queue := c } k).insertThreadToReady p =
        .ok (Machine.relink { m with READY_HEAD := last, queue := c } n) ∧
      Linked n (Function.update (Function.update m.head (.waiting q) hd) .ready last)
        (woken L q ys l) := by
  have hnodup := rep.linked.partitioned.nodup (.waiting q)
  rw [hq, List.nodup_append] at hnodup
  have hnew : ∀ i, ∀ x ∈ ys, x ∉ Function.update L (.waiting q) l i := by
    intro i x hx
    by_cases hi : i = .waiting q
    · subst hi
      rw [Function.update_self]
      exact fun hl => hnodup.2.2 x hx x hl rfl
    · rw [Function.update_of_ne hi]
      exact rep.linked.partitioned.notMem (by rw [hq]; exact List.mem_append_left l hx) (Ne.symm hi)
  have hready : Function.update L (.waiting q) l .ready = L .ready := Function.update_of_ne (by simp) ..
  obtain ⟨last, n, heq, hlinked, -⟩ := insertLast_spec
    (m := Machine.relink { m with queue := c } k) h .ready (by rw [hready]; exact rep.length_le .ready)
    hys hnodup.1 hnew
  rw [Function.update_of_ne (by simp)] at heq
  rw [hready] at hlinked
  refine ⟨last, n, ?_, hlinked⟩
  exact insertThreadToReady_of heq

/-- What `thread_wakeup` does to the queues. -/
def wakes (L : Places) (q : Nat) (all : Int) : Places :=
  if all = 1 then woken L q (L (.waiting q)) []
  else match L (.waiting q) with
    | [] => L
    | p :: l => woken L q [p] l

theorem wakes_nil {all : Int} (h : L (.waiting q) = []) : wakes L q all = L := by
  rw [wakes, h]
  by_cases hall : all = 1
  · rw [if_pos hall, woken, List.append_nil, ← h, Function.update_eq_self, Function.update_eq_self]
  · rw [if_neg hall]

theorem wakes_of_ne {all : Int} {i : Place} (hr : i ≠ .ready) (hq : i ≠ .waiting q) :
    wakes L q all i = L i := by
  rw [wakes]
  by_cases hall : all = 1
  · rw [if_pos hall, woken_of_ne hr hq]
  · rw [if_neg hall]
    cases L (.waiting q) with
    | nil => rfl
    | cons p l => exact woken_of_ne hr hq

theorem head_woken (m : Machine) (q : Nat) (hd last : Option Nat) (s : Int) :
    Function.update (Function.update m.head (.waiting q) hd) .ready last =
      Machine.head { m with READY_HEAD := last, queue := Function.update m.queue q ⟨hd, s⟩ } := by
  funext i
  cases i with
  | waiting r =>
    by_cases hr : r = q
    · subst hr
      simp [Machine.head]
    · simp [Machine.head, hr]
  | _ => rfl

theorem wake_result (rep : Rep m L) (hq : L (.waiting q) = ys ++ l) {hd last : Option Nat} {s : Int}
    {n : Nat → Option Nat} (hlinked : Linked n (Function.update
      (Function.update m.head (.waiting q) hd) .ready last) (woken L q ys l))
    (hs : (l.length : Int) ≤ s) :
    Rep (Machine.relink { m with
      READY_HEAD := last, queue := Function.update m.queue q ⟨hd, s⟩ } n) (woken L q ys l) := by
  rw [head_woken m q hd last s] at hlinked
  refine rep.wake hq hlinked (fun r hr => by rw [Function.update_of_ne hr]) ?_
  rw [Function.update_self]
  exact hs

/-- `thread_wakeup(queue, 0)`: the two branches differ only in that the shorter one relies on
`size = 1` to know that nothing follows the first waiter. -/
theorem threadWakeup_one (rep : Rep m L) {p : Nat} (hq : L (.waiting q) = p :: l) :
    ∃ m', m.threadWakeup (some q) 0 = .ok (1, m') ∧ Rep m' (woken L q [p] l) ∧ Keeps m m' := by
  have hsize := rep.size q
  have hchain := rep.linked.chain (.waiting q)
  rw [hq] at hchain hsize
  rw [List.length_cons] at hsize
  obtain ⟨hhead, hnext⟩ := IsChain.cons_iff.1 hchain
  rw [show m.head (.waiting q) = (m.queue q).wait_head from rfl] at hhead
  have hpop := rep.linked.pop hq
  simp only [Machine.threadWakeup, hhead, if_true]
  by_cases hone : (m.queue q).size = 1
  · have hnil : l = [] := List.eq_nil_of_length_eq_zero (by omega)
    subst hnil
    have hend : m.next p = none := IsChain.nil_iff.1 hnext
    rw [hend] at hpop
    have hone' : L (.waiting q) = [p] ++ [] := hq
    obtain ⟨last, n, heq, hlinked⟩ := insert_woken (c := m.queue) rep hone' hpop
      (IsChain.cons_iff.2 ⟨rfl, IsChain.nil_iff.2 hend⟩)
    have heq : m.insertThreadToReady p = _ := heq
    rw [if_pos hone, heq]
    exact ⟨_, rfl, wake_result rep hq hlinked (by rw [hone]; decide),
      ⟨rfl, fun _ => rfl, fun _ => rfl, fun _ h => h⟩⟩
  · have hq' : L (.waiting q) = [p] ++ l := hq
    obtain ⟨last, n, heq, hlinked⟩ := insert_woken rep
      (c := Function.update m.queue q ⟨m.next p, (m.queue q).size⟩) hq'
      (hpop.frame (rep.linked.notMem_pop hq) none)
      (IsChain.cons_iff.2 ⟨rfl, IsChain.nil_iff.2 (Function.update_self ..)⟩)
    have heq' : (Machine.setNext { m with
        queue := Function.update m.queue q ⟨m.next p, (m.queue q).size⟩ } p none).insertThreadToReady p =
        .ok (Machine.relink { m with
          READY_HEAD := last
          queue := Function.update m.queue q ⟨m.next p, (m.queue q).size⟩ } n) := by
      rw [Machine.setNext_eq]
      exact heq
    rw [if_neg hone, heq']
    exact ⟨_, rfl, wake_result rep hq hlinked (by omega),
      ⟨rfl, fun _ => rfl, fun _ => rfl, fun _ h => h⟩⟩

/-- `thread_wakeup(queue, 1)` appends the whole queue. -/
theorem threadWakeup_all (rep : Rep m L) {p : Nat} (hq : L (.waiting q) = p :: l) :
    ∃ m', m.threadWakeup (some q) 1 = .ok ((m.queue q).size, m') ∧
      Rep m' (woken L q (p :: l) []) ∧ Keeps m m' := by
  have hchain := rep.linked.chain (.waiting q)
  rw [hq] at hchain
  have hhead := (IsChain.cons_iff.1 hchain).1
  rw [hhead] at hchain
  rw [show m.head (.waiting q) = (m.queue q).wait_head from rfl] at hhead
  have hq' : L (.waiting q) = p :: l ++ [] := by rw [hq, List.append_nil]
  obtain ⟨last, n, heq, hlinked⟩ := insert_woken (c := m.queue) rep hq'
    (rep.linked.clear (.waiting q)) hchain
  have heq : m.insertThreadToReady p = _ := heq
  simp only [Machine.threadWakeup, hhead, heq]
  exact ⟨_, rfl, wake_result rep hq' hlinked (by decide),
    ⟨rfl, fun _ => rfl, fun _ => rfl, fun _ h => h⟩⟩

theorem threadWakeup_spec (rep : Rep m L) (q : Nat) {all : Int} (hall : all = 0 ∨ all = 1) :
    ∃ v m', m.threadWakeup (some q) all = .ok (v, m') ∧ Rep m' (wakes L q all) ∧ Keeps m m' := by
  cases hq : L (.waiting q) with
  | nil =>
    have hhead := (rep.linked.chain (.waiting q)).head_eq
    rw [show m.head (.waiting q) = (m.queue q).wait_head from rfl, hq] at hhead
    refine ⟨0, m, ?_, by rwa [wakes_nil hq], Keeps.refl m⟩
    simp only [Machine.threadWakeup, hhead, List.head?_nil]
  | cons p l =>
    rcases hall with rfl | rfl
    · obtain ⟨m', heq, hrep, hkeeps⟩ := threadWakeup_one rep hq
      refine ⟨_, m', heq, ?_, hkeeps⟩
      rwa [wakes, if_neg (by decide), hq]
    · obtain ⟨m', heq, hrep, hkeeps⟩ := threadWakeup_all rep hq
      refine ⟨_, m', heq, ?_, hkeeps⟩
      rwa [wakes, if_pos rfl, hq]

end Wakeup

end Ece344Lab.Threads
