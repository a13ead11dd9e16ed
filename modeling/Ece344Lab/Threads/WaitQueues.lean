import Ece344Lab.Threads.Returns

/-!
# The wait queues in runs

Threads leave a wait queue for the ready list in the order in which they went to sleep. The `size`
of a queue is its length as long as no thread is woken alone: `thread_wakeup(queue, 0)` takes the
first thread off the queue and leaves `size` as it was. It is an unbounded integer here, so 2^31
sleeps in a queue that nobody wakes as a whole are outside these runs.
-/
namespace Ece344Lab.Threads

open Library (System IsChain)

variable {m m' : Machine} {L L' : Places} {call : Call} {v : Option Tid} {c q : Nat}

namespace Machine

/-- The threads of a wait queue that a call moved to the ready list, in the order of the queue. -/
def moved (m m' : Machine) (queue : Nat) : List Nat :=
  (m.waitList queue).filter fun p => m'.readyList.contains p

/-- The thread that a call puts to sleep in a queue. -/
def sleeper (m : Machine) (queue : Nat) : Call → List Nat
  | .sleep (some q) => if q = queue ∧ m.readyList ≠ [] then [m.RUNNING_THREAD] else []
  | _ => []

end Machine

/-- A machine with the threads that went to sleep in a queue, and those that left it for the ready
list, one entry for each time, in order. -/
structure Slept where
  machine : Machine
  slept : List Nat
  woke : List Nat

/-- Runs in which threads terminate only themselves, with the history of a queue. `malloc` does not
fail. -/
def sleeping (queue : Nat) : System Slept Call where
  start s := (∃ thread, s.machine = Machine.threadInit thread) ∧ s.slept = [] ∧ s.woke = []
  step s call s' := SelfExit call ∧ s.machine.perform call = .ok (some s'.machine) ∧
    s'.slept = s.slept ++ s.machine.sleeper queue call ∧
    s'.woke = s.woke ++ s.machine.moved s'.machine queue

/-- A wakeup: what it returns, and where the threads stand afterwards. -/
structure Wakes (m : Machine) (queue : Nat) (all : Int) (n : Int) (ys l : List Nat) : Prop where
  returns : ∃ m', m.threadWakeup (some queue) all = .ok (n, m') ∧
    m.moved m' queue = ys ∧ m'.readyList = m.readyList ++ ys ∧ m'.waitList queue = l ∧
    ∀ r, r ≠ queue → m'.waitList r = m.waitList r

section Step

/-- The call as a step, from what `perform` says. -/
theorem perform_steps (rep : Rep m L) (hm : Unmarked m) (self : SelfExit call)
    (h : m.perform call = .ok (some m')) :
    ∃ v L', m.invoke call = .ok (some (v, m')) ∧ Steps m L call m' L' := by
  rw [perform_invoke] at h
  obtain ⟨r, hinvoke, hr⟩ := map_ok h
  cases r with
  | none => cases hr
  | some r =>
    obtain ⟨v, m₁⟩ := r
    cases hr
    obtain ⟨L', steps⟩ := invoke_steps rep hm hinvoke self
    exact ⟨v, L', hinvoke, steps⟩

/-- The threads that moved, by the lists before and after. -/
theorem moved_eq (rep : Rep m L) (rep' : Rep m' L') (q : Nat) :
    m.moved m' q = (L (.waiting q)).filter fun p => (L' .ready).contains p := by
  rw [Machine.moved, rep.waitList, rep'.readyList]

theorem moved_nil (rep : Rep m L) (rep' : Rep m' L')
    (h : ∀ p ∈ L (.waiting q), p ∉ L' .ready) : m.moved m' q = [] := by
  rw [moved_eq rep rep', List.filter_eq_nil_iff]
  intro p hp
  simpa using h p hp

theorem Rep.waiting_ready (rep : Rep m L) {p : Nat} (hp : p ∈ L (.waiting q)) : p ∉ L .ready :=
  rep.linked.partitioned.notMem hp (by simp)

/-- No thread of the queue enters the ready list. -/
structure Unmoved (m : Machine) (L : Places) (q : Nat) (L' : Places) : Prop where
  ready : ∀ p ∈ L (.waiting q), p ∉ L' .ready
  waiting : L' (.waiting q) = L (.waiting q)

theorem unmoved_refl (rep : Rep m L) : Unmoved m L q L :=
  ⟨fun _ => rep.waiting_ready, rfl⟩

theorem unmoved_create (rep : Rep m L) : Unmoved m L q (stayed L m .create) := by
  rw [stayed]
  split
  · refine ⟨fun p hp hready => ?_, Function.update_of_ne (by simp) ..⟩
    rcases mem_entered.1 hready with h | ⟨-, rfl⟩
    · exact rep.waiting_ready hp h
    · exact absurd (rep.held _ _ hp).1 (Nat.lt_irrefl _)
  · exact unmoved_refl rep

/-- The wakeup of another queue. -/
theorem unmoved_wakes (rep : Rep m L) {r : Nat} {all : Int} (hr : q ≠ r) :
    Unmoved m L q (wakes L r all) := by
  refine ⟨fun p hp hready => ?_, wakes_of_ne (by simp) (by simpa using hr)⟩
  have hnot : p ∉ L (.waiting r) := rep.linked.partitioned.notMem hp (by simpa using hr)
  rw [wakes] at hready
  by_cases hall : all = 1
  · rw [if_pos hall] at hready
    exact (mem_woken (List.append_nil _).symm hready).elim (rep.waiting_ready hp) fun h => hnot h.2
  · rw [if_neg hall] at hready
    cases hq : L (.waiting r) with
    | nil =>
      rw [hq] at hready
      exact rep.waiting_ready hp hready
    | cons x l =>
      rw [hq] at hready
      exact (mem_woken hq hready).elim (rep.waiting_ready hp) fun h => hnot h.2

/-- A call that chooses nobody moves only the threads it wakes. -/
theorem unmoved_stayed (rep : Rep m L) (hcall : ∀ all, call ≠ .wakeup (some q) all) :
    Unmoved m L q (stayed L m call) := by
  cases call with
  | create => exact unmoved_create rep
  | wakeup queue all =>
    cases queue with
    | none => exact unmoved_refl rep
    | some r =>
      rw [stayed]
      split
      · exact unmoved_wakes rep fun h => hcall all (by rw [h])
      · exact unmoved_refl rep
  | _ => exact unmoved_refl rep

theorem sleeper_none (hc : m.chosen call = none) : m.sleeper q call = [] := by
  cases call with
  | sleep queue =>
    cases queue with
    | none => rfl
    | some r =>
      have hnil : m.readyList = [] := List.head?_eq_none_iff.1 hc
      rw [Machine.sleeper, hnil, if_neg (by simp)]
  | _ => rfl

theorem sleeper_some (hc : m.chosen call = some c) :
    m.sleeper q call = if call.destination = .waiting q then [m.RUNNING_THREAD] else [] := by
  cases call with
  | sleep queue =>
    cases queue with
    | none => cases hc
    | some r =>
      have hne : m.readyList ≠ [] := by
        intro h
        rw [Machine.chosen, h] at hc
        cases hc
      simp only [Machine.sleeper, Call.destination, hne, Place.waiting.injEq, ne_eq,
        not_false_eq_true, and_true]
  | _ => rfl

/-- What a step does to a queue that the call does not wake. -/
theorem Steps.queue_kept (h : Steps m L call m' L') (rep : Rep m L)
    (hcall : ∀ all, call ≠ .wakeup (some q) all) :
    m.moved m' q = [] ∧ L' (.waiting q) = L (.waiting q) ++ m.sleeper q call := by
  have hready := h.queues .ready (by decide)
  have hwaiting := h.queues (.waiting q) (by simp)
  cases hc : m.chosen call with
  | none =>
    have unmoved := unmoved_stayed rep hcall
    rw [stepped_none hc] at hready hwaiting
    rw [sleeper_none hc, List.append_nil, hwaiting]
    exact ⟨moved_nil rep h.rep (by rw [hready]; exact unmoved.ready), unmoved.waiting⟩
  | some c =>
    obtain ⟨hr, hw⟩ := stepped_lists (L := L) hc destination_ne_running
    rw [hwaiting, hw, sleeper_some hc]
    refine ⟨moved_nil rep h.rep fun p hp hp' => ?_, rfl⟩
    rw [hready, hr, List.mem_append] at hp'
    rcases hp' with hp' | hp'
    · exact rep.waiting_ready hp (List.mem_of_mem_erase hp')
    · split_ifs at hp'
      · rw [List.mem_singleton] at hp'
        exact rep.ne_running hp (by simp) hp'
      · cases hp'

/-- The queue after a wakeup, and the threads that left it. -/
theorem moved_woken (rep : Rep m L) (rep' : Rep m' L') {ys l : List Nat}
    (hq : L (.waiting q) = ys ++ l) (h : SameQueues (woken L q ys l) L') :
    m.moved m' q = ys ∧ L' (.waiting q) = l := by
  have hready := h .ready (by decide)
  have hwaiting := h (.waiting q) (by simp)
  have hnodup := rep.linked.partitioned.nodup (.waiting q)
  rw [hq, List.nodup_append] at hnodup
  rw [woken_ready] at hready
  rw [woken_waiting, if_pos rfl] at hwaiting
  refine ⟨?_, hwaiting⟩
  have hys : ys.filter (fun p => (L .ready ++ ys).contains p) = ys := by
    rw [List.filter_eq_self]
    intro p hp
    simp [hp]
  have hl : l.filter (fun p => (L .ready ++ ys).contains p) = [] := by
    rw [List.filter_eq_nil_iff]
    intro p hp
    have hnot := rep.waiting_ready (q := q) (p := p) (by rw [hq]; exact List.mem_append_right ys hp)
    have hout : p ∉ ys := fun h => hnodup.2.2 p h p hp rfl
    simp [hnot, hout]
  rw [moved_eq rep rep', hready, hq, List.filter_append, hys, hl, List.append_nil]

/-- What a step does to the queue that the call wakes. -/
theorem Steps.queue_woken {all : Int} (h : Steps m L (.wakeup (some q) all) m' L')
    (rep : Rep m L) : m.moved m' q ++ L' (.waiting q) = L (.waiting q) := by
  have hqueues := h.queues
  rw [stepped_none rfl, stayed] at hqueues
  by_cases hall : all = 0 ∨ all = 1
  · rw [if_pos hall] at hqueues
    rw [wakes] at hqueues
    by_cases hone : all = 1
    · rw [if_pos hone] at hqueues
      obtain ⟨hmoved, hwaiting⟩ := moved_woken rep h.rep (List.append_nil _).symm hqueues
      rw [hmoved, hwaiting, List.append_nil]
    · rw [if_neg hone] at hqueues
      cases hq : L (.waiting q) with
      | nil =>
        rw [hq] at hqueues
        have hwaiting : L' (.waiting q) = L (.waiting q) := hqueues (.waiting q) (by simp)
        rw [moved_eq rep h.rep, hwaiting, hq]
        rfl
      | cons p l =>
        rw [hq] at hqueues
        obtain ⟨hmoved, hwaiting⟩ := moved_woken rep h.rep
          (show L (.waiting q) = [p] ++ l from hq) hqueues
        rw [hmoved, hwaiting]
        rfl
  · rw [if_neg hall] at hqueues
    have unmoved : Unmoved m L q L := unmoved_refl rep
    rw [moved_nil rep h.rep (by rw [hqueues .ready (by decide)]; exact unmoved.ready),
      hqueues (.waiting q) (by simp)]
    rfl

/-- The history of a queue after a step. -/
theorem Steps.queue_history (h : Steps m L call m' L') (rep : Rep m L) (q : Nat) :
    m.moved m' q ++ m'.waitList q = m.waitList q ++ m.sleeper q call := by
  rw [rep.waitList, h.rep.waitList]
  by_cases hcall : ∃ all, call = .wakeup (some q) all
  · obtain ⟨all, rfl⟩ := hcall
    rw [h.queue_woken rep, Machine.sleeper, List.append_nil]
    rintro _ h
    cases h
  · obtain ⟨hmoved, hwaiting⟩ := h.queue_kept rep (q := q) fun all heq => hcall ⟨all, heq⟩
    rw [hmoved, hwaiting, List.nil_append]

end Step

section Fifo

theorem wakes_of_rep {ys l : List Nat} {all n : Int} (rep : Rep m L)
    (hq : L (.waiting q) = ys ++ l) (rep' : Rep m' (woken L q ys l))
    (h : m.threadWakeup (some q) all = .ok (n, m')) : Wakes m q all n ys l := by
  refine ⟨m', h, (moved_woken rep rep' hq fun _ _ => rfl).1, ?_, ?_, fun r hr => ?_⟩
  · rw [rep'.readyList, woken_ready, rep.readyList]
  · rw [rep'.waitList, woken_waiting, if_pos rfl]
  · rw [rep'.waitList, woken_waiting, if_neg hr, rep.waitList]

theorem wakes_one (rep : Rep m L) {p : Nat} {l : List Nat} (hq : m.waitList q = p :: l) :
    Wakes m q 0 1 [p] l := by
  rw [rep.waitList] at hq
  obtain ⟨m', heq, rep', -⟩ := threadWakeup_one rep hq
  exact wakes_of_rep rep hq rep' heq

theorem wakes_all (rep : Rep m L) (q : Nat) :
    Wakes m q 1 (if m.waitList q = [] then 0 else (m.queue q).size) (m.waitList q) [] := by
  rw [rep.waitList]
  cases hq : L (.waiting q) with
  | nil =>
    have hhead := (rep.linked.chain (.waiting q)).head_eq
    rw [show m.head (.waiting q) = (m.queue q).wait_head from rfl, hq] at hhead
    have heq : m.threadWakeup (some q) 1 = .ok (0, m) := by
      simp only [Machine.threadWakeup, hhead, List.head?_nil]
    have hsame : wakes L q 1 = L := wakes_nil hq
    rw [wakes, if_pos rfl, hq] at hsame
    rw [if_pos rfl]
    exact wakes_of_rep rep hq (hsame.symm ▸ rep) heq
  | cons p l =>
    obtain ⟨m', heq, rep', -⟩ := threadWakeup_all rep hq
    rw [if_neg (List.cons_ne_nil _ _)]
    exact wakes_of_rep rep (by rw [hq, List.append_nil]) rep' heq

/-- In every run in which threads terminate only themselves the queues are held. -/
theorem sleeping_rep {calls : List Call} {s : Slept} (run : (sleeping q).Run calls s) :
    ((∃ L, Rep s.machine L) ∧ Unmarked s.machine) ∧ s.slept = s.woke ++ s.machine.waitList q := by
  refine run.invariant_state (I := fun s => ((∃ L, Rep s.machine L) ∧ Unmarked s.machine) ∧
    s.slept = s.woke ++ s.machine.waitList q) ?_ ?_
  · rintro s ⟨⟨thread, hm⟩, hslept, hwoke⟩
    rw [hm, hslept, hwoke]
    refine ⟨⟨⟨_, rep_threadInit thread⟩, unmarked_threadInit thread⟩, ?_⟩
    rw [(rep_threadInit thread).waitList, if_neg (by simp)]
    rfl
  · rintro s call s' ⟨⟨⟨L, rep⟩, hm⟩, hslept⟩ ⟨self, hperform, hslept', hwoke'⟩
    obtain ⟨v, L', -, steps⟩ := perform_steps rep hm self hperform
    refine ⟨⟨⟨L', steps.rep⟩, steps.unmarked⟩, ?_⟩
    rw [hslept', hwoke', hslept, List.append_assoc, List.append_assoc, steps.queue_history rep]

/-- In every run in which threads terminate only themselves, the threads that went to sleep in a
queue are those that left it for the ready list followed by those that wait, in this order.
`thread_wakeup(queue, 0)` moves the first waiting thread to the end of the ready list,
`thread_wakeup(queue, 1)` all of them. -/
theorem wait_queue_fifo {calls : List Call} {s : Slept} (run : (sleeping q).Run calls s) :
    s.slept = s.woke ++ s.machine.waitList q ∧
    (∀ p l, s.machine.waitList q = p :: l → Wakes s.machine q 0 1 [p] l) ∧
    ∃ n, Wakes s.machine q 1 n (s.machine.waitList q) [] := by
  obtain ⟨⟨⟨L, rep⟩, -⟩, hslept⟩ := sleeping_rep run
  exact ⟨hslept, fun p l hq => wakes_one rep hq, _, wakes_all rep q⟩

theorem sleeping_next (call : Call) {calls : List Call} {slept woke : List Nat}
    (run : (sleeping q).Run calls ⟨m, slept, woke⟩) (self : SelfExit call)
    (returns : m.returns call = true) :
    (sleeping q).Run (calls ++ [call]) ⟨m.after call, slept ++ m.sleeper q call,
      woke ++ m.moved (m.after call) q⟩ :=
  run.next ⟨self, perform_after returns, rfl, rfl⟩

/-- Two threads sleep and the first of them is woken alone; the third goes to sleep behind the
second, and both are woken. -/
theorem wait_queue_fifo_sleep : ∃ (calls calls' : List Call) (s s' : Slept),
    (sleeping 0).Run calls s ∧ Wakes s.machine 0 0 1 [0] [1] ∧
    (sleeping 0).Run calls' s' ∧ s'.slept = [0, 1, 2] ∧ s'.woke = [0] ∧
    ∃ n, Wakes s'.machine 0 1 n [1, 2] [] := by
  have start : (sleeping 0).Run [] ⟨initial, [], []⟩ := .start ⟨⟨_, rfl⟩, rfl, rfl⟩
  have first := sleeping_next .create start trivial (by decide +kernel)
  have second := sleeping_next .create first trivial (by decide +kernel)
  have asleep := sleeping_next (.sleep (some 0)) second trivial (by decide +kernel)
  have run := sleeping_next (.sleep (some 0)) asleep trivial (by decide +kernel)
  have woken := sleeping_next (.wakeup (some 0) 0) run trivial (by decide +kernel)
  have run' := sleeping_next (.sleep (some 0)) woken trivial (by decide +kernel)
  have one := (wait_queue_fifo run).2.1 0 [1] (by decide +kernel)
  have all := (wait_queue_fifo run').2.2
  have queue : ((((((initial.after .create).after .create).after (.sleep (some 0))).after
      (.sleep (some 0))).after (.wakeup (some 0) 0)).after (.sleep (some 0))).waitList 0 =
      [1, 2] := by decide +kernel
  refine ⟨_, _, _, _, run, one, run', by decide +kernel, by decide +kernel, ?_⟩
  dsimp only at all ⊢
  rw [queue] at all
  exact all

end Fifo

section Size

/-- Runs in which threads terminate only themselves and `malloc` does not fail. -/
def selfExiting : System Machine Call where
  start m := ∃ thread, m = Machine.threadInit thread
  step m call m' := SelfExit call ∧ m.perform call = .ok (some m')

/-- No thread is woken alone from this queue. -/
def NotAlone (queue : Nat) (m : Machine) (call : Call) : Prop :=
  ¬ (call = .wakeup (some queue) 0 ∧ m.waitList queue ≠ [])

/-- The `size` of a queue is its length. -/
def Counted (queue : Nat) (m : Machine) : Prop :=
  (m.queue queue).size = (m.waitList queue).length

/-- A wakeup of the queue returns the number of threads it moves to the ready list. -/
def Counts (queue : Nat) (m : Machine) : Prop :=
  ∀ all n m', all = 0 ∨ all = 1 → m.threadWakeup (some queue) all = .ok (n, m') →
    n = (m.moved m' queue).length

theorem update_size {f : Nat → WaitQueue} {r : Nat} {w : WaitQueue} {s : Int} {i : Nat}
    (h : w.size = s) : (Function.update f r w i).size = if i = r then s else (f i).size := by
  by_cases hi : i = r
  · rw [hi, Function.update_self, if_pos rfl, h]
  · rw [Function.update_of_ne hi, if_neg hi]

/-- The sizes after a wakeup: only `thread_wakeup(queue, 1)` sets one. -/
theorem threadWakeup_size {r : Nat} {all n : Int} (h : m.threadWakeup (some r) all = .ok (n, m'))
    (i : Nat) : (m'.queue i).size =
      if i = r ∧ all = 1 ∧ (m.queue r).wait_head ≠ none then 0 else (m.queue i).size := by
  have hkept : ∀ {f : Nat → WaitQueue}, (∀ j, (f j).size = (m.queue j).size) → all ≠ 1 →
      (f i).size = if i = r ∧ all = 1 ∧ (m.queue r).wait_head ≠ none then 0
        else (m.queue i).size := by
    intro f hf hall
    rw [if_neg fun h => hall h.2.1, hf]
  have hsize : ∀ {f : Nat → WaitQueue} {w : Option Nat}, f = m.queue → ∀ j,
      (Function.update f r ⟨w, (m.queue r).size⟩ j).size = (m.queue j).size := by
    rintro f w rfl j
    rw [update_size rfl]
    split_ifs with hj
    · rw [hj]
    · rfl
  cases hhead : (m.queue r).wait_head with
  | none =>
    simp only [Machine.threadWakeup, hhead] at h
    cases h
    rw [if_neg fun h => h.2.2 rfl]
  | some temp =>
    rw [hhead] at hkept
    simp only [Machine.threadWakeup, hhead] at h
    split_ifs at h with hzero hone hall
    · cases hr : m.insertThreadToReady temp with
      | error crash => rw [hr] at h; cases h
      | ok M =>
        rw [hr] at h
        cases h
        exact hkept (hsize (insertThreadToReady_states hr).queue) (by rw [hzero]; decide)
    · cases hr : (Machine.setNext { m with
          queue := Function.update m.queue r ⟨m.next temp, (m.queue r).size⟩ } temp
            none).insertThreadToReady temp with
      | error crash => rw [hr] at h; cases h
      | ok M =>
        rw [hr] at h
        cases h
        have hqueue := (insertThreadToReady_states hr).queue
        refine hkept (fun j => ?_) (by rw [hzero]; decide)
        rw [hqueue]
        exact hsize rfl j
    · cases hr : m.insertThreadToReady temp with
      | error crash => rw [hr] at h; cases h
      | ok M =>
        rw [hr] at h
        cases h
        dsimp only
        rw [update_size rfl, (insertThreadToReady_states hr).queue]
        simp [hall]
    · cases h
      exact hkept (fun _ => rfl) hall

/-- The size of a queue after a call that does not wake it. -/
theorem Steps.size_kept (h : Steps m L call m' L') (rep : Rep m L) (self : SelfExit call)
    (hinvoke : m.invoke call = .ok (some (v, m'))) (hcall : ∀ all, call ≠ .wakeup (some q) all) :
    (m'.queue q).size = (m.queue q).size + (m.sleeper q call).length := by
  cases hc : m.chosen call with
  | some c =>
    have hrunning : m'.RUNNING_THREAD = c := by rw [h.running rep, hc]; rfl
    have hsize := (invoke_restored rep self hc hinvoke hrunning).2 q
    rw [sleeper_some hc]
    split_ifs at hsize ⊢ <;> exact hsize
  | none =>
    have hsize : (m'.queue q).size = (m.queue q).size := by
      rcases stay_cases rep self hc hinvoke with (rfl | rfl) | ⟨-, new_id, n, hid, heq⟩ |
        ⟨queue, all, n, rfl, heq⟩
      · rfl
      · rfl
      · rw [threadCreate_eq hid] at heq
        obtain ⟨M, hinsert, hM⟩ := map_ok heq
        cases hM
        rw [(insertThreadToReady_states hinsert).queue]
        rfl
      · cases queue with
        | none =>
          cases heq
          rfl
        | some r =>
          rw [threadWakeup_size heq, if_neg fun h => hcall all (by rw [h.1])]
    rw [hsize, sleeper_none hc]
    simp

theorem Rep.wait_head (rep : Rep m L) (q : Nat) :
    (m.queue q).wait_head = none ↔ m.waitList q = [] := by
  have hhead := (rep.linked.chain (.waiting q)).head_eq
  rw [show m.head (.waiting q) = (m.queue q).wait_head from rfl] at hhead
  rw [hhead, rep.waitList, List.head?_eq_none_iff]

/-- What a wakeup of the queue does to the relation of its size to its length. -/
theorem counted_wakeup (rep : Rep m L) (counted : Counted q m) {all n : Int}
    (h : m.threadWakeup (some q) all = .ok (n, m')) :
    Counted q m' ↔ NotAlone q m (.wakeup (some q) all) := by
  have hsize := threadWakeup_size h q
  rw [Counted, hsize]
  by_cases hone : all = 1
  · obtain ⟨m₁, heq, -, -, hwaiting, -⟩ := (wakes_all rep q).returns
    rw [hone, heq] at h
    cases h
    have hnot : NotAlone q m (.wakeup (some q) all) := by
      rintro ⟨h, -⟩
      rw [hone] at h
      cases h
    refine iff_of_true ?_ hnot
    rw [hwaiting]
    split_ifs with hnil
    · rfl
    · have hempty : m.waitList q = [] :=
        (rep.wait_head q).1 (by by_contra hh; exact hnil ⟨rfl, hone, hh⟩)
      rw [counted, hempty]
  rw [if_neg fun h => hone h.2.1, counted]
  by_cases hzero : all = 0
  · cases hq : m.waitList q with
    | nil =>
      have hhead := (rep.wait_head q).2 hq
      simp only [Machine.threadWakeup, hhead] at h
      cases h
      exact iff_of_true (by rw [hq]) fun h => h.2 hq
    | cons p l =>
      obtain ⟨m₁, heq, -, -, hwaiting, -⟩ := (wakes_one rep hq).returns
      rw [hzero, heq] at h
      cases h
      rw [hwaiting, hzero]
      refine iff_of_false ?_ fun h => h ⟨rfl, by rw [hq]; exact List.cons_ne_nil _ _⟩
      rw [List.length_cons]
      omega
  · rw [threadWakeup_other (by rw [not_or]; exact ⟨hzero, hone⟩)] at h
    cases h
    refine iff_of_true rfl ?_
    rintro ⟨h, -⟩
    cases h
    exact hzero rfl

/-- The size of a queue stays its length exactly in the calls that wake no thread alone. -/
theorem counted_step (rep : Rep m L) (hm : Unmarked m) (counted : Counted q m)
    (self : SelfExit call) (h : m.perform call = .ok (some m')) :
    Counted q m' ↔ NotAlone q m call := by
  obtain ⟨v, L', hinvoke, steps⟩ := perform_steps rep hm self h
  by_cases hcall : ∃ all, call = .wakeup (some q) all
  · obtain ⟨all, rfl⟩ := hcall
    rw [Machine.invoke] at hinvoke
    obtain ⟨r, heq, hr⟩ := map_ok hinvoke
    cases hr
    exact counted_wakeup rep counted heq
  · have hcall : ∀ all, call ≠ .wakeup (some q) all := fun all heq => hcall ⟨all, heq⟩
    obtain ⟨-, hwaiting⟩ := steps.queue_kept rep hcall
    have hsize := steps.size_kept rep self hinvoke hcall
    refine iff_of_true ?_ fun h => hcall 0 h.1
    rw [Counted, hsize, counted, steps.rep.waitList, hwaiting, ← rep.waitList, List.length_append]
    simp

/-- When the size of a queue is its length, its wakeups count. -/
theorem counts_of_counted (rep : Rep m L) (counted : Counted q m) : Counts q m := by
  rintro all n m' (rfl | rfl) h
  · cases hq : m.waitList q with
    | nil =>
      have hhead := (rep.wait_head q).2 hq
      simp only [Machine.threadWakeup, hhead] at h
      cases h
      rw [Machine.moved, hq]
      rfl
    | cons p l =>
      obtain ⟨m₁, heq, hmoved, -⟩ := (wakes_one rep hq).returns
      rw [heq] at h
      cases h
      rw [hmoved]
      rfl
  · obtain ⟨m₁, heq, hmoved, -⟩ := (wakes_all rep q).returns
    rw [heq] at h
    cases h
    rw [hmoved]
    split_ifs with hnil
    · rw [hnil]
      rfl
    · exact counted

theorem selfExiting_rep {calls : List Call} (run : selfExiting.Run calls m) :
    (∃ L, Rep m L) ∧ Unmarked m := by
  refine run.invariant_state (I := fun m => (∃ L, Rep m L) ∧ Unmarked m) ?_ ?_
  · rintro m ⟨thread, rfl⟩
    exact ⟨⟨_, rep_threadInit thread⟩, unmarked_threadInit thread⟩
  · rintro m call m' ⟨⟨L, rep⟩, hm⟩ ⟨self, h⟩
    obtain ⟨v, L', -, steps⟩ := perform_steps rep hm self h
    exact ⟨⟨L', steps.rep⟩, steps.unmarked⟩

/-- In every run in which threads terminate only themselves and no thread is woken alone from a
queue, the size of the queue is its length and its wakeups return the number of threads they move;
the first thread woken alone ends this. -/
theorem wakeup_counts {calls : List Call} (run : (selfExiting.restrict (NotAlone q)).Run calls m) :
    Counted q m ∧ Counts q m ∧ ∀ call m', selfExiting.step m call m' →
      (Counted q m' ↔ NotAlone q m call) := by
  have inv : ((∃ L, Rep m L) ∧ Unmarked m) ∧ Counted q m := by
    refine run.invariant_state (I := fun m => ((∃ L, Rep m L) ∧ Unmarked m) ∧ Counted q m) ?_ ?_
    · rintro m ⟨thread, rfl⟩
      have rep := rep_threadInit thread
      refine ⟨⟨⟨_, rep⟩, unmarked_threadInit thread⟩, ?_⟩
      rw [Counted, rep.waitList, if_neg (by simp)]
      rfl
    · rintro m call m' ⟨⟨⟨L, rep⟩, hm⟩, counted⟩ ⟨⟨self, h⟩, notAlone⟩
      obtain ⟨v, L', -, steps⟩ := perform_steps rep hm self h
      exact ⟨⟨⟨L', steps.rep⟩, steps.unmarked⟩, (counted_step rep hm counted self h).2 notAlone⟩
  obtain ⟨⟨⟨L, rep⟩, hm⟩, counted⟩ := inv
  exact ⟨counted, counts_of_counted rep counted, fun call m' ⟨self, h⟩ =>
    counted_step rep hm counted self h⟩

theorem selfExiting_next (call : Call) {calls : List Call} (run : selfExiting.Run calls m)
    (self : SelfExit call) (returns : m.returns call = true) :
    selfExiting.Run (calls ++ [call]) (m.after call) :=
  run.next ⟨self, perform_after returns⟩

/-- One thread sleeps. -/
theorem wakeup_counts_sleep : Counted 0 ((initial.after .create).after (.sleep (some 0))) := by
  have start : (selfExiting.restrict (NotAlone 0)).Run [] initial := .start ⟨_, rfl⟩
  have hcreate : SelfExit .create := trivial
  have hsleep : SelfExit (.sleep (some 0)) := trivial
  have created := start.next (e := .create)
    ⟨⟨hcreate, perform_after (by decide +kernel)⟩, fun h => by cases h.1⟩
  have slept := created.next (e := .sleep (some 0))
    ⟨⟨hsleep, perform_after (by decide +kernel)⟩, fun h => by cases h.1⟩
  exact (wakeup_counts slept).1

/-- A thread sleeps and is woken alone, the other one sleeps: `thread_wakeup(queue, 1)` moves one
thread and returns 2. -/
theorem woken_alone_uncounted : ¬ ∀ calls m, selfExiting.Run calls m → ∀ q,
    Counted q m ∧ Counts q m := by
  intro h
  have created := selfExiting_next .create (.start ⟨_, rfl⟩ : selfExiting.Run [] initial) trivial
    (by decide +kernel)
  have slept := selfExiting_next (.sleep (some 0)) created trivial (by decide +kernel)
  have woken := selfExiting_next (.wakeup (some 0) 0) slept trivial (by decide +kernel)
  have again := selfExiting_next (.sleep (some 0)) woken trivial (by decide +kernel)
  obtain ⟨⟨L, rep⟩, -⟩ := selfExiting_rep again
  have counts := (h _ _ again 0).2
  have wakes := wakes_all rep 0
  obtain ⟨m', heq, hmoved, -⟩ := wakes.returns
  have hn := counts 1 _ m' (.inr rfl) heq
  rw [hmoved] at hn
  exact absurd hn (by decide +kernel)

end Size

end Ece344Lab.Threads
