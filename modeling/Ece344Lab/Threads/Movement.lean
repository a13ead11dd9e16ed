import Ece344Lab.Threads.Runs

/-!
# Where a call moves the threads

When no thread is marked, only the calling thread enters a wait queue, and only by
`thread_sleep`; only the calling thread terminates.
-/
namespace Ece344Lab.Threads

open Library (IsChain)

variable {m m' : Machine} {L L' : Places} {call : Call} {temp : Nat} {rest : List Nat}

/-- What a call does to the wait queues and to the live threads. -/
structure Moves (m : Machine) (L : Places) (call : Call) (m' : Machine) (L' : Places) : Prop where
  rep : Rep m' L'
  unmarked : Unmarked m'
  allocated : m.allocated ≤ m'.allocated
  waiting : ∀ q, ∀ p ∈ L' (.waiting q),
    p ∈ L (.waiting q) ∨ call = .sleep (some q) ∧ p = m.RUNNING_THREAD
  live : ∀ p, m.Live p →
    m'.Live p ∨ p = m.RUNNING_THREAD ∧ (call = .exit THREAD_SELF ∨ call = .ret)
  woken : ∀ q, call = .wakeup (some q) 1 → L' (.waiting q) = []
  signalled : ∀ q p, call = .wakeup (some q) 0 → L (.waiting q) = [p] → L' (.waiting q) = []

def Call.wakes : Call → Bool
  | .wakeup (some _) _ => true
  | _ => false

theorem ne_wakeup {q : Nat} {all : Int} (h : call.wakes = false) :
    call ≠ .wakeup (some q) all := by
  rintro rfl
  cases h

/-- The same machine up to fields that say nothing about places. -/
theorem moves_keeps (rep' : Rep m' L) (rep : Rep m L) (keeps : Keeps m m') (hm : Unmarked m)
    (hwake : call.wakes = false) : Moves m L call m' L where
  rep := rep'
  unmarked := keeps.unmarked hm
  allocated := Nat.le_of_eq keeps.allocated.symm
  waiting _ _ hp := .inl hp
  live p hp := .inl ((rep'.live p).2 ((rep.live p).1 hp))
  woken _ h := absurd h (ne_wakeup hwake)
  signalled _ _ h := absurd h (ne_wakeup hwake)

theorem placed_same (h : SameQueues L L') {p : Nat} :
    (∃ i, i ≠ .dying ∧ p ∈ L' i) ↔ ∃ i, i ≠ .dying ∧ p ∈ L i :=
  exists_congr fun i => and_congr_right fun hi => by rw [h i hi]

/-- A switch that suspends the calling thread in the ready list or in a wait queue. -/
theorem moves_switch {τ : Place} (rep : Rep m L) (hm : Unmarked m)
    (hready : ∀ x, x ∈ L .ready ↔ x = temp ∨ x ∈ rest) (hτ : τ ≠ .running) (hd : τ ≠ .dying)
    {r : Except Crash (Option Tid × Machine)} (h : Switches m L τ rest temp r)
    (hcall : ∀ q, τ = .waiting q → call = .sleep (some q))
    (hwake : call.wakes = false)
    (hr : (r.map fun r => some r.2) = .ok (some m')) : ∃ L', Moves m L call m' L' := by
  obtain ⟨⟨v, m₁⟩, heq, hm'⟩ := map_ok hr
  cases hm'
  obtain ⟨L', rep', keeps, hsame⟩ := h.returns heq
  have htemp := (rep.held .ready temp ((hready temp).2 (.inl rfl))).1
  replace hsame := hsame (hm temp htemp)
  refine ⟨L', rep', keeps.unmarked hm, Nat.le_of_eq keeps.allocated.symm, fun q p hp => ?_,
    fun p hp => .inl ?_, fun q h => absurd h (ne_wakeup hwake),
    fun q _ h => absurd h (ne_wakeup hwake)⟩
  · rw [hsame _ (by simp), mem_switched hτ (by simp), Function.update_of_ne (by simp)] at hp
    exact hp.imp_right fun ⟨hq, hp⟩ => ⟨hcall q hq.symm, hp⟩
  · rw [rep'.live, placed_same hsame, placed_switched rep.running hready hτ hd]
    exact (rep.live p).1 hp

/-- The calling thread terminates. -/
theorem moves_exit (rep : Rep m L) (hm : Unmarked m) (hready : L .ready = temp :: rest)
    (rep' : Rep m' L') (keeps : Keeps m m')
    (hsame : SameQueues (switched L .dying rest m.RUNNING_THREAD temp) L')
    (hcall : call = .exit THREAD_SELF ∨ call = .ret) : Moves m L call m' L' := by
  have hwake : call.wakes = false := by
    rcases hcall with rfl | rfl <;> rfl
  refine ⟨rep', keeps.unmarked hm, Nat.le_of_eq keeps.allocated.symm, fun q p hp => .inl ?_,
    fun p hp => ?_, fun q h => absurd h (ne_wakeup hwake),
    fun q _ h => absurd h (ne_wakeup hwake)⟩
  · rw [hsame _ (by simp), mem_switched (by decide) (by simp), Function.update_of_ne (by simp)] at hp
    exact hp.resolve_right fun h => by cases h.1
  · by_cases hr : p = m.RUNNING_THREAD
    · exact .inr ⟨hr, hcall⟩
    · refine .inl ?_
      rw [rep'.live, placed_same hsame, placed_retired rep hready]
      exact ⟨(rep.live p).1 hp, hr⟩

theorem placed_wakes {q : Nat} {all : Int} {p : Nat} :
    (∃ i, i ≠ .dying ∧ p ∈ wakes L q all i) ↔ ∃ i, i ≠ .dying ∧ p ∈ L i := by
  rw [wakes]
  by_cases hone : all = 1
  · rw [if_pos hone]
    exact placed_woken (List.append_nil _).symm
  · rw [if_neg hone]
    cases hq : L (.waiting q) with
    | nil => exact Iff.rfl
    | cons x l => exact placed_woken hq

theorem moves_wakeup (rep : Rep m L) (hm : Unmarked m) {q : Nat} {all : Int}
    (hall : all = 0 ∨ all = 1) (h : m.perform (.wakeup (some q) all) = .ok (some m')) :
    Moves m L (.wakeup (some q) all) m' (wakes L q all) := by
  obtain ⟨v, m₁, heq, rep', keeps⟩ := threadWakeup_spec rep q hall
  rw [Machine.perform, heq] at h
  cases h
  have hsub : ∀ r, ∀ p ∈ wakes L q all (.waiting r), p ∈ L (.waiting r) := by
    intro r p hp
    rw [wakes] at hp
    by_cases hone : all = 1
    · rw [if_pos hone] at hp
      exact (mem_woken (List.append_nil _).symm hp).resolve_right fun h => by cases h.1
    · rw [if_neg hone] at hp
      cases hq : L (.waiting q) with
      | nil => rwa [hq] at hp
      | cons x l =>
        rw [hq] at hp
        exact (mem_woken hq hp).resolve_right fun h => by cases h.1
  refine ⟨rep', keeps.unmarked hm, Nat.le_of_eq keeps.allocated.symm,
    fun r p hp => .inl (hsub r p hp), fun p hp => .inl ?_, fun r hr => ?_, fun r p hr hp => ?_⟩
  · rw [rep'.live, placed_wakes]
    exact (rep.live p).1 hp
  · cases hr
    rw [wakes, if_pos rfl, woken_waiting, if_pos rfl]
  · cases hr
    rw [wakes, if_neg (by decide), hp]
    dsimp only
    rw [woken_waiting, if_pos rfl]

theorem moves_create (rep : Rep m L) (hm : Unmarked m)
    (h : m.perform .create = .ok (some m')) : ∃ L', Moves m L .create m' L' := by
  rw [Machine.perform] at h
  cases hid : m.assignThreadId with
  | none =>
    rw [threadCreate_none hid] at h
    cases h
    exact ⟨L, moves_keeps rep rep (Keeps.refl m) hm rfl⟩
  | some new_id =>
    obtain ⟨m₁, heq, rep', hallocated, hnew, hflag, hexited⟩ := threadCreate_spec rep hid
    rw [heq] at h
    cases h
    refine ⟨_, rep', fun p hp => ?_, by dsimp only; omega, fun q p hp => .inl ?_,
      fun p hp => .inl ?_, fun q h => absurd h (ne_wakeup rfl),
      fun q p h => absurd h (ne_wakeup rfl)⟩
    · rw [hallocated] at hp
      rcases Nat.lt_succ_iff_lt_or_eq.1 hp with hp | rfl
      · rw [hflag p hp, hm p hp]
      · exact hnew
    · exact (mem_entered.1 hp).resolve_right fun h => by cases h.1
    · rw [Machine.Live, hallocated, hexited p hp.1]
      exact ⟨Nat.lt_succ_of_lt hp.1, hp.2⟩

/-- `thread_yield` to an identifier that no ready thread has returns at once or does not return. -/
theorem threadYield_absent (rep : Rep m L) {want_tid : Tid} {v : Option Tid}
    (hany : want_tid ≠ THREAD_ANY)
    (hself : ¬ (want_tid = THREAD_SELF ∨ want_tid = (m.thread m.RUNNING_THREAD).tid))
    (habsent : ¬ ∃ p ∈ L .ready, (m.thread p).tid = want_tid)
    (h : m.threadYield want_tid = .ok (v, m')) : m' = m := by
  rw [Machine.threadYield, if_neg hany, if_neg hself] at h
  by_cases hinvalid : want_tid > THREAD_MAX_THREADS - 1 ∨ want_tid < THREAD_FAILED
  · rw [if_pos hinvalid] at h
    cases h
    rfl
  by_cases hneg : want_tid < 0
  · rw [if_neg hinvalid, if_pos hneg] at h
    cases h
  by_cases hfree : m.thread_id_array want_tid.toNat = false
  · rw [if_neg hinvalid, if_neg hneg, if_pos hfree] at h
    cases h
    rfl
  rw [if_neg hinvalid, if_neg hneg, if_neg hfree] at h
  cases hfirst : m.READY_HEAD with
  | none => rw [hfirst] at h; cases h
  | some first =>
    rw [hfirst] at h
    dsimp only at h
    cases hfind : Library.findNode m.next (fun p => (m.thread p).tid == want_tid) m.allocated first
        first with
    | none => rw [hfind] at h; cases h
    | some found =>
      have hchain := rep.linked.chain .ready
      rw [show m.head .ready = m.READY_HEAD from rfl, hfirst] at hchain
      obtain ⟨hmem, htid⟩ := hchain.mem_of_findNode hfind
      exact absurd ⟨_, hmem, by simpa using htid⟩ habsent

theorem moves_yield (rep : Rep m L) (hm : Unmarked m) {want_tid : Tid}
    (h : m.perform (.yield want_tid) = .ok (some m')) : ∃ L', Moves m L (.yield want_tid) m' L' := by
  have hflag := hm _ (rep.held .running _ rep.mem_running).1
  rw [Machine.perform] at h
  by_cases hany : want_tid = THREAD_ANY
  · subst hany
    cases hready : L .ready with
    | nil =>
      rw [threadYield_any_nil rep hready] at h
      cases h
      exact ⟨L, moves_keeps rep rep (Keeps.refl m) hm rfl⟩
    | cons temp rest =>
      exact moves_switch rep hm (fun x => by rw [hready, List.mem_cons]) (by decide) (by decide)
        (threadYield_any rep hready hflag) (fun q hq => by cases hq) rfl h
  by_cases hself : want_tid = THREAD_SELF ∨ want_tid = (m.thread m.RUNNING_THREAD).tid
  · rw [threadYield_self hany hself] at h
    cases h
    exact ⟨L, moves_keeps (rep.setState_running .recover) rep (keeps_setState m _ _) hm rfl⟩
  by_cases hfound : ∃ p ∈ L .ready, (m.thread p).tid = want_tid
  · obtain ⟨p, hp, rfl⟩ := hfound
    obtain ⟨rest, hready, -, hswitch⟩ := threadYield_tid rep hp hflag
    exact moves_switch rep hm hready (by decide) (by decide) hswitch
      (fun q hq => by cases hq) rfl h
  · cases hyield : m.threadYield want_tid with
    | error => rw [hyield] at h; cases h
    | ok r =>
      rw [hyield] at h
      cases h
      have heq := threadYield_absent rep hany hself hfound hyield
      exact ⟨L, moves_keeps (heq ▸ rep) rep (heq ▸ Keeps.refl m) hm rfl⟩

theorem moves_sleep (rep : Rep m L) (hm : Unmarked m) {queue : Option Nat}
    (h : m.perform (.sleep queue) = .ok (some m')) : ∃ L', Moves m L (.sleep queue) m' L' := by
  have hflag := hm _ (rep.held .running _ rep.mem_running).1
  rw [Machine.perform] at h
  cases queue with
  | none =>
    cases h
    exact ⟨L, moves_keeps rep rep (Keeps.refl m) hm rfl⟩
  | some q =>
    cases hready : L .ready with
    | nil =>
      rw [threadSleep_nil rep hready] at h
      cases h
      exact ⟨L, moves_keeps rep rep (Keeps.refl m) hm rfl⟩
    | cons temp rest =>
      refine moves_switch rep hm (fun x => by rw [hready, List.mem_cons]) (by simp) (by simp)
        (threadSleep_cons rep hready (fun hf => by rw [hflag] at hf; cases hf) q) (fun r hr => ?_)
        rfl h
      cases hr
      rfl

theorem moves_leave (rep : Rep m L) (hm : Unmarked m)
    (hcall : call = .exit THREAD_SELF ∨ call = .ret) (h : m.perform call = .ok (some m')) :
    ∃ L', Moves m L call m' L' := by
  cases hready : L .ready with
  | nil =>
    rcases hcall with rfl | rfl
    · rw [Machine.perform, Machine.threadExit, if_pos rfl, exitSelf_nil rep hready] at h
      cases h
      exact ⟨L, moves_keeps rep rep (Keeps.refl m) hm rfl⟩
    · rw [Machine.perform, exitSelf_nil rep hready] at h
      cases h
  | cons temp rest =>
    obtain ⟨m₁, hexit, hswitch⟩ := exit_resume rep hready
    have htemp : (m.thread temp).flag = false :=
      hm _ (rep.held .ready temp (by rw [hready]; exact List.mem_cons_self)).1
    have heq : m.perform call =
        (Machine.resumeWith (Machine.afterGetcontext m₁.fuel) m₁).map fun r => some r.2 := by
      rcases hcall with rfl | rfl
      · rw [Machine.perform, Machine.threadExit, if_pos rfl, hexit]
      · rw [Machine.perform, hexit]
    rw [heq] at h
    obtain ⟨⟨v, m₂⟩, hres, hm₂⟩ := map_ok h
    cases hm₂
    obtain ⟨L', rep', keeps, hsame⟩ := hswitch.returns hres
    exact ⟨L', moves_exit rep hm hready rep' keeps (hsame htemp) hcall⟩

/-- The calls that mark no thread; `thread_wakeup` wakes one waiter or all. -/
def Mild : Call → Prop
  | .wakeup _ all => all = 0 ∨ all = 1
  | .exit tid => tid = THREAD_SELF
  | _ => True

/-- What a call that marks no thread does to the queues. -/
theorem perform_moves (rep : Rep m L) (hm : Unmarked m) (h : m.perform call = .ok (some m'))
    (allowed : Mild call) : ∃ L', Moves m L call m' L' := by
  cases call with
  | create => exact moves_create rep hm h
  | yield want_tid => exact moves_yield rep hm h
  | sleep queue => exact moves_sleep rep hm h
  | wakeup queue all =>
    cases queue with
    | none =>
      cases h
      exact ⟨L, moves_keeps rep rep (Keeps.refl m) hm rfl⟩
    | some q => exact ⟨_, moves_wakeup rep hm allowed h⟩
  | exit tid =>
    obtain rfl : tid = THREAD_SELF := allowed
    exact moves_leave rep hm (.inl rfl) h
  | ret => exact moves_leave rep hm (.inr rfl) h

end Ece344Lab.Threads
