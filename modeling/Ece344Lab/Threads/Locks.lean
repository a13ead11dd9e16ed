import Ece344Lab.Threads.Movement

/-!
# Locks and condition variables

`lock_acquire`, `lock_release`, `cv_wait`, `cv_signal` and `cv_broadcast` in pieces that run with
interrupts off. Between two pieces a timer interrupt may run `thread_yield(THREAD_ANY)`; inside
the loop of `lock_acquire` interrupts stay off, also while the thread is suspended there.
-/
namespace Ece344Lab.Threads

open Library (IsChain System)

/-- Where a thread is in its call; `wait` is the condition variable when the acquisition is the
last part of a `cv_wait`. -/
inductive Pc where
  | user
  | acquiring (wait : Option Nat) (lock : Nat)
  | leaving (wait : Option Nat) (lock : Nat)
  | waitSleep (cv lock : Nat)
  | waitAcquire (cv lock : Nat)
  deriving DecidableEq

/-- Interrupts are off only in the loop of `lock_acquire`. -/
def Pc.interruptible : Pc → Bool
  | .acquiring _ _ => false
  | _ => true

def lockQueue (lock : Nat) : Nat := 2 * lock

def cvQueue (cv : Nat) : Nat := 2 * cv + 1

/-- The machine, the state word of every lock and where every thread is. `holds` marks the locks a
thread has acquired by a call that has returned. -/
structure Sync where
  machine : Machine
  lock_state : Nat → Int
  pc : Nat → Pc
  holds : Nat → Nat → Bool

namespace Sync

def self (s : Sync) : Nat := s.machine.RUNNING_THREAD

def goto (s : Sync) (pc : Pc) : Sync := { s with pc := Function.update s.pc s.self pc }

def mark (s : Sync) (lock : Nat) (held : Bool) : Sync :=
  { s with holds := Function.update s.holds s.self (Function.update (s.holds s.self) lock held) }

/-- `lock_release`, where `m` is the machine after the `thread_wakeup` in it. -/
def released (s : Sync) (lock : Nat) (m : Machine) : Sync :=
  { s.mark lock false with machine := m, lock_state := Function.update s.lock_state lock 0 }

end Sync

inductive Op where
  | acquire (lock : Nat)
  | test
  | leave
  | release (lock : Nat)
  | wait (cv lock : Nat)
  | sleep
  | reacquire
  | signal (cv : Nat)
  | broadcast (cv : Nat)
  | call (call : Call)
  | preempt

/-- The other calls of a thread; it does not terminate while it holds a lock. -/
def Plain (s : Sync) : Call → Prop
  | .create => True
  | .yield _ => True
  | .exit tid => tid = THREAD_SELF ∧ ∀ lock, s.holds s.self lock = false
  | .ret => ∀ lock, s.holds s.self lock = false
  | _ => False

inductive Step : Sync → Op → Sync → Prop where
  | acquire {s : Sync} {lock : Nat} (user : s.pc s.self = .user)
      (free : s.holds s.self lock = false) :
      Step s (.acquire lock) (s.goto (.acquiring none lock))
  | block {s : Sync} {m : Machine} {wait : Option Nat} {lock : Nat}
      (pc : s.pc s.self = .acquiring wait lock) (taken : s.lock_state lock = 1)
      (sleep : s.machine.perform (.sleep (some (lockQueue lock))) = .ok (some m)) :
      Step s .test { s with machine := m }
  | take {s : Sync} {wait : Option Nat} {lock : Nat} (pc : s.pc s.self = .acquiring wait lock)
      (free : s.lock_state lock ≠ 1) :
      Step s .test { s.goto (.leaving wait lock) with
        lock_state := Function.update s.lock_state lock 1 }
  | leave {s : Sync} {wait : Option Nat} {lock : Nat} (pc : s.pc s.self = .leaving wait lock) :
      Step s .leave ((s.mark lock true).goto .user)
  | release {s : Sync} {m : Machine} {lock : Nat} (user : s.pc s.self = .user)
      (held : s.holds s.self lock = true)
      (wakeup : s.machine.perform (.wakeup (some (lockQueue lock)) 1) = .ok (some m)) :
      Step s (.release lock) (s.released lock m)
  | wait {s : Sync} {m : Machine} {cv lock : Nat} (user : s.pc s.self = .user)
      (held : s.holds s.self lock = true)
      (wakeup : s.machine.perform (.wakeup (some (lockQueue lock)) 1) = .ok (some m)) :
      Step s (.wait cv lock) ((s.goto (.waitSleep cv lock)).released lock m)
  | sleep {s : Sync} {m : Machine} {cv lock : Nat} (pc : s.pc s.self = .waitSleep cv lock)
      (sleep : s.machine.perform (.sleep (some (cvQueue cv))) = .ok (some m)) :
      Step s .sleep { s.goto (.waitAcquire cv lock) with machine := m }
  | reacquire {s : Sync} {cv lock : Nat} (pc : s.pc s.self = .waitAcquire cv lock) :
      Step s .reacquire (s.goto (.acquiring (some cv) lock))
  | signal {s : Sync} {m : Machine} {cv : Nat} (user : s.pc s.self = .user)
      (wakeup : s.machine.perform (.wakeup (some (cvQueue cv)) 0) = .ok (some m)) :
      Step s (.signal cv) { s with machine := m }
  | broadcast {s : Sync} {m : Machine} {cv : Nat} (user : s.pc s.self = .user)
      (wakeup : s.machine.perform (.wakeup (some (cvQueue cv)) 1) = .ok (some m)) :
      Step s (.broadcast cv) { s with machine := m }
  | call {s : Sync} {m : Machine} {call : Call} (user : s.pc s.self = .user)
      (plain : Plain s call) (perform : s.machine.perform call = .ok (some m)) :
      Step s (.call call) { s with machine := m }
  | preempt {s : Sync} {m : Machine} (enabled : (s.pc s.self).interruptible = true)
      (perform : s.machine.perform (.yield THREAD_ANY) = .ok (some m)) :
      Step s .preempt { s with machine := m }

def Sync.start (thread : Nat → Thread) : Sync :=
  ⟨Machine.threadInit thread, fun _ => 0, fun _ => .user, fun _ _ => false⟩

/-- The pieces and the interrupts in any order; `thread_create` has memory. -/
def locks : System Sync Op where
  start s := ∃ thread, s = Sync.start thread
  step := Step

/-- Acquired, also when the call has not returned yet. -/
def Owns (s : Sync) (p lock : Nat) : Prop :=
  s.holds p lock = true ∨ ∃ wait, s.pc p = .leaving wait lock

/-- A thread in a wait queue is in the call that put it there. -/
structure Queued (s : Sync) (L : Places) : Prop where
  rep : Rep s.machine L
  unmarked : Unmarked s.machine
  fresh : ∀ p, s.machine.allocated ≤ p → s.pc p = .user
  lock_queue : ∀ lock, ∀ p ∈ L (.waiting (lockQueue lock)), ∃ wait, s.pc p = .acquiring wait lock
  cv_queue : ∀ cv, ∀ p ∈ L (.waiting (cvQueue cv)), ∃ lock, s.pc p = .waitAcquire cv lock

/-- The state word of a lock says whether some thread owns it. -/
structure Owned (s : Sync) : Prop where
  live : ∀ p lock, Owns s p lock → s.machine.Live p
  unique : ∀ p q lock, Owns s p lock → Owns s q lock → p = q
  state : ∀ lock, s.lock_state lock = 1 ↔ ∃ p, Owns s p lock

variable {s s' : Sync} {L L' : Places} {call : Call} {op : Op}

theorem lockQueue_ne (lock cv : Nat) : lockQueue lock ≠ cvQueue cv := by
  rw [lockQueue, cvQueue]
  omega

theorem lockQueue_inj {lock lock' : Nat} (h : lockQueue lock = lockQueue lock') : lock = lock' := by
  rw [lockQueue, lockQueue] at h
  omega

theorem cvQueue_inj {cv cv' : Nat} (h : cvQueue cv = cvQueue cv') : cv = cv' := by
  rw [cvQueue, cvQueue] at h
  omega

/-- Only the running thread moves on in its call, and it enters a queue only from the loop of
`lock_acquire` or from `cv_wait`. -/
theorem Queued.next (inv : Queued s L) (moves : Moves s.machine L call s'.machine L')
    (pc : ∀ p, p ≠ s.self → s'.pc p = s.pc p)
    (in_lock : ∀ lock, call = .sleep (some (lockQueue lock)) →
      ∃ wait, s'.pc s.self = .acquiring wait lock)
    (in_cv : ∀ cv, call = .sleep (some (cvQueue cv)) → ∃ lock, s'.pc s.self = .waitAcquire cv lock) :
    Queued s' L' where
  rep := moves.rep
  unmarked := moves.unmarked
  fresh p hp := by
    have hp := Nat.le_trans moves.allocated hp
    have hself := (inv.rep.held .running _ inv.rep.mem_running).1
    rw [pc p (Nat.ne_of_gt (Nat.lt_of_lt_of_le hself hp))]
    exact inv.fresh p hp
  lock_queue lock p hp := by
    rcases moves.waiting _ p hp with hp | ⟨hcall, rfl⟩
    · rw [pc p (inv.rep.ne_running hp (by simp))]
      exact inv.lock_queue lock p hp
    · exact in_lock lock hcall
  cv_queue cv p hp := by
    rcases moves.waiting _ p hp with hp | ⟨hcall, rfl⟩
    · rw [pc p (inv.rep.ne_running hp (by simp))]
      exact inv.cv_queue cv p hp
    · exact in_cv cv hcall

theorem goto_self (s : Sync) (pc : Pc) : (s.goto pc).pc s.self = pc := Function.update_self ..

theorem goto_of_ne {p : Nat} (h : p ≠ s.self) (pc : Pc) : (s.goto pc).pc p = s.pc p :=
  Function.update_of_ne h ..

theorem plain_mild (plain : Plain s call) : Mild call := by
  cases call with
  | exit => exact plain.1
  | wakeup => cases plain
  | _ => trivial

/-- What a step does to the queues of the condition variables. -/
structure Advances (s : Sync) (L : Places) (op : Op) (s' : Sync) (L' : Places) : Prop where
  queued : Queued s' L'
  pc : ∀ p, p ≠ s.self → s'.pc p = s.pc p
  asleep : ∀ cv, ∀ p ∈ L' (.waiting (cvQueue cv)), p ∈ L (.waiting (cvQueue cv)) ∨
    op = .sleep ∧ p = s.self ∧ ∃ lock, s.pc s.self = .waitSleep cv lock
  window : ∀ cv lock, s'.pc s.self = .waitSleep cv lock →
    s.pc s.self = .waitSleep cv lock ∨ op = .wait cv lock
  broadcast : ∀ cv, op = .broadcast cv → L' (.waiting (cvQueue cv)) = []
  signal : ∀ cv p, op = .signal cv → L (.waiting (cvQueue cv)) = [p] →
    L' (.waiting (cvQueue cv)) = []

theorem asleep_of_moves {m : Machine} (moves : Moves s.machine L call m L')
    (hcall : ∀ q, call ≠ .sleep (some q)) {q p : Nat} (hp : p ∈ L' (.waiting q)) :
    p ∈ L (.waiting q) :=
  (moves.waiting q p hp).resolve_right fun h => hcall q h.1

/-- A step that leaves the machine alone, or whose call does not sleep or wake. -/
theorem advances_of_moves (inv : Queued s L) (moves : Moves s.machine L call s'.machine L')
    (pc : ∀ p, p ≠ s.self → s'.pc p = s.pc p) (hcall : ∀ q, call ≠ .sleep (some q))
    (window : ∀ cv lock, s'.pc s.self = .waitSleep cv lock →
      s.pc s.self = .waitSleep cv lock ∨ op = .wait cv lock)
    (broadcast : ∀ cv, op ≠ .broadcast cv) (signal : ∀ cv, op ≠ .signal cv) :
    Advances s L op s' L' where
  queued := inv.next moves pc (fun _ h => absurd h (hcall _)) fun _ h => absurd h (hcall _)
  pc := pc
  asleep _ _ hp := .inl (asleep_of_moves moves hcall hp)
  window := window
  broadcast cv h := absurd h (broadcast cv)
  signal cv _ h := absurd h (signal cv)

theorem advances_goto (inv : Queued s L) (machine : s'.machine = s.machine)
    (pc : ∀ p, p ≠ s.self → s'.pc p = s.pc p) (window : ∀ cv lock, s'.pc s.self ≠ .waitSleep cv lock)
    (broadcast : ∀ cv, op ≠ .broadcast cv) (signal : ∀ cv, op ≠ .signal cv) :
    Advances s L op s' L :=
  have moves : Moves s.machine L .create s'.machine L :=
    moves_keeps (machine ▸ inv.rep) inv.rep (machine ▸ Keeps.refl _) inv.unmarked rfl
  advances_of_moves inv moves pc nofun (fun cv lock h => absurd h (window cv lock)) broadcast signal

theorem goto_ne {pc pc' : Pc} (h : pc ≠ pc') : (s.goto pc).pc s.self ≠ pc' := by
  rwa [goto_self]

/-- What a step does. -/
theorem step_advances (inv : Queued s L) (step : Step s op s') : ∃ L', Advances s L op s' L' := by
  cases step with
  | acquire =>
    exact ⟨L, advances_goto inv rfl (fun p hp => goto_of_ne hp _) (fun _ _ => goto_ne nofun) nofun
      nofun⟩
  | block pc taken sleep =>
    obtain ⟨L', moves⟩ := perform_moves inv.rep inv.unmarked sleep trivial
    refine ⟨L', inv.next moves (fun _ _ => rfl) (fun lock h => ?_) fun cv h => ?_, fun _ _ => rfl,
      fun cv p hp => .inl ?_, fun cv lock h => .inl h, nofun, nofun⟩
    · cases lockQueue_inj (Option.some.inj (Call.sleep.inj h))
      exact ⟨_, pc⟩
    · exact absurd (Option.some.inj (Call.sleep.inj h)) (lockQueue_ne _ _)
    · exact (moves.waiting _ p hp).resolve_right fun h =>
        lockQueue_ne _ _ (Option.some.inj (Call.sleep.inj h.1))
  | take =>
    exact ⟨L, advances_goto inv rfl (fun p hp => goto_of_ne hp _) (fun _ _ => goto_ne nofun) nofun
      nofun⟩
  | leave =>
    exact ⟨L, advances_goto inv rfl (fun p hp => goto_of_ne hp _)
      (fun _ _ => goto_ne (s := s.mark _ true) nofun) nofun nofun⟩
  | release user held wakeup =>
    obtain ⟨L', moves⟩ := perform_moves inv.rep inv.unmarked wakeup (.inr rfl)
    exact ⟨L', advances_of_moves inv moves (fun _ _ => rfl) nofun (fun _ _ h => .inl h) nofun nofun⟩
  | @wait m cv lock user held wakeup =>
    obtain ⟨L', moves⟩ := perform_moves inv.rep inv.unmarked wakeup (.inr rfl)
    refine ⟨L', advances_of_moves inv moves (fun p hp => goto_of_ne hp _) nofun (fun cv' lock' h => ?_)
      nofun nofun⟩
    have h : (s.goto (.waitSleep cv lock)).pc s.self = .waitSleep cv' lock' := h
    rw [goto_self] at h
    cases h
    exact .inr rfl
  | @sleep m cv lock pc sleep =>
    obtain ⟨L', moves⟩ := perform_moves inv.rep inv.unmarked sleep trivial
    refine ⟨L', inv.next moves (fun p hp => goto_of_ne hp _) (fun lock h => ?_) fun cv h => ?_,
      fun p hp => goto_of_ne hp _, fun cv' p hp => ?_,
      fun _ _ h => absurd h (goto_ne (s := s) nofun), nofun, nofun⟩
    · exact absurd (Option.some.inj (Call.sleep.inj h)).symm (lockQueue_ne _ _)
    · cases cvQueue_inj (Option.some.inj (Call.sleep.inj h))
      exact ⟨_, goto_self s _⟩
    · rcases moves.waiting _ p hp with hp | ⟨h, hself⟩
      · exact .inl hp
      · cases cvQueue_inj (Option.some.inj (Call.sleep.inj h))
        exact .inr ⟨rfl, hself, lock, pc⟩
  | reacquire =>
    exact ⟨L, advances_goto inv rfl (fun p hp => goto_of_ne hp _) (fun _ _ => goto_ne nofun) nofun
      nofun⟩
  | signal user wakeup =>
    obtain ⟨L', moves⟩ := perform_moves inv.rep inv.unmarked wakeup (.inl rfl)
    refine ⟨L', inv.next moves (fun _ _ => rfl) nofun nofun, fun _ _ => rfl,
      fun _ _ hp => .inl (asleep_of_moves moves nofun hp), fun _ _ h => .inl h, nofun, fun cv p h => ?_⟩
    cases h
    exact moves.signalled _ p rfl
  | broadcast user wakeup =>
    obtain ⟨L', moves⟩ := perform_moves inv.rep inv.unmarked wakeup (.inr rfl)
    refine ⟨L', inv.next moves (fun _ _ => rfl) nofun nofun, fun _ _ => rfl,
      fun _ _ hp => .inl (asleep_of_moves moves nofun hp), fun _ _ h => .inl h, fun cv h => ?_, nofun⟩
    cases h
    exact moves.woken _ rfl
  | @call m call user plain perform =>
    obtain ⟨L', moves⟩ := perform_moves inv.rep inv.unmarked perform (plain_mild plain)
    refine ⟨L', advances_of_moves inv moves (fun _ _ => rfl) ?_ (fun _ _ h => .inl h) nofun nofun⟩
    rintro q rfl
    cases plain
  | preempt enabled perform =>
    obtain ⟨L', moves⟩ := perform_moves inv.rep inv.unmarked perform trivial
    exact ⟨L', advances_of_moves inv moves (fun _ _ => rfl) nofun (fun _ _ h => .inl h) nofun nofun⟩

section Owners

/-- No change of owners. -/
theorem Owned.keep (inv : Owned s) (owns : ∀ p lock, Owns s' p lock ↔ Owns s p lock)
    (state : s'.lock_state = s.lock_state)
    (live : ∀ p lock, Owns s p lock → s.machine.Live p → s'.machine.Live p) : Owned s' where
  live p lock h := by
    have h := (owns p lock).1 h
    exact live p lock h (inv.live p lock h)
  unique p q lock hp hq := inv.unique p q lock ((owns p lock).1 hp) ((owns q lock).1 hq)
  state lock := by
    rw [state, inv.state]
    exact exists_congr fun p => (owns p lock).symm

/-- Moving on between places that are not behind `lock_state = 1`. -/
theorem owns_goto {pc : Pc} (before : ∀ wait lock, s.pc s.self ≠ .leaving wait lock)
    (after : ∀ wait lock, pc ≠ .leaving wait lock) (p lock : Nat) :
    Owns (s.goto pc) p lock ↔ Owns s p lock := by
  refine or_congr Iff.rfl ?_
  by_cases hp : p = s.self
  · subst hp
    rw [goto_self]
    exact iff_of_false (fun ⟨w, h⟩ => after w lock h) fun ⟨w, h⟩ => before w lock h
  · rw [goto_of_ne hp]

theorem mark_holds (s : Sync) (lock : Nat) (held : Bool) (p l : Nat) :
    (s.mark lock held).holds p l = if p = s.self ∧ l = lock then held else s.holds p l := by
  simp only [Sync.mark]
  by_cases hp : p = s.self
  · subst hp
    rw [Function.update_self]
    by_cases hl : l = lock
    · subst hl
      rw [Function.update_self, if_pos ⟨rfl, rfl⟩]
    · rw [Function.update_of_ne hl, if_neg fun h => hl h.2]
  · rw [Function.update_of_ne hp, if_neg fun h => hp h.1]

/-- The running thread is behind `lock_state = 1` of the lock just taken. -/
theorem owns_leaving {wait : Option Nat} {lock : Nat}
    (before : ∀ wait lock, s.pc s.self ≠ .leaving wait lock) (p l : Nat) :
    Owns (s.goto (.leaving wait lock)) p l ↔ Owns s p l ∨ p = s.self ∧ l = lock := by
  rw [Owns, Owns, or_assoc]
  refine or_congr Iff.rfl ?_
  by_cases hp : p = s.self
  · subst hp
    rw [goto_self]
    constructor
    · rintro ⟨w, h⟩
      cases h
      exact .inr ⟨rfl, rfl⟩
    · rintro (⟨w, h⟩ | ⟨-, rfl⟩)
      · exact absurd h (before w l)
      · exact ⟨wait, rfl⟩
  · rw [goto_of_ne hp]
    exact ⟨.inl, fun h => h.resolve_right fun h => hp h.1⟩

/-- The call that took the lock returns. -/
theorem owns_returned {wait : Option Nat} {lock : Nat} (pc : s.pc s.self = .leaving wait lock)
    (p l : Nat) : Owns ((s.mark lock true).goto .user) p l ↔ Owns s p l := by
  have hholds : ((s.mark lock true).goto .user).holds p l = (s.mark lock true).holds p l := rfl
  rw [Owns, Owns, hholds, mark_holds]
  by_cases hp : p = s.self
  · subst hp
    have hpc : ((s.mark lock true).goto .user).pc s.self = .user := goto_self (s.mark lock true) _
    rw [hpc, pc]
    by_cases hl : l = lock
    · subst hl
      rw [if_pos ⟨rfl, rfl⟩]
      exact iff_of_true (.inl rfl) (.inr ⟨wait, rfl⟩)
    · rw [if_neg fun h => hl h.2]
      refine or_congr Iff.rfl (iff_of_false nofun ?_)
      rintro ⟨w, h⟩
      cases h
      exact hl rfl
  · have hpc : ((s.mark lock true).goto .user).pc p = s.pc p := goto_of_ne (s := s.mark lock true) hp _
    rw [hpc, if_neg fun h => hp h.1]

/-- The running thread gives up a lock whose acquisition has returned. -/
theorem owns_released {lock : Nat} {m : Machine}
    (before : ∀ wait, s.pc s.self ≠ .leaving wait lock) (p l : Nat) :
    Owns (s.released lock m) p l ↔ Owns s p l ∧ ¬ (p = s.self ∧ l = lock) := by
  have hholds : (s.released lock m).holds p l = (s.mark lock false).holds p l := rfl
  have hpc : (s.released lock m).pc = s.pc := rfl
  rw [Owns, Owns, hholds, hpc, mark_holds]
  by_cases h : p = s.self ∧ l = lock
  · obtain ⟨rfl, rfl⟩ := h
    rw [if_pos ⟨rfl, rfl⟩]
    refine iff_of_false ?_ fun h => h.2 ⟨rfl, rfl⟩
    rintro (h | ⟨w, h⟩)
    · cases h
    · exact before w h
  · rw [if_neg h]
    exact ⟨fun hp => ⟨hp, h⟩, fun hp => hp.1⟩

/-- The owner of a lock gives it up. -/
theorem Owned.release (inv : Owned s) {lock : Nat} (held : Owns s s.self lock)
    (owns : ∀ p l, Owns s' p l ↔ Owns s p l ∧ ¬ (p = s.self ∧ l = lock))
    (state : s'.lock_state = Function.update s.lock_state lock 0)
    (live : ∀ p, s.machine.Live p → s'.machine.Live p) : Owned s' where
  live p l h := live p (inv.live p l ((owns p l).1 h).1)
  unique p q l hp hq := inv.unique p q l ((owns p l).1 hp).1 ((owns q l).1 hq).1
  state l := by
    rw [state]
    by_cases hl : l = lock
    · subst hl
      rw [Function.update_self]
      refine iff_of_false (by decide) ?_
      rintro ⟨p, hp⟩
      obtain ⟨hp, hne⟩ := (owns p l).1 hp
      exact hne ⟨inv.unique p s.self l hp held, rfl⟩
    · rw [Function.update_of_ne hl, inv.state]
      refine exists_congr fun p => ?_
      rw [owns]
      exact ⟨fun h => ⟨h, fun h => hl h.2⟩, fun h => h.1⟩

/-- The running thread takes a free lock. -/
theorem Owned.take (inv : Owned s) {lock : Nat} (free : s.lock_state lock ≠ 1)
    (running : s.machine.Live s.self)
    (owns : ∀ p l, Owns s' p l ↔ Owns s p l ∨ p = s.self ∧ l = lock)
    (state : s'.lock_state = Function.update s.lock_state lock 1)
    (machine : s'.machine = s.machine) : Owned s' := by
  have hfree : ∀ p, ¬ Owns s p lock := fun p hp => free ((inv.state lock).2 ⟨p, hp⟩)
  refine ⟨fun p l h => ?_, fun p q l hp hq => ?_, fun l => ?_⟩
  · rw [machine]
    rcases (owns p l).1 h with h | ⟨rfl, -⟩
    · exact inv.live p l h
    · exact running
  · rcases (owns p l).1 hp with hp | ⟨hp, hpl⟩ <;> rcases (owns q l).1 hq with hq | ⟨hq, hql⟩
    · exact inv.unique p q l hp hq
    · exact absurd (hql ▸ hp) (hfree p)
    · exact absurd (hpl ▸ hq) (hfree q)
    · rw [hp, hq]
  · rw [state]
    by_cases hl : l = lock
    · subst hl
      rw [Function.update_self]
      exact iff_of_true rfl ⟨s.self, (owns _ _).2 (.inr ⟨rfl, rfl⟩)⟩
    · rw [Function.update_of_ne hl, inv.state]
      refine exists_congr fun p => ?_
      rw [owns]
      exact ⟨.inl, fun h => h.resolve_right fun h => hl h.2⟩

theorem owned_step (inv : Owned s) (queued : Queued s L) (step : Step s op s') : Owned s' := by
  have running : s.machine.Live s.self := queued.rep.live_of_mem (by decide) queued.rep.mem_running
  -- a machine call by which nobody who owns a lock terminates
  have hcall : ∀ {m call}, s.machine.perform call = .ok (some m) → Mild call →
      (∀ lock, Owns s s.self lock → call ≠ .exit THREAD_SELF ∧ call ≠ .ret) →
      ∀ p lock, Owns s p lock → s.machine.Live p → m.Live p := by
    intro m call perform allowed hself p lock howns hp
    obtain ⟨L', moves⟩ := perform_moves queued.rep queued.unmarked perform allowed
    rcases moves.live p hp with h | ⟨rfl, h⟩
    · exact h
    · obtain ⟨hexit, hret⟩ := hself lock howns
      exact absurd h (not_or.2 ⟨hexit, hret⟩)
  have hwakeup : ∀ {m q}, s.machine.perform (.wakeup (some q) 1) = .ok (some m) →
      ∀ p, s.machine.Live p → m.Live p := by
    intro m q perform p hp
    obtain ⟨L', moves⟩ := perform_moves queued.rep queued.unmarked perform (.inr rfl)
    exact (moves.live p hp).resolve_right fun h => h.2.elim nofun nofun
  cases step with
  | acquire user free =>
    exact inv.keep (owns_goto (fun _ _ h => by rw [user] at h; cases h) nofun) rfl fun _ _ _ h => h
  | block pc taken sleep =>
    exact inv.keep (fun _ _ => Iff.rfl) rfl (hcall sleep trivial fun _ _ => ⟨nofun, nofun⟩)
  | take pc free =>
    exact inv.take free running (owns_leaving fun _ _ h => by rw [pc] at h; cases h) rfl rfl
  | leave pc => exact inv.keep (owns_returned pc) rfl fun _ _ _ h => h
  | release user held wakeup =>
    exact inv.release (.inl held) (owns_released fun _ h => by rw [user] at h; cases h) rfl
      (hwakeup wakeup)
  | @wait m cv lock user held wakeup =>
    have hgoto : ∀ p l, Owns (s.goto (.waitSleep cv lock)) p l ↔ Owns s p l :=
      owns_goto (fun _ _ h => by rw [user] at h; cases h) nofun
    have before : ∀ w, (s.goto (.waitSleep cv lock)).pc (s.goto (.waitSleep cv lock)).self ≠
        .leaving w lock := fun w h => by
      rw [show (s.goto (.waitSleep cv lock)).self = s.self from rfl, goto_self] at h
      cases h
    refine inv.release (.inl held) (fun p l => ?_) rfl (hwakeup wakeup)
    rw [owns_released before, hgoto]
    rfl
  | @sleep m cv lock pc sleep =>
    have hgoto : ∀ p l, Owns (s.goto (.waitAcquire cv lock)) p l ↔ Owns s p l :=
      owns_goto (fun _ _ h => by rw [pc] at h; cases h) nofun
    exact inv.keep hgoto rfl (hcall sleep trivial fun _ _ => ⟨nofun, nofun⟩)
  | reacquire pc =>
    exact inv.keep (owns_goto (fun _ _ h => by rw [pc] at h; cases h) nofun) rfl fun _ _ _ h => h
  | signal user wakeup =>
    exact inv.keep (fun _ _ => Iff.rfl) rfl (hcall wakeup (.inl rfl) fun _ _ => ⟨nofun, nofun⟩)
  | broadcast user wakeup =>
    exact inv.keep (fun _ _ => Iff.rfl) rfl (hcall wakeup (.inr rfl) fun _ _ => ⟨nofun, nofun⟩)
  | call user plain perform =>
    refine inv.keep (fun _ _ => Iff.rfl) rfl (hcall perform (plain_mild plain) fun lock h => ?_)
    have held : s.holds s.self lock = true := h.resolve_right fun ⟨w, h⟩ => by
      rw [user] at h
      cases h
    refine ⟨?_, ?_⟩
    · rintro rfl
      rw [plain.2 lock] at held
      cases held
    · rintro rfl
      have h : s.holds s.self lock = false := plain lock
      rw [h] at held
      cases held
  | preempt enabled perform =>
    exact inv.keep (fun _ _ => Iff.rfl) rfl (hcall perform trivial fun _ _ => ⟨nofun, nofun⟩)

end Owners

/-- In some list that starts at the head of the wait queue. -/
def Asleep (m : Machine) (queue p : Nat) : Prop :=
  ∃ l, IsChain m.next (m.queue queue).wait_head l ∧ p ∈ l

theorem Asleep.mem {m : Machine} {queue p : Nat} (rep : Rep m L) (h : Asleep m queue p) :
    p ∈ L (.waiting queue) := by
  obtain ⟨l, hl, hp⟩ := h
  rwa [hl.unique (rep.linked.chain (.waiting queue))] at hp

/-- Alone in the wait queue. -/
theorem asleep_first {m : Machine} {queue p : Nat} (h : (m.queue queue).wait_head = some p)
    (hn : m.next p = none) : Asleep m queue p :=
  ⟨[p], IsChain.cons_iff.2 ⟨h, IsChain.nil_iff.2 hn⟩, List.mem_singleton_self p⟩

theorem start_inv (thread : Nat → Thread) :
    (∃ L, Queued (Sync.start thread) L) ∧ Owned (Sync.start thread) := by
  have hempty : ∀ q p, p ∉ (if Place.waiting q = .running then [0] else []) := fun q p hp => by
    rw [if_neg (by simp)] at hp
    cases hp
  have hnone : ∀ p lock, ¬ Owns (Sync.start thread) p lock := by
    rintro p lock (h | ⟨w, h⟩) <;> cases h
  refine ⟨⟨_, rep_threadInit thread, unmarked_threadInit thread, fun _ _ => rfl, fun lock p hp => ?_,
    fun cv p hp => ?_⟩, fun p lock h => ?_, fun p q lock h => ?_, fun lock => ?_⟩
  · exact absurd hp (hempty _ p)
  · exact absurd hp (hempty _ p)
  · exact absurd h (hnone p lock)
  · exact absurd h (hnone p lock)
  · exact iff_of_false (show ¬ (0 : Int) = 1 by decide) fun ⟨p, h⟩ => hnone p lock h

theorem locks_inv {ops : List Op} (run : locks.Run ops s) : (∃ L, Queued s L) ∧ Owned s := by
  refine run.invariant_state (I := fun s => (∃ L, Queued s L) ∧ Owned s) ?_ ?_
  · rintro s ⟨thread, rfl⟩
    exact start_inv thread
  · rintro s op s' ⟨⟨L, queued⟩, owned⟩ step
    obtain ⟨L', advances⟩ := step_advances queued step
    exact ⟨⟨L', advances.queued⟩, owned_step owned queued step⟩

/-- A thread inside the loop of `lock_acquire` leaves it only by finding the lock free. -/
theorem acquiring_step (step : Step s op s') {p lock : Nat} {wait : Option Nat}
    (h : s.pc p = .acquiring wait lock) : s'.pc p = .acquiring wait lock ∨
      p = s.self ∧ s.lock_state lock ≠ 1 ∧ s'.lock_state lock = 1 ∧ s'.pc p = .leaving wait lock := by
  by_cases hp : p = s.self
  · subst hp
    cases step with
    | block => exact .inl h
    | take pc free =>
      rw [h] at pc
      cases pc
      exact .inr ⟨rfl, free, Function.update_self .., goto_self s _⟩
    | preempt enabled => rw [h] at enabled; cases enabled
    | acquire user => rw [h] at user; cases user
    | leave pc => rw [h] at pc; cases pc
    | release user => rw [h] at user; cases user
    | wait user => rw [h] at user; cases user
    | sleep pc => rw [h] at pc; cases pc
    | reacquire pc => rw [h] at pc; cases pc
    | signal user => rw [h] at user; cases user
    | broadcast user => rw [h] at user; cases user
    | call user => rw [h] at user; cases user
  · refine .inl ?_
    rw [← h]
    cases step <;> first | rfl | exact goto_of_ne hp _

/-- At most one thread is between the return of `lock_acquire` and its release of the lock, the
state word is 1 exactly when there is one or one is about to return, and a thread that sleeps in
the lock's queue is still in the loop of `lock_acquire`. -/
theorem mutual_exclusion {ops : List Op} (run : locks.Run ops s) :
    (∀ lock p q, s.holds p lock = true → s.holds q lock = true → p = q) ∧
    (∀ lock, s.lock_state lock = 1 ↔ ∃ p, s.machine.Live p ∧ Owns s p lock) ∧
    (∀ lock p, Asleep s.machine (lockQueue lock) p → ∃ wait, s.pc p = .acquiring wait lock) ∧
    ∀ op s', locks.step s op s' → ∀ p wait lock, s.pc p = .acquiring wait lock →
      s'.pc p = .acquiring wait lock ∨ p = s.self ∧ s.lock_state lock ≠ 1 ∧
        s'.lock_state lock = 1 ∧ s'.pc p = .leaving wait lock := by
  obtain ⟨⟨L, queued⟩, owned⟩ := locks_inv run
  refine ⟨fun lock p q hp hq => owned.unique p q lock (.inl hp) (.inl hq), fun lock => ?_,
    fun lock p h => queued.lock_queue lock p (h.mem queued.rep),
    fun op s' step p wait lock h => acquiring_step step h⟩
  rw [owned.state]
  exact exists_congr fun p => ⟨fun h => ⟨owned.live p lock h, h⟩, fun h => h.2⟩

/-- A state of the locks on top of `initial`. -/
def Sync.initial : Sync := Sync.start fun _ => ⟨.stub, 0, .new, none, false, true, false⟩

theorem locks_next {ops : List Op} (run : locks.Run ops s) (step : Step s op s') :
    locks.Run (ops ++ [op]) s' := run.next step

/-- The initial thread holds a lock, is preempted, and a second thread sleeps in its queue. -/
theorem mutual_exclusion_blocked :
    ∃ s : Sync, Asleep s.machine (lockQueue 0) 1 ∧ ∃ wait, s.pc 1 = .acquiring wait 0 := by
  have created := locks_next (.start ⟨_, rfl⟩ : locks.Run [] Sync.initial)
    (.call rfl trivial (perform_after (by decide +kernel)) : Step _ (.call .create) _)
  have acquiring := locks_next created (.acquire rfl rfl : Step _ (.acquire 0) _)
  have taken := locks_next acquiring
    (.take (by decide +kernel : _ = Pc.acquiring none 0) (by decide +kernel))
  have held := locks_next taken (.leave (by decide +kernel : _ = Pc.leaving none 0))
  have preempted := locks_next held (.preempt (by decide +kernel) (perform_after (by decide +kernel)))
  have second := locks_next preempted (.acquire (by decide +kernel) (by decide +kernel) :
    Step _ (.acquire 0) _)
  have blocked := locks_next second (.block (by decide +kernel : _ = Pc.acquiring none 0)
    (by decide +kernel) (perform_after (by decide +kernel)))
  have waits := (mutual_exclusion blocked).2.2.1 0 1
  exact ⟨_, asleep_first (by decide +kernel) (by decide +kernel),
    waits (asleep_first (by decide +kernel) (by decide +kernel))⟩

end Ece344Lab.Threads
