import Ece344Lab.Library.LinkedQueues
import Ece344Lab.Threads.Thread

/-!
# Where the threads stand

`Rep m L` says that the machine `m` holds the queues `L`: the running thread, the ready list, the
wait queues and the list of threads to delete, each thread in one of them, and the identifiers in
use are those of the live threads. What a switch, an exit and a deletion do to the queues is stated
here; the calls of the library are in the modules on top.
-/
namespace Ece344Lab.Threads

open Library (Queues Linked IsChain Partitioned)

inductive Place where
  | running
  | ready
  | waiting (queue : Nat)
  | dying
  deriving DecidableEq

abbrev Places := Queues Place Nat

namespace Machine

/-- The first node of every place. -/
def head (m : Machine) : Place → Option Nat
  | .running => some m.RUNNING_THREAD
  | .ready => m.READY_HEAD
  | .waiting q => (m.queue q).wait_head
  | .dying => m.TO_DELETE_THREAD

/-- Created and not yet through `thread_exit(THREAD_SELF)`. -/
def Live (m : Machine) (p : Nat) : Prop := p < m.allocated ∧ (m.thread p).exited = false

/-- The machine with other `next` pointers. -/
def relink (m : Machine) (next : Nat → Option Nat) : Machine :=
  { m with thread := fun p => { m.thread p with next := next p } }

@[simp] theorem next_relink (m : Machine) (n : Nat → Option Nat) : (m.relink n).next = n := rfl

@[simp] theorem relink_next (m : Machine) : m.relink m.next = m := rfl

@[simp] theorem relink_relink (m : Machine) (n n' : Nat → Option Nat) :
    (m.relink n).relink n' = m.relink n' := rfl

theorem setNext_eq (m : Machine) (p : Nat) (v : Option Nat) :
    m.setNext p v = m.relink (Function.update m.next p v) := by
  have h : (fun x => Function.update m.thread p { m.thread p with next := v } x) =
      fun x => { m.thread x with next := Function.update m.next p v x } := by
    funext x
    by_cases hx : x = p
    · subst hx
      rw [Function.update_self, Function.update_self]
    · rw [Function.update_of_ne hx, Function.update_of_ne hx]
      rfl
  simp only [setNext, modify, relink]
  exact congrArg (fun t => { m with thread := t }) h

/-- The machine after `free` of the threads `l`. -/
def reap (m : Machine) (l : List Nat) : Machine :=
  { m with
    thread := fun p => if p ∈ l then { m.thread p with freed := true } else m.thread p
    TO_DELETE_THREAD := none }

/-- `RUNNING_THREAD = p`. -/
def switchTo (m : Machine) (p : Nat) : Machine := { m with RUNNING_THREAD := p }

end Machine

/-- The identifiers in use are those of the live threads. -/
structure Tids (m : Machine) : Prop where
  bound : ∀ p, m.Live p → 0 ≤ (m.thread p).tid ∧ (m.thread p).tid < THREAD_MAX_THREADS
  unique : ∀ p q, m.Live p → m.Live q → (m.thread p).tid = (m.thread q).tid → p = q
  in_use : ∀ t : Nat, t < THREAD_MAX_THREADS →
    (m.thread_id_array t = true ↔ ∃ p, m.Live p ∧ (m.thread p).tid = t)

/-- The machine holds the queues `L`. -/
structure Rep (m : Machine) (L : Places) : Prop where
  linked : Linked m.next m.head L
  running : L .running = [m.RUNNING_THREAD]
  live : ∀ p, m.Live p ↔ ∃ i, i ≠ .dying ∧ p ∈ L i
  held : ∀ i, ∀ p ∈ L i, p < m.allocated ∧ (m.thread p).freed = false
  suspended : ∀ i, ∀ p ∈ L i, i ≠ .running → i ≠ .dying → (m.thread p).state = .new
  size : ∀ q, ((L (.waiting q)).length : Int) ≤ (m.queue q).size
  tids : Tids m

/-- What no call changes: identifiers and marks of threads, and that a thread has exited. -/
structure Keeps (m m' : Machine) : Prop where
  allocated : m'.allocated = m.allocated
  tid : ∀ p, (m'.thread p).tid = (m.thread p).tid
  flag : ∀ p, (m'.thread p).flag = (m.thread p).flag
  exited : ∀ p, (m.thread p).exited = true → (m'.thread p).exited = true

theorem Keeps.trans {m₁ m₂ m₃ : Machine} (h : Keeps m₁ m₂) (h' : Keeps m₂ m₃) : Keeps m₁ m₃ where
  allocated := h'.allocated.trans h.allocated
  tid p := (h'.tid p).trans (h.tid p)
  flag p := (h'.flag p).trans (h.flag p)
  exited p hp := h'.exited p (h.exited p hp)

theorem Keeps.refl (m : Machine) : Keeps m m := ⟨rfl, fun _ => rfl, fun _ => rfl, fun _ h => h⟩

/-- The identifiers in use depend on the identifiers and on who is live. -/
theorem Tids.congr {m m' : Machine} (h : Tids m) (live : ∀ p, m'.Live p ↔ m.Live p)
    (tid : ∀ p, (m'.thread p).tid = (m.thread p).tid)
    (array : m'.thread_id_array = m.thread_id_array) : Tids m' where
  bound p hp := by rw [tid]; exact h.bound p ((live p).1 hp)
  unique p q hp hq heq := h.unique p q ((live p).1 hp) ((live q).1 hq) (by rwa [← tid, ← tid])
  in_use t ht := by simp only [array, live, tid, h.in_use t ht]

section Queues

variable {m : Machine} {L : Places} {i τ : Place} {p temp x : Nat} {rest : List Nat}

/-- The running thread `p` goes to the end of `τ` and `temp`, once ready, runs. -/
def switched (L : Places) (τ : Place) (rest : List Nat) (p temp : Nat) : Places :=
  let L₁ := Function.update (Function.update L .ready rest) .running []
  Function.update (Function.update L₁ τ (L₁ τ ++ [p])) .running [temp]

theorem switched_running : switched L τ rest p temp .running = [temp] := by
  simp only [switched, Function.update_self]

theorem switched_of_ne (hτ : τ ≠ .running) (hi : i ≠ .running) :
    switched L τ rest p temp i =
      Function.update L .ready rest i ++ if i = τ then [p] else [] := by
  simp only [switched]
  rw [Function.update_of_ne hi]
  by_cases hiτ : i = τ
  · subst hiτ
    rw [Function.update_self, Function.update_of_ne hi, if_pos rfl]
  · rw [Function.update_of_ne hiτ, Function.update_of_ne hi, if_neg hiτ, List.append_nil]

theorem mem_switched (hτ : τ ≠ .running) (hi : i ≠ .running) :
    x ∈ switched L τ rest p temp i ↔ x ∈ Function.update L .ready rest i ∨ i = τ ∧ x = p := by
  rw [switched_of_ne hτ hi, List.mem_append]
  by_cases hiτ : i = τ <;> simp [hiτ]

theorem Rep.length_le (rep : Rep m L) (i : Place) : (L i).length ≤ m.allocated := by
  have hsub : L i ⊆ List.range m.allocated := fun p hp => List.mem_range.2 (rep.held i p hp).1
  have h := (List.subperm_of_subset (rep.linked.partitioned.nodup i) hsub).length_le
  rwa [List.length_range] at h

theorem Rep.mem_running (rep : Rep m L) : m.RUNNING_THREAD ∈ L .running := by
  rw [rep.running]
  exact List.mem_singleton_self _

theorem Rep.ne_running (rep : Rep m L) (hx : x ∈ L i) (hi : i ≠ .running) :
    x ≠ m.RUNNING_THREAD := by
  rintro rfl
  exact hi (rep.linked.partitioned.unique i .running _ hx rep.mem_running)

theorem Rep.next_running (rep : Rep m L) : m.next m.RUNNING_THREAD = none := by
  have h := rep.linked.chain .running
  rw [rep.running] at h
  exact IsChain.nil_iff.1 (IsChain.cons_iff.1 h).2

theorem Rep.live_of_mem (rep : Rep m L) (hi : i ≠ .dying) (hp : p ∈ L i) : m.Live p :=
  (rep.live p).2 ⟨i, hi, hp⟩

/-- A ready list is empty when its head is. -/
theorem Rep.ready_nil (rep : Rep m L) : m.READY_HEAD = none ↔ L .ready = [] := by
  have h := (rep.linked.chain .ready).head_eq
  rw [show m.head .ready = m.READY_HEAD from rfl] at h
  rw [h, List.head?_eq_none_iff]

theorem Rep.ready_some (rep : Rep m L) (hp : p ∈ L .ready) : ∃ first, m.READY_HEAD = some first := by
  cases h : m.READY_HEAD with
  | none => rw [rep.ready_nil.1 h] at hp; cases hp
  | some first => exact ⟨first, rfl⟩

theorem Rep.ready_nodup (rep : Rep m L) (h : L .ready = temp :: rest) : temp ∉ rest :=
  (List.nodup_cons.1 (h ▸ rep.linked.partitioned.nodup .ready)).1

theorem Rep.head_ready (rep : Rep m L) (h : L .ready = temp :: rest) :
    m.READY_HEAD = some temp := by
  have heq := (rep.linked.chain .ready).head_eq
  rwa [h] at heq

theorem update_ready_subset (hrest : ∀ x ∈ rest, x ∈ L .ready)
    (hx : x ∈ Function.update L .ready rest i) : x ∈ L i := by
  by_cases hi : i = .ready
  · subst hi
    rw [Function.update_self] at hx
    exact hrest x hx
  · rwa [Function.update_of_ne hi] at hx

/-- A switch to another place than the dying keeps the set of placed threads. -/
theorem placed_switched (hrunning : L .running = [p]) (hready : ∀ x, x ∈ L .ready ↔ x = temp ∨ x ∈ rest)
    (hτ : τ ≠ .running) (hd : τ ≠ .dying) :
    (∃ i, i ≠ .dying ∧ x ∈ switched L τ rest p temp i) ↔ ∃ i, i ≠ .dying ∧ x ∈ L i := by
  constructor
  · rintro ⟨i, hid, hx⟩
    by_cases hi : i = .running
    · rw [hi, switched_running, List.mem_singleton] at hx
      exact ⟨.ready, by decide, (hready x).2 (.inl hx)⟩
    · rcases (mem_switched hτ hi).1 hx with hx | ⟨-, hx⟩
      · exact ⟨i, hid, update_ready_subset (fun x hx => (hready x).2 (.inr hx)) hx⟩
      · exact ⟨.running, by decide, by rw [hrunning, hx]; exact List.mem_singleton_self p⟩
  · rintro ⟨i, hid, hx⟩
    by_cases hi : i = .running
    · rw [hi, hrunning, List.mem_singleton] at hx
      exact ⟨τ, hd, (mem_switched hτ hτ).2 (.inr ⟨rfl, hx⟩)⟩
    by_cases hir : i = .ready
    · subst hir
      rcases (hready x).1 hx with hx | hx
      · exact ⟨.running, by decide, by rw [switched_running, hx]; exact List.mem_singleton_self _⟩
      · exact ⟨.ready, by decide, (mem_switched hτ hi).2 (.inl (by rwa [Function.update_self]))⟩
    · exact ⟨i, hid, (mem_switched hτ hi).2 (.inl (by rwa [Function.update_of_ne hir]))⟩

end Queues

section Lists

variable {m : Machine} {head : Place → Option Nat} {L : Places} {p : Nat} {ys : List Nat}

/-- The insertion at the end of a list appends the whole list that starts at the new node. -/
theorem insertLast_spec (h : Linked m.next head L) (i : Place) (bound : (L i).length ≤ m.allocated)
    (hys : IsChain m.next (some p) ys) (nodup : ys.Nodup) (new : ∀ k, ∀ a ∈ ys, a ∉ L k) :
    ∃ first n, m.insertLast (head i) p = .ok (first, m.relink n) ∧
      Linked n (Function.update head i first) (Function.update L i (L i ++ ys)) ∧
      ∀ x, x ∉ L i → n x = m.next x := by
  have hhead := (h.chain i).head_eq
  rcases List.eq_nil_or_concat (L i) with hnil | ⟨l, z, hl⟩
  · rw [hnil] at hhead
    refine ⟨some p, m.next, by rw [hhead]; rfl, ?_, fun x _ => rfl⟩
    rw [hnil, List.nil_append]
    exact h.put hnil hys nodup new
  · rw [List.concat_eq_append] at hl
    have hchain := h.chain i
    rw [hl] at hchain bound
    rw [List.length_append, List.length_singleton] at bound
    cases hfirst : head i with
    | none =>
      rw [hfirst] at hchain
      cases l <;> cases hchain
    | some first =>
      rw [hfirst] at hchain
      have hz : z ∈ L i := by rw [hl]; exact List.mem_append_right l (List.mem_singleton_self z)
      refine ⟨some first, _, ?_, hfirst ▸ (Function.update_eq_self i head).symm ▸
        h.append hl hys nodup new, fun x hx => ?_⟩
      · simp only [Machine.insertLast, hchain.lastNode_eq bound, Machine.setNext_eq]
      · exact Function.update_of_ne (fun heq : x = z => hx (heq ▸ hz)) _ _

section Insertions

variable {first : Option Nat} {m' : Machine}

theorem insertThreadToReady_of (h : m.insertLast m.READY_HEAD p = .ok (first, m')) :
    m.insertThreadToReady p = .ok { m' with READY_HEAD := first } := by
  rw [Machine.insertThreadToReady, h]

theorem insertThreadToDelete_of (h : m.insertLast m.TO_DELETE_THREAD p = .ok (first, m')) :
    m.insertThreadToDelete p = .ok { m' with TO_DELETE_THREAD := first } := by
  rw [Machine.insertThreadToDelete, h]

theorem insertThreadToWait_of {q : Nat} (h : m.insertLast (m.queue q).wait_head p = .ok (first, m')) :
    m.insertThreadToWait p q = .ok { m' with
      queue := Function.update m'.queue q ⟨first, (m.queue q).size + 1⟩ } := by
  rw [Machine.insertThreadToWait, h]

theorem deleteThreadsList_of {thread : Nat → Thread}
    (h : Machine.freeAll m.allocated m.thread m.TO_DELETE_THREAD = .ok thread) :
    m.deleteThreadsList = .ok { m with thread := thread, TO_DELETE_THREAD := none } := by
  rw [Machine.deleteThreadsList, h]

end Insertions

/-- `delete_threads_list` frees exactly the threads of its list. -/
theorem freeAll_eq {thread : Nat → Thread} {head : Option Nat} {l : List Nat}
    (h : IsChain (fun p => (thread p).next) head l) (nodup : l.Nodup)
    (held : ∀ p ∈ l, (thread p).freed = false) {fuel : Nat} (hf : l.length ≤ fuel) :
    Machine.freeAll fuel thread head =
      .ok fun p => if p ∈ l then { thread p with freed := true } else thread p := by
  induction l generalizing thread head fuel with
  | nil =>
    rw [IsChain.nil_iff.1 h]
    simp [Machine.freeAll]
  | cons q l ih =>
    obtain ⟨rfl, hchain⟩ := IsChain.cons_iff.1 h
    obtain ⟨fuel, rfl⟩ := Nat.exists_eq_succ_of_ne_zero (by
      rw [List.length_cons] at hf; omega : fuel ≠ 0)
    rw [List.nodup_cons] at nodup
    have hnext : (fun p => (Function.update thread q { thread q with freed := true } p).next) =
        fun p => (thread p).next := by
      funext x
      by_cases hx : x = q
      · subst hx
        rw [Function.update_self]
      · rw [Function.update_of_ne hx]
    have hheld : ∀ p ∈ l, (Function.update thread q { thread q with freed := true } p).freed =
        false := by
      intro p hp
      have hne : p ≠ q := fun heq => nodup.1 (heq ▸ hp)
      rw [Function.update_of_ne hne]
      exact held p (List.mem_cons_of_mem q hp)
    rw [Machine.freeAll, if_neg (by rw [held q List.mem_cons_self]; exact Bool.false_ne_true),
      ih (hnext.symm ▸ hchain) nodup.2 hheld (by rw [List.length_cons] at hf; omega)]
    refine congrArg Except.ok (funext fun x => ?_)
    by_cases hx : x = q
    · subst hx
      rw [if_neg nodup.1, if_pos List.mem_cons_self, Function.update_self]
    · simp only [Function.update_of_ne hx, List.mem_cons, hx, false_or]

end Lists

section Reap

variable {m : Machine} {L : Places}

/-- The deletion does not depend on which thread runs. -/
theorem Rep.deleteThreadsList_eq {p : Nat} (rep : Rep (m.switchTo p) L) :
    m.deleteThreadsList = .ok (m.reap (L .dying)) := by
  have h := freeAll_eq (rep.linked.chain .dying) (rep.linked.partitioned.nodup _)
    (fun p hp => (rep.held _ p hp).2) (rep.length_le _)
  exact deleteThreadsList_of h

theorem reap_thread {p : Nat} {l : List Nat} (hp : p ∉ l) :
    (m.reap l).thread p = m.thread p :=
  if_neg hp

/-- Only the fields `freed` change. -/
theorem reap_field {α : Type} (g : Thread → α) (h : ∀ t, g { t with freed := true } = g t)
    (l : List Nat) (p : Nat) : g ((m.reap l).thread p) = g (m.thread p) := by
  by_cases hp : p ∈ l
  · exact (congrArg g (if_pos hp)).trans (h _)
  · rw [reap_thread hp]

theorem keeps_reap (m : Machine) (l : List Nat) : Keeps m (m.reap l) :=
  ⟨rfl, reap_field _ (fun _ => rfl) l, reap_field _ (fun _ => rfl) l, fun p hp => by
    rwa [reap_field Thread.exited fun _ => rfl]⟩

theorem reap_next (l : List Nat) : (m.reap l).next = m.next :=
  funext (reap_field Thread.next (fun _ => rfl) l)

theorem reap_exited (l : List Nat) (p : Nat) :
    ((m.reap l).thread p).exited = (m.thread p).exited := reap_field _ (fun _ => rfl) l p

theorem Rep.reap (rep : Rep m L) : Rep (m.reap (L .dying)) (Function.update L .dying []) where
  linked := by
    have h := rep.linked.clear .dying
    have hhead : (m.reap (L .dying)).head = Function.update m.head .dying none := by
      funext i
      cases i <;> rfl
    rwa [reap_next, hhead]
  running := by rw [Function.update_of_ne (by decide)]; exact rep.running
  live p := by
    have h : (m.reap (L .dying)).Live p ↔ m.Live p := by
      simp only [Machine.Live, reap_exited]
      rfl
    rw [h, rep.live]
    refine exists_congr fun i => and_congr_right fun hi => ?_
    rw [Function.update_of_ne hi]
  held i p hp := by
    by_cases hi : i = .dying
    · subst hi
      rw [Function.update_self] at hp
      cases hp
    · rw [Function.update_of_ne hi] at hp
      rw [reap_thread (rep.linked.partitioned.notMem hp hi)]
      exact rep.held i p hp
  suspended i p hp hr hd := by
    rw [Function.update_of_ne hd] at hp
    rw [reap_thread (rep.linked.partitioned.notMem hp hd)]
    exact rep.suspended i p hp hr hd
  size q := by rw [Function.update_of_ne (by simp)]; exact rep.size q
  tids := rep.tids.congr (fun p => by simp only [Machine.Live, reap_exited]; rfl)
    (keeps_reap m _).tid rfl

end Reap

section Switch

variable {m M : Machine} {L : Places} {τ : Place} {temp : Nat} {rest : List Nat} {first : Option Nat}

/-- The pointers of a switch: `temp` is off the ready list, the running thread is appended to `τ`. -/
theorem linked_switched (rep : Rep m L) (h : Linked M.next (Function.update m.head .ready first)
      (Function.update L .ready rest)) (hready : ∀ x, x ∈ L .ready ↔ x = temp ∨ x ∈ rest)
    (htemp : temp ∉ rest) (hτ : τ ≠ .running) (hM : M.allocated = m.allocated)
    (hp : M.next m.RUNNING_THREAD = none) :
    ∃ last n, M.insertLast (Function.update m.head .ready first τ) m.RUNNING_THREAD =
        .ok (last, M.relink n) ∧ n temp = M.next temp ∧
      Linked (Function.update n temp none)
        (Function.update (Function.update (Function.update (Function.update m.head .ready first)
          .running none) τ last) .running (some temp))
        (switched L τ rest m.RUNNING_THREAD temp) := by
  have hrunning : m.RUNNING_THREAD ∈ Function.update L .ready rest .running := by
    rw [Function.update_of_ne (by decide)]
    exact rep.mem_running
  have hsub : ∀ k, ∀ x ∈ Function.update (Function.update L .ready rest) .running [] k, x ∈ L k := by
    intro k x hx
    by_cases hk : k = .running
    · subst hk
      rw [Function.update_self] at hx
      cases hx
    · rw [Function.update_of_ne hk] at hx
      exact update_ready_subset (fun x hx => (hready x).2 (.inr hx)) hx
  have hnew : ∀ k, ∀ a ∈ [m.RUNNING_THREAD],
      a ∉ Function.update (Function.update L .ready rest) .running [] k := by
    intro k a ha
    rw [List.mem_singleton.1 ha]
    exact h.notMem_clear hrunning k
  have hout : ∀ k, temp ∉ Function.update (Function.update L .ready rest) .running [] k := by
    intro k hk
    have heq := rep.linked.partitioned.unique k .ready temp (hsub k temp hk)
      ((hready temp).2 (.inl rfl))
    subst heq
    rw [Function.update_of_ne (by decide), Function.update_self] at hk
    exact htemp hk
  have hne : temp ≠ m.RUNNING_THREAD :=
    rep.ne_running ((hready temp).2 (.inl rfl)) (by decide)
  have hbound : (Function.update (Function.update L .ready rest) .running [] τ).length ≤
      M.allocated := by
    have hnodup := ((h.clear .running).partitioned.nodup τ)
    have hsubperm := List.subperm_of_subset hnodup fun x hx => hsub τ x hx
    rw [hM]
    exact Nat.le_trans hsubperm.length_le (rep.length_le τ)
  obtain ⟨last, n, heq, hlinked, hframe⟩ := insertLast_spec (h.clear .running) τ hbound
    (IsChain.cons_iff.2 ⟨rfl, IsChain.nil_iff.2 hp⟩) (List.nodup_singleton _) hnew
  rw [Function.update_of_ne hτ] at heq
  refine ⟨last, n, heq, hframe temp (hout τ), ?_⟩
  have hplaced : ∀ k, temp ∉ Function.update (Function.update (Function.update L .ready rest)
      .running []) τ (Function.update (Function.update L .ready rest) .running [] τ ++
        [m.RUNNING_THREAD]) k := by
    intro k hk
    by_cases hkτ : k = τ
    · subst hkτ
      rw [Function.update_self, List.mem_append, List.mem_singleton] at hk
      exact hk.elim (hout k) hne
    · rw [Function.update_of_ne hkτ] at hk
      exact hout k hk
  refine (hlinked.frame hplaced none).put ?_ (IsChain.cons_iff.2 ⟨rfl, ?_⟩)
    (List.nodup_singleton temp) fun k a ha => ?_
  · rw [Function.update_of_ne (Ne.symm hτ), Function.update_self]
  · rw [Function.update_self, IsChain.nil_iff]
  · rw [List.mem_singleton.1 ha]
    exact hplaced k

/-- The queues after a switch that terminates no thread. -/
theorem Rep.switch (rep : Rep m L) (hready : ∀ x, x ∈ L .ready ↔ x = temp ∨ x ∈ rest)
    (hτ : τ ≠ .running) (hd : τ ≠ .dying) (keeps : Keeps m M)
    (linked : Linked M.next M.head (switched L τ rest m.RUNNING_THREAD temp))
    (running : M.RUNNING_THREAD = temp)
    (exited : ∀ x, (M.thread x).exited = (m.thread x).exited)
    (freed : ∀ x, (M.thread x).freed = (m.thread x).freed)
    (new : (M.thread m.RUNNING_THREAD).state = .new)
    (state : ∀ x, x ≠ m.RUNNING_THREAD → (M.thread x).state = (m.thread x).state)
    (size : ∀ q, (M.queue q).size = (m.queue q).size + if Place.waiting q = τ then 1 else 0)
    (array : M.thread_id_array = m.thread_id_array) :
    Rep M (switched L τ rest m.RUNNING_THREAD temp) := by
  have hlive : ∀ x, M.Live x ↔ m.Live x := fun x => by
    simp only [Machine.Live, exited, keeps.allocated]
  refine ⟨linked, by rw [switched_running, running], fun x => ?_, fun i x hx => ?_,
    fun i x hx hir hid => ?_, fun q => ?_, rep.tids.congr hlive keeps.tid array⟩
  · rw [hlive, rep.live, placed_switched rep.running hready hτ hd]
  · rw [keeps.allocated, freed]
    by_cases hi : i = .running
    · rw [hi, switched_running, List.mem_singleton] at hx
      exact rep.held .ready x ((hready x).2 (.inl hx))
    · rcases (mem_switched hτ hi).1 hx with hx | ⟨-, rfl⟩
      · exact rep.held i x (update_ready_subset (fun x hx => (hready x).2 (.inr hx)) hx)
      · exact rep.held .running _ rep.mem_running
  · rcases (mem_switched hτ hir).1 hx with hx | ⟨-, rfl⟩
    · have hx := update_ready_subset (fun x hx => (hready x).2 (.inr hx)) hx
      rw [state x (rep.ne_running hx hir)]
      exact rep.suspended i x hx hir hid
    · exact new
  · rw [switched_of_ne hτ (by simp), Function.update_of_ne (by simp), size, List.length_append]
    have h := rep.size q
    by_cases hq : Place.waiting q = τ
    · rw [if_pos hq, if_pos hq, List.length_singleton]
      omega
    · rw [if_neg hq, if_neg hq, List.length_nil]
      omega

end Switch

section Modify

variable {m : Machine} {L : Places} {f : Thread → Thread} {p q : Nat}

theorem modify_self : (m.modify p f).thread p = f (m.thread p) := Function.update_self ..

theorem modify_of_ne (h : q ≠ p) : (m.modify p f).thread q = m.thread q :=
  Function.update_of_ne h ..

/-- A field that `f` leaves alone is the same in every thread. -/
theorem modify_field {α : Type} (g : Thread → α) (h : ∀ t, g (f t) = g t) (q : Nat) :
    g ((m.modify p f).thread q) = g (m.thread q) := by
  by_cases hq : q = p
  · subst hq
    rw [modify_self, h]
  · rw [modify_of_ne hq]

theorem next_modify (h : ∀ t, (f t).next = t.next) : (m.modify p f).next = m.next :=
  funext (modify_field Thread.next h)

/-- A thread may change in any field that says nothing about its place. -/
theorem Rep.modify (rep : Rep m L) (next : ∀ t, (f t).next = t.next)
    (exited : ∀ t, (f t).exited = t.exited) (freed : ∀ t, (f t).freed = t.freed)
    (tid : ∀ t, (f t).tid = t.tid)
    (state : p = m.RUNNING_THREAD ∨ ∀ t, (f t).state = t.state) : Rep (m.modify p f) L where
  linked := by rw [next_modify next]; exact rep.linked
  running := rep.running
  live x := by
    simp only [Machine.Live, modify_field Thread.exited exited]
    exact rep.live x
  held i x hx := by
    rw [modify_field Thread.freed freed]
    exact rep.held i x hx
  suspended i x hx hr hd := by
    rcases state with rfl | state
    · rw [modify_of_ne (rep.ne_running hx hr)]
      exact rep.suspended i x hx hr hd
    · rw [modify_field Thread.state state]
      exact rep.suspended i x hx hr hd
  size := rep.size
  tids := rep.tids.congr (fun x => by
    simp only [Machine.Live, modify_field Thread.exited exited]
    rfl) (modify_field Thread.tid tid) rfl

theorem keeps_modify (exited : ∀ t, (f t).exited = t.exited) (tid : ∀ t, (f t).tid = t.tid)
    (flag : ∀ t, (f t).flag = t.flag) : Keeps m (m.modify p f) where
  allocated := rfl
  tid := modify_field Thread.tid tid
  flag := modify_field Thread.flag flag
  exited x hx := by rwa [modify_field Thread.exited exited]

end Modify

section Exit

variable {m : Machine} {L : Places} {temp : Nat} {rest : List Nat}

/-- The identifier of a thread that exits becomes free. -/
theorem Tids.retire {M : Machine} {p : Nat} (h : Tids m) (hp : m.Live p)
    (live : ∀ x, M.Live x ↔ m.Live x ∧ x ≠ p) (tid : ∀ x, (M.thread x).tid = (m.thread x).tid)
    (array : M.thread_id_array = Function.update m.thread_id_array (m.thread p).tid.toNat false) :
    Tids M where
  bound x hx := by rw [tid]; exact h.bound x ((live x).1 hx).1
  unique x y hx hy heq := by
    rw [tid, tid] at heq
    exact h.unique x y ((live x).1 hx).1 ((live y).1 hy).1 heq
  in_use t ht := by
    have hb := h.bound p hp
    rw [array]
    by_cases heq : t = (m.thread p).tid.toNat
    · rw [heq, Function.update_self]
      refine iff_of_false Bool.false_ne_true ?_
      rintro ⟨x, hx, hxt⟩
      obtain ⟨hx, hne⟩ := (live x).1 hx
      rw [tid] at hxt
      exact hne (h.unique x p hx hp (hxt.trans (Int.toNat_of_nonneg hb.1)))
    · rw [Function.update_of_ne heq, h.in_use t ht]
      refine exists_congr fun x => ?_
      rw [live, tid]
      refine ⟨fun ⟨hx, hxt⟩ => ⟨⟨hx, ?_⟩, hxt⟩, fun ⟨hx, hxt⟩ => ⟨hx.1, hxt⟩⟩
      rintro rfl
      exact heq (by rw [hxt]; rfl)

/-- The thread that leaves for the list of threads to delete is in no other place. -/
theorem placed_retired {x : Nat} (rep : Rep m L) (hready : L .ready = temp :: rest) :
    (∃ i, i ≠ .dying ∧ x ∈ switched L .dying rest m.RUNNING_THREAD temp i) ↔
      (∃ i, i ≠ .dying ∧ x ∈ L i) ∧ x ≠ m.RUNNING_THREAD := by
  have hrest : ∀ y ∈ rest, y ∈ L .ready := fun y hy => by
    rw [hready]
    exact List.mem_cons_of_mem _ hy
  have htemp : temp ∈ L .ready := by
    rw [hready]
    exact List.mem_cons_self
  constructor
  · rintro ⟨i, hid, hx⟩
    by_cases hi : i = .running
    · rw [hi, switched_running, List.mem_singleton] at hx
      subst hx
      exact ⟨⟨.ready, by decide, htemp⟩, rep.ne_running htemp (by decide)⟩
    · rcases (mem_switched (by decide) hi).1 hx with hx | ⟨hi', -⟩
      · exact ⟨⟨i, hid, update_ready_subset hrest hx⟩,
          rep.ne_running (update_ready_subset hrest hx) hi⟩
      · exact absurd hi' hid
  · rintro ⟨⟨i, hid, hx⟩, hne⟩
    by_cases hi : i = .running
    · rw [hi, rep.running, List.mem_singleton] at hx
      exact absurd hx hne
    by_cases hir : i = .ready
    · rw [hir, hready, List.mem_cons] at hx
      rcases hx with rfl | hx
      · exact ⟨.running, by decide, by rw [switched_running]; exact List.mem_singleton_self _⟩
      · exact ⟨.ready, by decide,
          (mem_switched (by decide) (by decide)).2 (.inl (by rwa [Function.update_self]))⟩
    · exact ⟨i, hid, (mem_switched (by decide) hi).2 (.inl (by rwa [Function.update_of_ne hir]))⟩

/-- The machine after `thread_exit(THREAD_SELF)`, with the pointers `n`. -/
def exitedTo (m : Machine) (temp : Nat) (n : Nat → Option Nat) (last : Option Nat) : Machine :=
  ({ (m.leave temp).relink n with TO_DELETE_THREAD := last } : Machine).run temp

variable {n : Nat → Option Nat} {last : Option Nat} {x : Nat}

theorem leave_self : (m.leave temp).thread m.RUNNING_THREAD =
    { m.thread m.RUNNING_THREAD with next := none, exited := true } := Function.update_self ..

theorem leave_of_ne (hx : x ≠ m.RUNNING_THREAD) : (m.leave temp).thread x = m.thread x :=
  Function.update_of_ne hx ..

theorem exitedTo_temp (hne : temp ≠ m.RUNNING_THREAD) : (exitedTo m temp n last).thread temp =
    { m.thread temp with next := none, state := .recover } := by
  refine (Function.update_self ..).trans ?_
  simp only [Machine.relink, leave_of_ne hne]

theorem exitedTo_of_ne (hx : x ≠ temp) (hr : x ≠ m.RUNNING_THREAD) :
    (exitedTo m temp n last).thread x = { m.thread x with next := n x } := by
  refine (Function.update_of_ne hx ..).trans ?_
  simp only [Machine.relink, leave_of_ne hr]

theorem exitedTo_self (hne : temp ≠ m.RUNNING_THREAD) :
    (exitedTo m temp n last).thread m.RUNNING_THREAD =
      { m.thread m.RUNNING_THREAD with next := n m.RUNNING_THREAD, exited := true } := by
  refine (Function.update_of_ne (Ne.symm hne) ..).trans ?_
  simp only [Machine.relink, leave_self]

/-- A field that the exit does not write. -/
theorem exitedTo_field {α : Type} (g : Thread → α) (hn : ∀ t v, g { t with next := v } = g t)
    (he : ∀ t, g { t with exited := true } = g t) (hs : ∀ t, g { t with state := .recover } = g t)
    (hne : temp ≠ m.RUNNING_THREAD) (x : Nat) :
    g ((exitedTo m temp n last).thread x) = g (m.thread x) := by
  by_cases hx : x = temp
  · subst hx
    rw [exitedTo_temp hne]
    exact (hn { m.thread x with state := .recover } none).trans (hs _)
  by_cases hr : x = m.RUNNING_THREAD
  · subst hr
    rw [exitedTo_self hne]
    exact (hn { m.thread m.RUNNING_THREAD with exited := true } _).trans (he _)
  · rw [exitedTo_of_ne hx hr]
    exact hn _ _

theorem exitedTo_next (hne : temp ≠ m.RUNNING_THREAD) :
    (exitedTo m temp n last).next = Function.update n temp none := by
  funext x
  by_cases hx : x = temp
  · subst hx
    rw [Function.update_self, Machine.next, exitedTo_temp hne]
  · rw [Function.update_of_ne hx, Machine.next]
    by_cases hr : x = m.RUNNING_THREAD
    · subst hr
      rw [exitedTo_self hne]
    · rw [exitedTo_of_ne hx hr]

theorem exitedTo_exited (hne : temp ≠ m.RUNNING_THREAD) :
    ((exitedTo m temp n last).thread x).exited =
      if x = m.RUNNING_THREAD then true else (m.thread x).exited := by
  by_cases hr : x = m.RUNNING_THREAD
  · subst hr
    rw [exitedTo_self hne, if_pos rfl]
  · rw [if_neg hr]
    by_cases hx : x = temp
    · subst hx
      rw [exitedTo_temp hne]
    · rw [exitedTo_of_ne hx hr]

theorem keeps_exitedTo (hne : temp ≠ m.RUNNING_THREAD) : Keeps m (exitedTo m temp n last) where
  allocated := rfl
  tid := exitedTo_field Thread.tid (fun _ _ => rfl) (fun _ => rfl) (fun _ => rfl) hne
  flag := exitedTo_field Thread.flag (fun _ _ => rfl) (fun _ => rfl) (fun _ => rfl) hne
  exited x hx := by
    rw [exitedTo_exited hne, hx, ite_self]

/-- The queues after the running thread has exited. -/
theorem Rep.exit (rep : Rep m L) (hready : L .ready = temp :: rest)
    (linked : Linked (Function.update n temp none) (Function.update (Function.update
      (Function.update (Function.update m.head .ready (m.next temp)) .running none) .dying last)
      .running (some temp)) (switched L .dying rest m.RUNNING_THREAD temp)) :
    Rep (exitedTo m temp n last) (switched L .dying rest m.RUNNING_THREAD temp) := by
  have htemp : temp ∈ L .ready := by rw [hready]; exact List.mem_cons_self
  have hrest : ∀ y ∈ rest, y ∈ L .ready := fun y hy => by
    rw [hready]
    exact List.mem_cons_of_mem _ hy
  have hne : temp ≠ m.RUNNING_THREAD := rep.ne_running htemp (by decide)
  have hp := rep.live_of_mem (by decide) rep.mem_running
  have hlive : ∀ x, (exitedTo m temp n last).Live x ↔ m.Live x ∧ x ≠ m.RUNNING_THREAD := by
    intro x
    simp only [Machine.Live, exitedTo_exited hne]
    by_cases hr : x = m.RUNNING_THREAD
    · simp [hr]
    · rw [if_neg hr]
      exact ⟨fun h => ⟨h, hr⟩, fun h => h.1⟩
  have hfreed : ∀ x, ((exitedTo m temp n last).thread x).freed = (m.thread x).freed :=
    exitedTo_field Thread.freed (fun _ _ => rfl) (fun _ => rfl) (fun _ => rfl) hne
  refine ⟨?_, switched_running, fun x => ?_, fun i x hx => ?_, fun i x hx hir hid => ?_,
    fun q => ?_, rep.tids.retire hp hlive (keeps_exitedTo hne).tid rfl⟩
  · rw [exitedTo_next hne]
    have hhead : (exitedTo m temp n last).head = Function.update (Function.update
        (Function.update (Function.update m.head .ready (m.next temp)) .running none) .dying last)
        .running (some temp) := by
      funext i
      cases i <;> rfl
    rw [hhead]
    exact linked
  · rw [hlive, rep.live, placed_retired rep hready]
  · rw [hfreed]
    by_cases hi : i = .running
    · rw [hi, switched_running, List.mem_singleton] at hx
      subst hx
      exact rep.held .ready x htemp
    · rcases (mem_switched (by decide) hi).1 hx with hx | ⟨-, rfl⟩
      · exact rep.held i x (update_ready_subset hrest hx)
      · exact rep.held .running _ rep.mem_running
  · rcases (mem_switched (by decide) hir).1 hx with hxr | ⟨hi, -⟩
    · have hx' := update_ready_subset hrest hxr
      have hxt : x ≠ temp := by
        rintro rfl
        have heq := rep.linked.partitioned.unique i .ready x hx' htemp
        subst heq
        rw [Function.update_self] at hxr
        exact rep.ready_nodup hready hxr
      rw [exitedTo_of_ne hxt (rep.ne_running hx' hir)]
      exact rep.suspended i x hx' hir hid
    · exact absurd hi hid
  · rw [switched_of_ne (by decide) (by simp), Function.update_of_ne (by simp), if_neg (by simp),
      List.append_nil]
    exact rep.size q

/-- `thread_exit(THREAD_SELF)` with another thread ready: the running thread goes to the list of
threads to delete, the first ready thread runs. -/
theorem exitSelf_spec (rep : Rep m L) (hready : L .ready = temp :: rest) :
    ∃ m', m.exitSelf = .ok (some m') ∧ Rep m' (switched L .dying rest m.RUNNING_THREAD temp) ∧
      Keeps m m' ∧ m'.RUNNING_THREAD = temp ∧ (m'.thread temp).state = .recover ∧
      (m'.thread m.RUNNING_THREAD).exited = true ∧
      (∀ x, (m'.thread x).thread_context = (m.thread x).thread_context) ∧
      (∀ x, (m'.thread x).freed = (m.thread x).freed) ∧
      m'.thread_id_array =
        Function.update m.thread_id_array (m.thread m.RUNNING_THREAD).tid.toNat false := by
  have htemp : temp ∈ L .ready := by rw [hready]; exact List.mem_cons_self
  have hne : temp ≠ m.RUNNING_THREAD := rep.ne_running htemp (by decide)
  have hnext : (m.leave temp).next = m.next := by
    funext x
    rw [Machine.next, Machine.next]
    by_cases hx : x = m.RUNNING_THREAD
    · subst hx
      rw [leave_self]
      exact rep.next_running.symm
    · rw [leave_of_ne hx]
  have hpop := hnext.symm ▸ rep.linked.pop hready
  obtain ⟨last, n, heq, hn, hlinked⟩ := linked_switched (M := m.leave temp) (τ := .dying) rep hpop
    (fun x => by rw [hready, List.mem_cons]) (rep.ready_nodup hready) (by decide) rfl
    (hnext.symm ▸ rep.next_running)
  rw [hnext] at hlinked
  have hdelete : (m.leave temp).insertThreadToDelete m.RUNNING_THREAD =
      .ok { (m.leave temp).relink n with TO_DELETE_THREAD := last } :=
    insertThreadToDelete_of heq
  refine ⟨exitedTo m temp n last, ?_, rep.exit hready hlinked, keeps_exitedTo hne, rfl, ?_, ?_,
    exitedTo_field Thread.thread_context (fun _ _ => rfl) (fun _ => rfl) (fun _ => rfl) hne,
    exitedTo_field Thread.freed (fun _ _ => rfl) (fun _ => rfl) (fun _ => rfl) hne, rfl⟩
  · simp only [Machine.exitSelf, rep.head_ready hready, hdelete]
    rfl
  · rw [exitedTo_temp hne]
  · rw [exitedTo_self hne]

end Exit

end Ece344Lab.Threads
