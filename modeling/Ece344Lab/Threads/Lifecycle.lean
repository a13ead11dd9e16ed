import Ece344Lab.Threads.Scheduler

/-!
# Creation and termination of threads

`thread_create` takes the least identifier that is not in use and enters the ready list;
`thread_exit` terminates the running thread or marks a ready one.
-/
namespace Ece344Lab.Threads

open Library (Queues Linked IsChain Partitioned)

variable {m : Machine} {L : Places}

section Create

variable {new_id : Nat}

theorem assignThreadId_some (h : m.assignThreadId = some new_id) :
    new_id < THREAD_MAX_THREADS ∧ m.thread_id_array new_id = false ∧
      ∀ t < new_id, m.thread_id_array t = true := by
  rw [Machine.assignThreadId, List.find?_range_eq_some] at h
  obtain ⟨hfree, hmem, hleast⟩ := h
  exact ⟨List.mem_range.1 hmem, by simpa using hfree, fun t ht => by simpa using hleast t ht⟩

theorem assignThreadId_none :
    m.assignThreadId = none ↔ ∀ t < THREAD_MAX_THREADS, m.thread_id_array t = true := by
  rw [Machine.assignThreadId, List.find?_range_eq_none]
  simp

/-- The machine with the block of a new thread. -/
def withNew (m : Machine) (new_id : Nat) : Machine :=
  { m with
    thread := Function.update m.thread m.allocated ⟨.stub, new_id, .new, none, false, false, false⟩
    allocated := m.allocated + 1
    thread_id_array := Function.update m.thread_id_array new_id true }

theorem threadCreate_of {M : Machine} (hid : m.assignThreadId = some new_id)
    (h : (withNew m new_id).insertThreadToReady m.allocated = .ok M) :
    m.threadCreate = .ok (new_id, M) := by
  unfold Machine.threadCreate
  split
  · rename_i hnone
    rw [hid] at hnone
    cases hnone
  · rename_i id hsome
    rw [hid] at hsome
    cases hsome
    unfold withNew at h
    dsimp only
    rw [h]

theorem threadCreate_none (hid : m.assignThreadId = none) :
    m.threadCreate = .ok (THREAD_NOMORE, m) := by
  unfold Machine.threadCreate
  split
  · rfl
  · rename_i id h
    rw [hid] at h
    cases h

theorem withNew_self : (withNew m new_id).thread m.allocated =
    ⟨.stub, new_id, .new, none, false, false, false⟩ := Function.update_self ..

theorem withNew_of_ne {x : Nat} (hx : x ≠ m.allocated) :
    (withNew m new_id).thread x = m.thread x := Function.update_of_ne hx ..

theorem live_withNew {x : Nat} : (withNew m new_id).Live x ↔ m.Live x ∨ x = m.allocated := by
  by_cases hx : x = m.allocated
  · subst hx
    refine iff_of_true ⟨Nat.lt_succ_self _, ?_⟩ (.inr rfl)
    rw [withNew_self]
  · have hlt : x < (withNew m new_id).allocated ↔ x < m.allocated := by
      rw [show (withNew m new_id).allocated = m.allocated + 1 from rfl]
      omega
    rw [Machine.Live, withNew_of_ne hx, hlt, Machine.Live]
    simp [hx]

/-- The identifier of a new thread comes into use. -/
theorem Tids.create (h : Tids m) (hid : new_id < THREAD_MAX_THREADS)
    (hfree : m.thread_id_array new_id = false) : Tids (withNew m new_id) := by
  have hold : ∀ x, m.Live x → (withNew m new_id).thread x = m.thread x := fun x hx =>
    withNew_of_ne (Nat.ne_of_lt hx.1)
  have hunused : ∀ x, m.Live x → (m.thread x).tid ≠ new_id := by
    intro x hx heq
    rw [(h.in_use new_id hid).2 ⟨x, hx, heq⟩] at hfree
    cases hfree
  refine ⟨fun x hx => ?_, fun x y hx hy heq => ?_, fun t ht => ?_⟩
  · rcases live_withNew.1 hx with hx | rfl
    · rw [hold x hx]
      exact h.bound x hx
    · rw [withNew_self]
      exact ⟨Int.natCast_nonneg _, Int.ofNat_lt.2 hid⟩
  · rcases live_withNew.1 hx with hx | rfl <;> rcases live_withNew.1 hy with hy | rfl
    · rw [hold x hx, hold y hy] at heq
      exact h.unique x y hx hy heq
    · rw [hold x hx, withNew_self] at heq
      exact absurd heq (hunused x hx)
    · rw [hold y hy, withNew_self] at heq
      exact absurd heq.symm (hunused y hy)
    · rfl
  · rw [show (withNew m new_id).thread_id_array =
      Function.update m.thread_id_array new_id true from rfl]
    by_cases heq : t = new_id
    · subst heq
      rw [Function.update_self]
      refine iff_of_true rfl ⟨m.allocated, live_withNew.2 (.inr rfl), ?_⟩
      rw [withNew_self]
    · rw [Function.update_of_ne heq, h.in_use t ht]
      constructor
      · rintro ⟨x, hx, hxt⟩
        exact ⟨x, live_withNew.2 (.inl hx), by rw [hold x hx]; exact hxt⟩
      · rintro ⟨x, hx, hxt⟩
        rcases live_withNew.1 hx with hx | rfl
        · exact ⟨x, hx, by rw [← hold x hx]; exact hxt⟩
        · rw [withNew_self] at hxt
          exact absurd (Int.ofNat.inj hxt).symm heq

/-- The queues with a new thread at the end of the ready list. -/
def entered (L : Places) (p : Nat) : Places := Function.update L .ready (L .ready ++ [p])

theorem mem_entered {p x : Nat} {i : Place} :
    x ∈ entered L p i ↔ x ∈ L i ∨ i = .ready ∧ x = p := by
  rw [entered]
  by_cases hi : i = .ready
  · subst hi
    simp
  · rw [Function.update_of_ne hi]
    simp [hi]

theorem threadCreate_spec (rep : Rep m L) (hid : m.assignThreadId = some new_id) :
    ∃ m', m.threadCreate = .ok (new_id, m') ∧ Rep m' (entered L m.allocated) ∧
      m'.allocated = m.allocated + 1 ∧ (m'.thread m.allocated).flag = false ∧
      (∀ p < m.allocated, (m'.thread p).flag = (m.thread p).flag) ∧
      ∀ p < m.allocated, (m'.thread p).exited = (m.thread p).exited := by
  obtain ⟨hlt, hfree, -⟩ := assignThreadId_some hid
  have hout : ∀ i, m.allocated ∉ L i := fun i hi => Nat.lt_irrefl _ (rep.held i _ hi).1
  have hnext : (withNew m new_id).next = Function.update m.next m.allocated none := by
    funext x
    by_cases hx : x = m.allocated
    · subst hx
      rw [Function.update_self, Machine.next, withNew_self]
    · rw [Function.update_of_ne hx, Machine.next, withNew_of_ne hx]
      rfl
  have hlinked : Linked (withNew m new_id).next m.head L := by
    rw [hnext]
    exact rep.linked.frame hout none
  obtain ⟨last, n, heq, hlinked, -⟩ := insertLast_spec hlinked .ready
    (Nat.le_succ_of_le (rep.length_le .ready))
    (IsChain.cons_iff.2 ⟨rfl, IsChain.nil_iff.2 (by rw [hnext, Function.update_self])⟩)
    (List.nodup_singleton m.allocated) fun i x hx => by rw [List.mem_singleton.1 hx]; exact hout i
  have hinsert : (withNew m new_id).insertThreadToReady m.allocated =
      .ok { (withNew m new_id).relink n with READY_HEAD := last } :=
    insertThreadToReady_of heq
  refine ⟨{ (withNew m new_id).relink n with READY_HEAD := last }, ?_,
    ⟨?_, ?_, fun x => ?_, fun i x hx => ?_, fun i x hx hir hid' => ?_, fun q => ?_, ?_⟩,
    rfl, ?_, fun p hp => ?_, fun p hp => ?_⟩
  · exact threadCreate_of hid hinsert
  · have hhead : Machine.head { (withNew m new_id).relink n with READY_HEAD := last } =
        Function.update m.head .ready last := by
      funext i
      cases i <;> rfl
    rw [hhead]
    exact hlinked
  · rw [entered, Function.update_of_ne (by decide)]
    exact rep.running
  · have h : Machine.Live { (withNew m new_id).relink n with READY_HEAD := last } x ↔
        (withNew m new_id).Live x := Iff.rfl
    rw [h, live_withNew, rep.live]
    simp only [mem_entered]
    constructor
    · rintro (⟨i, hi, hx⟩ | rfl)
      · exact ⟨i, hi, .inl hx⟩
      · exact ⟨.ready, by decide, .inr ⟨rfl, rfl⟩⟩
    · rintro ⟨i, hi, hx | ⟨-, rfl⟩⟩
      · exact .inl ⟨i, hi, hx⟩
      · exact .inr rfl
  · have h : ∀ x, (Machine.thread { (withNew m new_id).relink n with READY_HEAD := last } x).freed =
        ((withNew m new_id).thread x).freed := fun _ => rfl
    rw [h]
    rcases mem_entered.1 hx with hx | ⟨-, rfl⟩
    · obtain ⟨hlt, hfreed⟩ := rep.held i x hx
      exact ⟨Nat.lt_succ_of_lt hlt, by rw [withNew_of_ne (Nat.ne_of_lt hlt)]; exact hfreed⟩
    · exact ⟨Nat.lt_succ_self _, by rw [withNew_self]⟩
  · have h : ∀ x, (Machine.thread { (withNew m new_id).relink n with READY_HEAD := last } x).state =
        ((withNew m new_id).thread x).state := fun _ => rfl
    rw [h]
    rcases mem_entered.1 hx with hx | ⟨-, rfl⟩
    · rw [withNew_of_ne (Nat.ne_of_lt (rep.held i x hx).1)]
      exact rep.suspended i x hx hir hid'
    · rw [withNew_self]
  · rw [entered, Function.update_of_ne (by simp)]
    exact rep.size q
  · exact (rep.tids.create hlt hfree).congr (fun _ => Iff.rfl) (fun _ => rfl) rfl
  · have h : ((withNew m new_id).thread m.allocated).flag = false := by rw [withNew_self]
    exact h
  · have h : ((withNew m new_id).thread p).flag = (m.thread p).flag := by
      rw [withNew_of_ne (Nat.ne_of_lt hp)]
    exact h
  · have h : ((withNew m new_id).thread p).exited = (m.thread p).exited := by
      rw [withNew_of_ne (Nat.ne_of_lt hp)]
    exact h

end Create

section Exit

variable {temp : Nat} {rest : List Nat}

/-- The running thread terminates and the next ready thread is resumed. -/
theorem exit_resume (rep : Rep m L) (hready : L .ready = temp :: rest) :
    ∃ m₁, m.exitSelf = .ok (some m₁) ∧
      Switches m L .dying rest temp (Machine.resumeWith (Machine.afterGetcontext m₁.fuel) m₁) := by
  obtain ⟨m₁, heq, rep₁, keeps₁, hrun, hstate, -, hcontext, hfreed, harray⟩ :=
    exitSelf_spec rep hready
  have hfuel : (switched L .dying rest m.RUNNING_THREAD temp .ready).length < m₁.fuel :=
    Nat.lt_succ_of_le (Nat.le_succ_of_le (rep₁.length_le .ready))
  have resumes := resume_spec rep₁ (hrun.symm ▸ hstate) hfuel
  have hstale : m₁.Stale .running temp ↔ m.Stale .dying temp := by
    have hdying : switched L .dying rest m.RUNNING_THREAD temp .dying =
        L .dying ++ [m.RUNNING_THREAD] := by
      rw [switched_of_ne (by decide) (by decide), if_pos rfl, Function.update_of_ne (by decide)]
    have hused : ∀ t, m₁.thread_id_array t = true ↔
        m.thread_id_array t = true ∧ t ≠ (m.thread m.RUNNING_THREAD).tid.toNat := by
      intro t
      rw [harray]
      by_cases ht : t = (m.thread m.RUNNING_THREAD).tid.toNat
      · simp [ht]
      · rw [Function.update_of_ne ht, and_iff_left ht]
    simp only [Machine.Stale, hcontext, hfreed, hused, rep₁.toDelete_eq, rep.toDelete_eq, hdying,
      reduceCtorEq, false_imp_iff, false_and, or_false, and_true, true_imp_iff, true_and,
      List.mem_append, List.mem_singleton]
  refine ⟨m₁, heq, resumes.ends.imp_right ?_, fun h => ?_⟩
  · rintro ⟨v, m', L', hres, rep', keeps', hsame⟩
    exact ⟨v, m', L', hres, rep', keeps₁.trans keeps', fun h => hsame (by rw [hrun, keeps₁.flag, h])⟩
  · rw [resumes.faults (by rw [hrun, keeps₁.flag, h]), hrun, hstale]

theorem exitSelf_nil (rep : Rep m L) (hready : L .ready = []) : m.exitSelf = .ok none := by
  rw [Machine.exitSelf, rep.ready_nil.2 hready]

/-- Marking a thread moves none. -/
theorem Rep.mark (rep : Rep m L) (p : Nat) :
    Rep (m.modify p fun t => { t with flag := true }) L :=
  rep.modify (fun _ => rfl) (fun _ => rfl) (fun _ => rfl) (fun _ => rfl) (.inr fun _ => rfl)

theorem threadExit_any_cons (rep : Rep m L) (hready : L .ready = temp :: rest) :
    m.threadExit THREAD_ANY =
      .ok (some (m.thread temp).tid, m.modify temp fun t => { t with flag := true }) := by
  rw [Machine.threadExit, if_neg (by decide), if_pos rfl, rep.head_ready hready]

theorem threadExit_any_nil (rep : Rep m L) (hready : L .ready = []) :
    m.threadExit THREAD_ANY = .ok (some THREAD_NONE, m) := by
  rw [Machine.threadExit, if_neg (by decide), if_pos rfl, rep.ready_nil.2 hready]

theorem threadExit_tid (rep : Rep m L) {p : Nat} (hp : p ∈ L .ready) :
    m.threadExit (m.thread p).tid =
      .ok (some (m.thread p).tid, m.modify p fun t => { t with flag := true }) := by
  obtain ⟨h₀, h₁, harray⟩ := live_tid rep (by decide) hp
  obtain ⟨hany, hself⟩ := tid_ne h₀
  obtain ⟨l, r, hready⟩ := List.append_of_mem hp
  obtain ⟨first, hfirst⟩ := rep.ready_some hp
  obtain ⟨hfind, -⟩ := findReady rep hready hfirst
  rw [Machine.threadExit, if_neg hself, if_neg hany, if_neg (valid_tid h₀ h₁),
    if_neg (Int.not_lt.2 h₀), if_neg (by rw [harray]; decide), hfirst]
  dsimp only
  rw [hfind]

end Exit

end Ece344Lab.Threads
