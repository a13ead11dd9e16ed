import Ece344Lab.Webserver.RequestQueue

/-!
# Runs of the request queue

While `max_requests` is below `2 ^ 30` no index computation wraps, and the server is a ring that
holds what was inserted and not yet taken. The signals are a matter of the tests `in == out` and
`occupancy == max_requests` alone, so what is said of blocked threads needs no such bound.
-/
namespace Ece344Lab.Webserver

open Library (System)
open Library.System (Run)

section Ring

variable {max : Int} {sv sv' : Server} {k : Nat} {connfd : Int} {signal : Bool}

/-- The server holds `k` connections in a ring of `max + 1` cells. -/
structure Server.Holds (sv : Server) (max : Int) (k : Nat) : Prop where
  nonneg : 0 ≤ max
  bound : max < 2 ^ 30
  max_eq : sv.max_requests = max
  out_nonneg : 0 ≤ sv.outIdx
  out_le : sv.outIdx ≤ max
  in_eq : sv.inIdx = (sv.outIdx + k) % (max + 1)
  count_le : (k : Int) ≤ max

/-- The connections held. -/
def Server.queue (sv : Server) (max : Int) (k : Nat) : List Int :=
  Library.Ring.contents sv.buf (max + 1) sv.outIdx k

namespace Server.Holds

theorem size_eq (h : sv.Holds max k) : sv.size = max + 1 := by
  have := h.nonneg; have := h.bound
  rw [Server.size, h.max_eq, wrap_of_range (by omega) (by omega)]

theorem in_range (h : sv.Holds max k) : 0 ≤ sv.inIdx ∧ sv.inIdx ≤ max := by
  have pos : 0 < max + 1 := by have := h.nonneg; omega
  have nonneg := Int.emod_nonneg (sv.outIdx + k) pos.ne'
  have lt := Int.emod_lt_of_pos (sv.outIdx + k) pos
  rw [h.in_eq]
  omega

theorem occupancy_eq (h : sv.Holds max k) : sv.occupancy = k := by
  obtain ⟨hi0, hi1⟩ := h.in_range
  have := h.nonneg; have := h.bound; have := h.out_nonneg; have := h.out_le
  rw [Server.occupancy, h.size_eq, wrap_of_range (x := sv.inIdx - sv.outIdx) (by omega) (by omega),
    wrap_of_range (by omega) (by omega), Int.tmod_eq_emod_of_nonneg (by omega)]
  exact Library.Ring.count_eq (by have := h.count_le; omega) h.in_eq

theorem advance_eq (h : sv.Holds max k) {i : Int} (h0 : 0 ≤ i) (h1 : i ≤ max) :
    sv.advance i = (i + 1) % (max + 1) := by
  have := h.bound
  rw [Server.advance, h.size_eq, wrap_of_range (by omega) (by omega),
    Int.tmod_eq_emod_of_nonneg (by omega)]

theorem indices_eq_iff (h : sv.Holds max k) : sv.inIdx = sv.outIdx ↔ k = 0 :=
  Library.Ring.indices_eq_iff h.out_nonneg (by have := h.out_le; omega)
    (by have := h.count_le; omega) h.in_eq

theorem buffered_eq (h : sv.Holds max k) : sv.buffered = sv.queue max k := by
  rw [Server.buffered, Server.queue, h.size_eq, h.occupancy_eq, Int.toNat_natCast]

/-- `server_request` appends to the queue. -/
theorem push (h : sv.Holds max k) (run : sv.serverRequest connfd = some (sv', signal)) :
    sv'.Holds max (k + 1) ∧ sv'.queue max (k + 1) = sv.queue max k ++ [connfd] := by
  obtain ⟨hne, -, rfl⟩ := serverRequest_cases run
  rw [h.occupancy_eq, h.max_eq] at hne
  have hlt : (k : Int) < max := lt_of_le_of_ne h.count_le hne
  obtain ⟨hi0, hi1⟩ := h.in_range
  refine ⟨⟨h.nonneg, h.bound, h.max_eq, h.out_nonneg, h.out_le, ?_, by omega⟩, ?_⟩
  · show sv.advance sv.inIdx = _
    rw [h.advance_eq hi0 hi1, h.in_eq, Int.emod_add_emod, Nat.cast_succ, add_assoc]
  · show Library.Ring.contents (Function.update sv.buf sv.inIdx connfd) _ _ _ = _
    rw [h.in_eq, Library.Ring.contents_push (by omega)]
    rfl

/-- `stub_func` takes the first connection of the queue. -/
theorem pop (h : sv.Holds max k) (run : sv.stubFunc = some (connfd, sv', signal)) :
    ∃ k', sv'.Holds max k' ∧ sv.queue max k = connfd :: sv'.queue max k' := by
  obtain ⟨hne, -, rfl, rfl⟩ := stubFunc_cases run
  obtain ⟨k', rfl⟩ := Nat.exists_eq_succ_of_ne_zero (mt h.indices_eq_iff.2 hne)
  have pos : 0 < max + 1 := by have := h.nonneg; omega
  have out := h.advance_eq h.out_nonneg h.out_le
  have lt := Int.emod_lt_of_pos (sv.outIdx + 1) pos
  have le := h.count_le
  refine ⟨k', ⟨h.nonneg, h.bound, h.max_eq, ?_, ?_, ?_, by push_cast at le; omega⟩, ?_⟩
  · show 0 ≤ sv.advance sv.outIdx
    rw [out]
    exact Int.emod_nonneg _ pos.ne'
  · show sv.advance sv.outIdx ≤ max
    rw [out]
    omega
  · show sv.inIdx = (sv.advance sv.outIdx + k') % (max + 1)
    rw [out, h.in_eq, Int.emod_add_emod, Nat.cast_succ]
    congr 1
    ring
  · show Library.Ring.contents sv.buf _ _ _ = _ :: Library.Ring.contents sv.buf _ _ _
    rw [Library.Ring.contents_pop _ _ h.out_nonneg (by have := h.out_le; omega)]
    show _ = _ :: Library.Ring.contents sv.buf _ (sv.advance sv.outIdx) _
    rw [out]

end Server.Holds

theorem serverInit_holds {buf : Int → Int} (h0 : 0 ≤ max) (h1 : max < 2 ^ 30) :
    (serverInit max buf).Holds max 0 :=
  ⟨h0, h1, rfl, le_refl _, h0, by simp [serverInit], h0⟩

end Ring

section Order

@[simp] theorem inserted_append (es fs : List Event) :
    inserted (es ++ fs) = inserted es ++ inserted fs := by simp [inserted]

@[simp] theorem taken_append (es fs : List Event) :
    taken (es ++ fs) = taken es ++ taken fs := by simp [taken]

variable {n : Nat} {max : Int}

/-- What was inserted is what was taken followed by what the ring holds. -/
def Ordered (max : Int) (es : List Event) (s : Threads n) : Prop :=
  ∃ k, s.sv.Holds max k ∧ inserted es = taken es ++ s.sv.queue max k

theorem Ordered.internal {es : List Event} {s s' : Threads n} (h : Ordered max es s)
    (sv_eq : s'.sv = s.sv) : Ordered max (es ++ [.internal]) s' := by
  obtain ⟨k, holds, order⟩ := h
  exact ⟨k, sv_eq ▸ holds, by simpa [inserted, taken, sv_eq] using order⟩

theorem Ordered.step {es : List Event} {s s' : Threads n} {e : Event} (h : Ordered max es s)
    (step : s.Step e s') : Ordered max (es ++ [e]) s' := by
  cases step with
  | insert _ run _ =>
    obtain ⟨k, holds, order⟩ := h
    obtain ⟨holds', queue⟩ := holds.push run
    refine ⟨k + 1, holds', ?_⟩
    rw [queue, inserted_append, taken_append, order]
    simp [inserted, taken]
  | take _ run =>
    obtain ⟨k, holds, order⟩ := h
    obtain ⟨k', holds', queue⟩ := holds.pop run
    refine ⟨k', holds', ?_⟩
    rw [inserted_append, taken_append, order, queue]
    simp [inserted, taken]
  | accept | waitFull | waitEmpty | served | spuriousProducer | spuriousWorker =>
    exact h.internal rfl

theorem ordered_run (h0 : 0 ≤ max) (h1 : max < 2 ^ 30) {es : List Event} {s : Threads n}
    (run : (queueSystem n max).Run es s) : Ordered max es s := by
  refine run.invariant (I := Ordered max) ?_ fun _ _ _ _ => Ordered.step
  rintro _ ⟨buf, rfl⟩
  exact ⟨0, serverInit_holds h0 h1, rfl⟩

/-- Connections are taken in the order in which they were inserted, none is lost or taken
twice, and both indices stay inside `buf`. -/
theorem connections_fifo {nr_threads : Nat} {max_requests : Int} (h0 : 0 ≤ max_requests)
    (h1 : max_requests < 2 ^ 30) {es : List Event} {s : Threads nr_threads}
    (run : (queueSystem nr_threads max_requests).Run es s) :
    taken es <+: inserted es ∧
      inserted es = taken es ++ s.sv.buffered ∧
      (taken es).length + s.sv.buffered.length = (inserted es).length ∧
      (s.sv.buffered.length : Int) = s.sv.occupancy ∧
      (s.sv.buffered.length : Int) ≤ max_requests ∧
      (0 ≤ s.sv.inIdx ∧ s.sv.inIdx < max_requests + 1) ∧
      (0 ≤ s.sv.outIdx ∧ s.sv.outIdx < max_requests + 1) := by
  obtain ⟨k, holds, order⟩ := ordered_run h0 h1 run
  have buffered := holds.buffered_eq
  have length : s.sv.buffered.length = k := by rw [buffered]; simp [Server.queue]
  rw [← buffered] at order
  obtain ⟨hi0, hi1⟩ := holds.in_range
  have := holds.out_nonneg; have := holds.out_le; have := holds.count_le
  refine ⟨⟨_, order.symm⟩, order, ?_, ?_, by omega, by omega, by omega⟩
  · rw [order, List.length_append]
  · rw [length, holds.occupancy_eq]

/-- Four connections and a ring of three cells: the indices have gone round it. -/
theorem connections_fifo_wrapped : ∃ (es : List Event) (s : Threads 1),
    (queueSystem 1 2).Run es s ∧ taken es = [7, 8] ∧ s.sv.inIdx < s.sv.outIdx ∧
      [7, 8, 9, 4] = taken es ++ s.sv.buffered := by
  have start : (queueSystem 1 2).Run [] ⟨⟨2, fun _ => 0, 0, 0⟩, .idle, fun _ => .ready⟩ :=
    .start ⟨fun _ => 0, rfl⟩
  have first : (⟨2, fun _ => 0, 0, 0⟩ : Server).serverRequest 7 =
      some (⟨2, Function.update (fun _ => 0) 0 7, 1, 0⟩, true) := rfl
  have second : ∀ buf : Int → Int, (⟨2, buf, 1, 0⟩ : Server).serverRequest 8 =
      some (⟨2, Function.update buf 1 8, 2, 0⟩, false) := fun _ => rfl
  have third : ∀ buf : Int → Int, (⟨2, buf, 2, 1⟩ : Server).serverRequest 9 =
      some (⟨2, Function.update buf 2 9, 0, 1⟩, false) := fun _ => rfl
  have fourth : ∀ buf : Int → Int, (⟨2, buf, 0, 2⟩ : Server).serverRequest 4 =
      some (⟨2, Function.update buf 0 4, 1, 2⟩, false) := fun _ => rfl
  have take₁ : ∀ buf : Int → Int, (⟨2, buf, 2, 0⟩ : Server).stubFunc =
      some (buf 0, ⟨2, buf, 2, 1⟩, true) := fun _ => rfl
  have take₂ : ∀ buf : Int → Int, (⟨2, buf, 0, 1⟩ : Server).stubFunc =
      some (buf 1, ⟨2, buf, 0, 2⟩, true) := fun _ => rfl
  have filled := (((start.next (.accept 7 rfl)).next
    (.insert rfl first (.inr ⟨by simp, rfl⟩))).next (.accept 8 rfl)).next (.insert rfl (second _) rfl)
  have wrapped := ((filled.next (.take (w := 0) (.inl rfl) (take₁ _))).next (.accept 9 rfl)).next
    (.insert rfl (third _) rfl)
  have last := (((wrapped.next (.served (w := 0) rfl)).next (.take (w := 0) (.inl rfl) (take₂ _))).next
    (.accept 4 rfl)).next (.insert rfl (fourth _) rfl)
  exact ⟨_, _, last, rfl, by decide, (connections_fifo (by decide) (by decide) last).2.1⟩

/-- The test `in == out` tells whether connections are buffered. -/
theorem indices_eq_iff_buffered {nr_threads : Nat} {max_requests : Int} (h0 : 0 ≤ max_requests)
    (h1 : max_requests < 2 ^ 30) {es : List Event} {s : Threads nr_threads}
    (run : (queueSystem nr_threads max_requests).Run es s) :
    s.sv.inIdx = s.sv.outIdx ↔ s.sv.buffered = [] := by
  obtain ⟨k, holds, -⟩ := ordered_run h0 h1 run
  rw [holds.indices_eq_iff, holds.buffered_eq, ← List.length_eq_zero_iff, Server.queue,
    Library.Ring.length_contents]

end Order

section Blocked

variable {n : Nat} {max : Int}

theorem Signalled.exists_not_waiting {worker worker' : Fin n → Worker} (hn : 1 ≤ n)
    (h : Signalled worker worker') : ∃ w, worker' w ≠ .waiting := by
  obtain ⟨w, -, rfl⟩ | ⟨none, rfl⟩ := h
  · exact ⟨w, by simp⟩
  · exact ⟨⟨0, hn⟩, none _⟩

/-- A worker that is awake while connections are buffered, a full buffer while the producer
waits. -/
structure Awake (max : Int) (s : Threads n) : Prop where
  max_eq : s.sv.max_requests = max
  worker : s.sv.inIdx ≠ s.sv.outIdx → ∃ w, s.worker w ≠ .waiting
  producer : ∀ connfd, s.producer = .waiting connfd → s.sv.occupancy = s.sv.max_requests

/-- A step that moves one worker out of the wait, or into it with `in == out`, keeps `Awake`. -/
theorem Awake.setWorker {s : Threads n} (h : Awake max s) (w : Fin n) (x : Worker)
    (hx : x = .waiting → s.sv.inIdx = s.sv.outIdx) :
    Awake max { s with worker := Function.update s.worker w x } :=
  ⟨h.max_eq, fun hne => ⟨w, by simpa using mt hx hne⟩, h.producer⟩

theorem Awake.setProducer {s : Threads n} (h : Awake max s) (p : Producer)
    (hp : ∀ connfd, p = .waiting connfd → s.sv.occupancy = s.sv.max_requests) :
    Awake max { s with producer := p } :=
  ⟨h.max_eq, h.worker, hp⟩

theorem Producer.signal_ne_waiting (p : Producer) (connfd : Int) :
    p.signal ≠ .waiting connfd := by
  cases p <;> simp [Producer.signal]

theorem Awake.step {s s' : Threads n} {e : Event} (hn : 1 ≤ n) (h : Awake max s)
    (step : s.Step e s') : Awake max s' := by
  cases step with
  | accept connfd _ => exact h.setProducer _ fun _ => nofun
  | @insert _ _ signal _ _ run wake =>
    obtain ⟨-, signal_iff, rfl⟩ := serverRequest_cases run
    refine ⟨h.max_eq, fun _ => ?_, fun _ => nofun⟩
    by_cases hs : signal = true
    · rw [if_pos hs] at wake
      exact wake.exists_not_waiting hn
    · rw [if_neg hs] at wake
      rw [wake]
      exact h.worker (mt signal_iff.2 hs)
  | waitFull _ run => exact h.setProducer _ fun _ _ => serverRequest_eq_none.1 run
  | @take w _ _ signal _ run =>
    obtain ⟨-, signal_iff, -, rfl⟩ := stubFunc_cases run
    refine ⟨h.max_eq, fun _ => ⟨w, by simp⟩, fun c hc => ?_⟩
    -- a waiting producer means a full buffer, and then the worker signals
    by_cases hs : signal = true
    · rw [if_pos hs] at hc
      exact absurd hc (Producer.signal_ne_waiting _ _)
    · rw [if_neg hs] at hc
      exact absurd (h.producer c hc) (mt signal_iff.2 hs)
  | waitEmpty _ run => exact h.setWorker _ _ fun _ => stubFunc_eq_none.1 run
  | served _ => exact h.setWorker _ _ nofun
  | spuriousProducer _ => exact h.setProducer _ fun _ => nofun
  | spuriousWorker _ => exact h.setWorker _ _ nofun

theorem awake_run (hn : 1 ≤ n) {es : List Event} {s : Threads n}
    (run : (queueSystem n max).Run es s) : Awake max s := by
  refine run.invariant_state ?_ fun _ _ _ h => h.step hn
  rintro _ ⟨buf, rfl⟩
  exact ⟨rfl, fun h => absurd rfl h, fun _ => nofun⟩

theorem occupancy_of_indices_eq {sv : Server} (h : sv.inIdx = sv.outIdx) : sv.occupancy = 0 := by
  have size : wrap (wrap (sv.inIdx - sv.outIdx) + sv.size) = sv.size := by
    rw [h, Server.size]
    unfold wrap
    omega
  rw [Server.occupancy, size, Int.tmod_self]

/-- Not every worker waits beside a nonempty buffer, the producer waits only for a full one, and
so not all of them wait at once. -/
theorem never_all_waiting {nr_threads : Nat} {max_requests : Int} (hn : 1 ≤ nr_threads)
    (hmax : 1 ≤ max_requests) {es : List Event} {s : Threads nr_threads}
    (run : (queueSystem nr_threads max_requests).Run es s) :
    ¬ (s.sv.inIdx ≠ s.sv.outIdx ∧ ∀ w, s.worker w = .waiting) ∧
      ¬ ((∃ connfd, s.producer = .waiting connfd) ∧ s.sv.occupancy ≠ s.sv.max_requests) ∧
      ¬ ((∃ connfd, s.producer = .waiting connfd) ∧ ∀ w, s.worker w = .waiting) := by
  have awake := awake_run hn run
  refine ⟨fun ⟨hne, all⟩ => ?_, fun ⟨⟨c, hc⟩, hne⟩ => hne (awake.producer c hc),
    fun ⟨⟨c, hc⟩, all⟩ => ?_⟩
  · obtain ⟨w, hw⟩ := awake.worker hne
    exact hw (all w)
  · have empty : s.sv.inIdx = s.sv.outIdx := by
      by_contra hne
      obtain ⟨w, hw⟩ := awake.worker hne
      exact hw (all w)
    have full := awake.producer c hc
    rw [occupancy_of_indices_eq empty, awake.max_eq] at full
    omega

/-- The buffer is full, the producer and one of two workers wait. -/
theorem never_all_waiting_full : ∃ (es : List Event) (s : Threads 2),
    (queueSystem 2 1).Run es s ∧ s.producer = .waiting 5 ∧ s.worker 1 = .waiting ∧
      s.sv.inIdx ≠ s.sv.outIdx ∧ ¬ (s.sv.inIdx ≠ s.sv.outIdx ∧ ∀ w, s.worker w = .waiting) ∧
      ¬ ((∃ connfd, s.producer = .waiting connfd) ∧ s.sv.occupancy ≠ s.sv.max_requests) ∧
      ¬ ((∃ connfd, s.producer = .waiting connfd) ∧ ∀ w, s.worker w = .waiting) := by
  have asleep := ((Run.start (T := queueSystem 2 1) ⟨fun _ => 0, rfl⟩).next
    (.waitEmpty (w := 0) (.inl rfl) rfl)).next (.waitEmpty (w := 1) (.inl rfl) rfl)
  have full := ((asleep.next (.accept 4 rfl)).next (.insert rfl rfl (.inl ⟨0, rfl, rfl⟩))).next
    (.accept 5 rfl)
  have blocked := full.next (.waitFull rfl rfl)
  exact ⟨_, _, blocked, rfl, rfl, by decide, never_all_waiting (by decide) (by decide) blocked⟩

end Blocked

section Idle

variable {n : Nat} {max : Int}

/-- With a worker waiting and every other one inside `do_server_request`, no connection is
buffered. -/
def NoRequestWaits (s : Threads n) : Prop :=
  (∃ w, s.worker w = .waiting) →
    (∀ w, s.worker w ≠ .waiting → ∃ connfd, s.worker w = .serving connfd) →
      s.sv.inIdx = s.sv.outIdx

/-- With room for one connection, a waiting worker beside a buffered connection means that
another worker is about to look. -/
def Attended (s : Threads n) : Prop :=
  ∃ k, s.sv.Holds 1 k ∧ (k ≠ 0 → (∃ w, s.worker w = .waiting) → ∃ w, (s.worker w).Entering)

theorem Attended.setWorker {s : Threads n} (h : Attended s) (w : Fin n) {x : Worker}
    (hx : x.Entering) : Attended { s with worker := Function.update s.worker w x } := by
  obtain ⟨k, holds, -⟩ := h
  exact ⟨k, holds, fun _ _ => ⟨w, by simpa using hx⟩⟩

theorem Attended.step {s s' : Threads n} {e : Event} (h : Attended s) (step : s.Step e s') :
    Attended s' := by
  obtain ⟨k, holds, attended⟩ := h
  cases step with
  | accept | waitFull | spuriousProducer => exact ⟨k, holds, attended⟩
  | @insert _ _ signal _ _ run wake =>
    obtain ⟨hne, signal_iff, -⟩ := serverRequest_cases run
    rw [holds.occupancy_eq, holds.max_eq] at hne
    have empty : k = 0 := by have := holds.count_le; omega
    rw [if_pos (signal_iff.2 (holds.indices_eq_iff.2 empty))] at wake
    refine ⟨k + 1, (holds.push run).1, fun _ ⟨w', hw'⟩ => ?_⟩
    obtain ⟨w, -, rfl⟩ | ⟨none, rfl⟩ := wake
    · exact ⟨w, .inr (by simp)⟩
    · exact absurd hw' (none w')
  | take _ run =>
    obtain ⟨k', holds', queue⟩ := holds.pop run
    have length := congrArg List.length queue
    simp only [Server.queue, Library.Ring.length_contents, List.length_cons] at length
    have := holds.count_le
    exact ⟨k', holds', fun hne => absurd (by omega) hne⟩
  | waitEmpty _ run =>
    exact ⟨k, holds, fun hne => absurd (holds.indices_eq_iff.1 (stubFunc_eq_none.1 run)) hne⟩
  | served _ => exact Attended.setWorker ⟨k, holds, attended⟩ _ (.inl rfl)
  | spuriousWorker _ => exact Attended.setWorker ⟨k, holds, attended⟩ _ (.inr rfl)

theorem attended_run {es : List Event} {s : Threads n} (run : (queueSystem n 1).Run es s) :
    Attended s := by
  refine run.invariant_state ?_ fun _ _ _ h => h.step
  rintro _ ⟨buf, rfl⟩
  exact ⟨0, serverInit_holds (by decide) (by decide), fun h => absurd rfl h⟩

theorem Attended.noRequestWaits {s : Threads n} (h : Attended s) : NoRequestWaits s := by
  obtain ⟨k, holds, attended⟩ := h
  intro waiting others
  rw [holds.indices_eq_iff]
  by_contra hne
  obtain ⟨w, hw⟩ := attended hne waiting
  obtain ⟨c, hc⟩ := others w (by rintro h; rw [h] at hw; cases hw <;> contradiction)
  rw [hc] at hw
  cases hw <;> contradiction

/-- A single worker does not wait beside a buffered connection. -/
theorem Awake.noRequestWaits {s : Threads 1} (h : Awake max s) : NoRequestWaits s := by
  intro ⟨w, hw⟩ _
  by_contra hne
  obtain ⟨w', hw'⟩ := h.worker hne
  exact hw' (Subsingleton.elim w w' ▸ hw)

section Failing

theorem advance_zero (sv : Server) (h1 : 1 ≤ sv.max_requests) (h2 : sv.max_requests < 2 ^ 31) :
    sv.advance 0 = 1 := by
  rw [Server.advance, Server.size]
  rcases eq_or_ne sv.max_requests 2147483647 with h | h
  · rw [h]; decide
  · rw [wrap_of_range (x := sv.max_requests + 1) (by omega) (by omega)]
    exact Int.tmod_eq_of_lt (by decide) (show wrap (0 + 1) < _ by unfold wrap; omega)

theorem advance_one (sv : Server) (h1 : 2 ≤ sv.max_requests) (h2 : sv.max_requests < 2 ^ 31) :
    sv.advance 1 = 2 := by
  rw [Server.advance, Server.size]
  rcases eq_or_ne sv.max_requests 2147483647 with h | h
  · rw [h]; decide
  · rw [wrap_of_range (x := sv.max_requests + 1) (by omega) (by omega)]
    exact Int.tmod_eq_of_lt (by decide) (show wrap (1 + 1) < _ by unfold wrap; omega)

theorem occupancy_one {sv : Server} (hin : sv.inIdx = 1) (hout : sv.outIdx = 0)
    (h1 : 2 ≤ sv.max_requests) (h2 : sv.max_requests < 2 ^ 31) : sv.occupancy ≠ sv.max_requests := by
  rw [Server.occupancy, Server.size, hin, hout]
  rcases (show sv.max_requests = 2147483647 ∨ sv.max_requests = 2147483646 ∨
      sv.max_requests < 2147483646 by omega) with h | h | h
  · rw [h]; decide
  · rw [h]; decide
  · rw [wrap_of_range (x := sv.max_requests + 1) (by omega) (by omega),
      wrap_of_range (x := 1 - 0) (by decide) (by decide), wrap_of_range (by omega) (by omega),
      Int.tmod_eq_emod_of_nonneg (by omega), show (1 - 0 + (sv.max_requests + 1) : Int) =
        1 + (sv.max_requests + 1) by omega, Int.add_emod_right,
      Int.emod_eq_of_lt (by decide) (by omega)]
    omega

/-- All workers reach their wait before the first connection. -/
theorem all_waiting_run (buf : Int → Int) {k : Nat} (hk : k ≤ n) :
    (queueSystem n max).Run (List.replicate k .internal)
      ⟨serverInit max buf, .idle, fun w => if w.val < k then .waiting else .ready⟩ := by
  induction k with
  | zero => exact .start ⟨buf, by simp⟩
  | succ k ih =>
    have step := (ih (by omega)).next
      (Threads.Step.waitEmpty (w := ⟨k, hk⟩) (.inl (by simp)) (stubFunc_eq_none.2 rfl))
    rw [List.replicate_succ']
    convert step using 2
    funext w
    by_cases h : w = ⟨k, hk⟩
    · subst h; simp
    · have : w.val ≠ k := fun hw => h (Fin.ext hw)
      simp only [Function.update_of_ne h]
      exact if_congr (by omega) rfl rfl

/-- Two connections arrive while all workers wait: the first is signalled, the second not. The
woken worker takes the first one, and nobody is left to take the second. -/
theorem request_waits_run {n : Nat} {max : Int} (hn : 2 ≤ n) (hmax : 2 ≤ max) (hint : max < 2 ^ 31)
    (r₁ r₂ : Int) :
    ∃ s, (queueSystem n max).Run
        (List.replicate n .internal ++ [.internal] ++ [.insert r₁] ++ [.internal] ++
          [.insert r₂] ++ [.take r₁]) s ∧
      ¬ NoRequestWaits s := by
  have start : (queueSystem n max).Run _ _ := all_waiting_run (fun _ => 0) le_rfl
  have first : (⟨max, fun _ => 0, 0, 0⟩ : Server).serverRequest r₁ =
      some (⟨max, Function.update (fun _ => 0) 0 r₁, 1, 0⟩, true) := by
    have adv := advance_zero ⟨max, fun _ => 0, 0, 0⟩ (show 1 ≤ max by omega) hint
    rw [Server.serverRequest, if_neg (by rw [occupancy_of_indices_eq rfl]; show (0 : Int) ≠ max; omega),
      adv]
    simp
  have second : (⟨max, Function.update (fun _ => 0) 0 r₁, 1, 0⟩ : Server).serverRequest r₂ =
      some (⟨max, Function.update (Function.update (fun _ => 0) 0 r₁) 1 r₂, 2, 0⟩, false) := by
    have adv := advance_one ⟨max, Function.update (fun _ => 0) 0 r₁, 1, 0⟩ hmax hint
    rw [Server.serverRequest, if_neg (occupancy_one rfl rfl hmax hint), adv]
    simp
  obtain ⟨signal, third⟩ : ∃ signal,
      (⟨max, Function.update (Function.update (fun _ => 0) 0 r₁) 1 r₂, 2, 0⟩ : Server).stubFunc =
        some (r₁, ⟨max, Function.update (Function.update (fun _ => 0) 0 r₁) 1 r₂, 2, 1⟩,
          signal) := by
    have adv := advance_zero
      ⟨max, Function.update (Function.update (fun _ => 0) 0 r₁) 1 r₂, 2, 0⟩
      (show 1 ≤ max by omega) hint
    rw [Server.stubFunc, if_neg (by simp), adv]
    exact ⟨_, by simp; rfl⟩
  let w₀ : Fin n := ⟨0, by omega⟩
  let w₁ : Fin n := ⟨1, by omega⟩
  have inserted₁ := (start.next (.accept r₁ rfl)).next
    (.insert rfl first (.inl ⟨w₀, by simp [w₀]; omega, rfl⟩))
  have inserted₂ := (inserted₁.next (.accept r₂ rfl)).next (.insert rfl second rfl)
  refine ⟨_, inserted₂.next (.take (w := w₀) (.inr (by simp)) third), fun h => ?_⟩
  have empty := h ⟨w₁, by simp [w₀, w₁]⟩ fun w hw => ?_
  · exact absurd empty (by simp)
  · by_cases h₀ : w = w₀
    · exact ⟨r₁, by simp [h₀]⟩
    · simp [Function.update_of_ne h₀] at hw

end Failing

/-- The producer signals only a buffer that was empty, and so a second connection is left
waiting beside an idle worker unless there is one worker or room for one connection. -/
theorem noRequestWaits_iff {nr_threads : Nat} {max_requests : Int} (hn : 1 ≤ nr_threads)
    (hmax : 1 ≤ max_requests) (hint : max_requests < 2 ^ 31) :
    (∀ es s, (queueSystem nr_threads max_requests).Run es s → NoRequestWaits s) ↔
      nr_threads = 1 ∨ max_requests = 1 := by
  constructor
  · intro h
    by_contra hne
    obtain ⟨s, run, waits⟩ := request_waits_run (show 2 ≤ nr_threads by omega)
      (show 2 ≤ max_requests by omega) hint 0 0
    exact waits (h _ s run)
  · rintro (rfl | rfl) es s run
    · exact (awake_run hn run).noRequestWaits
    · exact (attended_run run).noRequestWaits

theorem noRequestWaits_single :
    (∀ es s, (queueSystem 1 10).Run es s → NoRequestWaits s) ↔ 1 = 1 ∨ (10 : Int) = 1 :=
  noRequestWaits_iff (by decide) (by decide) (by decide)

/-- Two workers, room for two connections: 5 waits while the second worker sleeps. -/
theorem request_five_waits :
    ¬ ∀ es s, (queueSystem 2 2).Run es s → NoRequestWaits s := by
  intro h
  obtain ⟨s, run, waits⟩ := request_waits_run (n := 2) le_rfl le_rfl (by decide) 4 5
  exact waits (h _ s run)

end Idle

end Ece344Lab.Webserver
