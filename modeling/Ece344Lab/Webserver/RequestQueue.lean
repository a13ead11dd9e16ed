import Ece344Lab.Library.Ring
import Ece344Lab.Library.Runs
import Ece344Lab.Webserver.Common

/-!
# The request queue of the web server

`server_request` puts accepted connections into a ring buffer and `stub_func`, run by every
worker, takes them out. Each passage of a lock-protected section, from taking the lock to giving
it up or to waiting, is one step. A thread that waits on a condition variable is `waiting` until a
signal or a spurious wakeup makes it `woken`; it then runs its section again from the loop test.
-/
namespace Ece344Lab.Webserver

open Library (System)
open Library.System (Run)

/-- `struct server`, less the lock and the condition variables. The indices are its `in` and
`out`. -/
structure Server where
  max_requests : Int
  buf : Int → Int
  inIdx : Int
  outIdx : Int

namespace Server

/-- `sv->max_requests + 1`, the number of cells of `buf`. -/
def size (sv : Server) : Int := wrap (sv.max_requests + 1)

/-- `(sv->in - sv->out + (sv->max_requests + 1)) % (sv->max_requests + 1)`. -/
def occupancy (sv : Server) : Int :=
  (wrap (wrap (sv.inIdx - sv.outIdx) + sv.size)).tmod sv.size

/-- `(i + 1) % (sv->max_requests + 1)`. -/
def advance (sv : Server) (i : Int) : Int := (wrap (i + 1)).tmod sv.size

/-- The locked section of `server_request`: the new server and whether `cv_empty` was signalled.
`none` when the producer waits on `cv_full`. -/
def serverRequest (sv : Server) (connfd : Int) : Option (Server × Bool) :=
  if sv.occupancy = sv.max_requests then none
  else some ({ sv with
    buf := Function.update sv.buf sv.inIdx connfd
    inIdx := sv.advance sv.inIdx }, sv.inIdx == sv.outIdx)

/-- The locked section of `stub_func`: the connection taken, the new server and whether `cv_full`
was signalled. `none` when the worker waits on `cv_empty`. -/
def stubFunc (sv : Server) : Option (Int × Server × Bool) :=
  if sv.inIdx = sv.outIdx then none
  else some (sv.buf sv.outIdx, { sv with outIdx := sv.advance sv.outIdx },
    sv.occupancy == sv.max_requests)

/-- The connections between `out` and `in`, in the order in which they will be taken. -/
def buffered (sv : Server) : List Int :=
  Library.Ring.contents sv.buf sv.size sv.outIdx sv.occupancy.toNat

end Server

/-- Where the producer, `main`'s loop, stands. `request` runs or reruns the section of
`server_request`, `waiting` is blocked in `cv_full`. -/
inductive Producer where
  | idle
  | request (connfd : Int)
  | waiting (connfd : Int)
  | woken (connfd : Int)
  deriving DecidableEq

/-- Where a worker stands. `waiting` is blocked in `cv_empty` with no signal pending for it,
`serving` is inside `do_server_request`. -/
inductive Worker where
  | ready
  | waiting
  | woken
  | serving (connfd : Int)
  deriving DecidableEq

/-- The connection with which the producer runs its section next. -/
def Producer.entering : Producer → Option Int
  | .request connfd | .woken connfd => some connfd
  | _ => none

/-- The worker runs its section next. -/
def Worker.Entering (w : Worker) : Prop := w = .ready ∨ w = .woken

/-- `pthread_cond_signal(cv_full)`: only the producer waits on it. -/
def Producer.signal : Producer → Producer
  | .waiting connfd => .woken connfd
  | p => p

/-- The whole server with `n` workers. -/
structure Threads (n : Nat) where
  sv : Server
  producer : Producer
  worker : Fin n → Worker

/-- `pthread_cond_signal(cv_empty)`: some waiting worker is woken; with none the signal is
lost. -/
def Signalled {n : Nat} (worker worker' : Fin n → Worker) : Prop :=
  (∃ w, worker w = .waiting ∧ worker' = Function.update worker w .woken) ∨
    (∀ w, worker w ≠ .waiting) ∧ worker' = worker

inductive Event where
  | insert (connfd : Int)
  | take (connfd : Int)
  | internal
  deriving DecidableEq

/-- One step of the producer or of a worker. -/
inductive Threads.Step {n : Nat} (s : Threads n) : Event → Threads n → Prop where
  | accept (connfd : Int) (h : s.producer = .idle) :
      Step s .internal { s with producer := .request connfd }
  | insert {connfd : Int} {sv : Server} {signal : Bool} {worker : Fin n → Worker}
      (h : s.producer.entering = some connfd)
      (run : s.sv.serverRequest connfd = some (sv, signal))
      (wake : if signal then Signalled s.worker worker else worker = s.worker) :
      Step s (.insert connfd) ⟨sv, .idle, worker⟩
  | waitFull {connfd : Int} (h : s.producer.entering = some connfd)
      (run : s.sv.serverRequest connfd = none) :
      Step s .internal { s with producer := .waiting connfd }
  | take {w : Fin n} {connfd : Int} {sv : Server} {signal : Bool}
      (h : (s.worker w).Entering) (run : s.sv.stubFunc = some (connfd, sv, signal)) :
      Step s (.take connfd)
        ⟨sv, if signal then s.producer.signal else s.producer,
          Function.update s.worker w (.serving connfd)⟩
  | waitEmpty {w : Fin n} (h : (s.worker w).Entering) (run : s.sv.stubFunc = none) :
      Step s .internal { s with worker := Function.update s.worker w .waiting }
  | served {w : Fin n} {connfd : Int} (h : s.worker w = .serving connfd) :
      Step s .internal { s with worker := Function.update s.worker w .ready }
  | spuriousProducer {connfd : Int} (h : s.producer = .waiting connfd) :
      Step s .internal { s with producer := .woken connfd }
  | spuriousWorker {w : Fin n} (h : s.worker w = .waiting) :
      Step s .internal { s with worker := Function.update s.worker w .woken }

/-- `server_init(nr_threads, max_requests, _)`: `in = out = 0`, `buf` is not initialised. -/
def serverInit (max_requests : Int) (buf : Int → Int) : Server := ⟨max_requests, buf, 0, 0⟩

/-- The server with `nr_threads` workers from `server_init` on. -/
def queueSystem (nr_threads : Nat) (max_requests : Int) : System (Threads nr_threads) Event where
  start s := ∃ buf, s = ⟨serverInit max_requests buf, .idle, fun _ => .ready⟩
  step := Threads.Step

/-- The connections of completed `server_request` calls, in order. -/
def inserted (es : List Event) : List Int :=
  es.filterMap fun | .insert connfd => some connfd | _ => none

/-- The connections taken by workers, in order. -/
def taken (es : List Event) : List Int :=
  es.filterMap fun | .take connfd => some connfd | _ => none

section Sections

variable {sv sv' : Server} {connfd : Int} {signal : Bool}

theorem serverRequest_eq_none :
    sv.serverRequest connfd = none ↔ sv.occupancy = sv.max_requests := by
  simp [Server.serverRequest]

theorem serverRequest_cases (h : sv.serverRequest connfd = some (sv', signal)) :
    sv.occupancy ≠ sv.max_requests ∧ (signal = true ↔ sv.inIdx = sv.outIdx) ∧
      sv' = { sv with
        buf := Function.update sv.buf sv.inIdx connfd
        inIdx := sv.advance sv.inIdx } := by
  unfold Server.serverRequest at h
  split at h
  · cases h
  case isFalse hne =>
    cases h
    exact ⟨hne, beq_iff_eq, rfl⟩

theorem stubFunc_eq_none : sv.stubFunc = none ↔ sv.inIdx = sv.outIdx := by
  simp [Server.stubFunc]

theorem stubFunc_cases (h : sv.stubFunc = some (connfd, sv', signal)) :
    sv.inIdx ≠ sv.outIdx ∧ (signal = true ↔ sv.occupancy = sv.max_requests) ∧
      connfd = sv.buf sv.outIdx ∧ sv' = { sv with outIdx := sv.advance sv.outIdx } := by
  unfold Server.stubFunc at h
  split at h
  · cases h
  case isFalse hne =>
    cases h
    exact ⟨hne, beq_iff_eq, rfl, rfl⟩

end Sections

end Ece344Lab.Webserver
