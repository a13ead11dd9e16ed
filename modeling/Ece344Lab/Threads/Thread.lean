import Ece344Lab.Library.Linked

/-!
# The thread library

`thread.c`: thread control blocks linked by one `next` pointer each, the ready list, the list of
threads to delete and the wait queues. Interrupts are off inside a call, so a call is one step of
the running thread. `getcontext` saves where a thread resumes; `setcontext` continues there, and
what follows `getcontext` in `thread_yield` and `thread_sleep` runs once when a thread is
suspended and once more when it is resumed.
-/
namespace Ece344Lab.Threads

abbrev Tid := Int

def THREAD_MAX_THREADS : Nat := 1024

def THREAD_ANY : Tid := -1
def THREAD_SELF : Tid := -2
def THREAD_INVALID : Tid := -3
def THREAD_NONE : Tid := -4
def THREAD_NOMORE : Tid := -5
def THREAD_FAILED : Tid := -7

/-- `NEW_STATE` and `RECOVER_STATE`. -/
inductive State where
  | new
  | recover
  deriving DecidableEq

/-- Where a thread resumes: at `thread_stub`, or behind the `getcontext` of a switch, with the
local variables `returned_tid` and `temp` of that call. -/
inductive Context where
  | stub
  | switched (returned_tid : Tid) (temp : Nat)
  deriving DecidableEq

/-- `struct thread`, less its stack. Two fields have no counterpart in the source: `freed` marks
a block given back to `free`, `exited` a thread that went through `thread_exit(THREAD_SELF)`. -/
structure Thread where
  thread_context : Context
  tid : Tid
  state : State
  next : Option Nat
  flag : Bool
  freed : Bool
  exited : Bool
  deriving DecidableEq

/-- `struct wait_queue`. `size` has no bound: 2^31 sleeps without a wake-all, which overflow the `int`
of the source, are left out. -/
structure WaitQueue where
  wait_head : Option Nat
  size : Int
  deriving DecidableEq

/-- The memory of the library. Blocks are named by their address, and `allocated` of them were
handed out so far. -/
structure Machine where
  thread : Nat → Thread
  allocated : Nat
  READY_HEAD : Option Nat
  RUNNING_THREAD : Nat
  TO_DELETE_THREAD : Option Nat
  thread_id_array : Nat → Bool
  queue : Nat → WaitQueue

/-- What keeps a call from returning. `useAfterFree` is the read of `temp->state` in a freed block. -/
inductive Crash where
  | endless
  | nullPointer
  | doubleFree
  | useAfterFree
  | badIndex
  deriving DecidableEq

namespace Machine

def next (m : Machine) : Nat → Option Nat := fun p => (m.thread p).next

/-- The thread with some of its fields changed. -/
def modify (m : Machine) (p : Nat) (f : Thread → Thread) : Machine :=
  { m with thread := Function.update m.thread p (f (m.thread p)) }

def setNext (m : Machine) (p : Nat) (v : Option Nat) : Machine :=
  m.modify p fun t => { t with next := v }

def setState (m : Machine) (p : Nat) (s : State) : Machine :=
  m.modify p fun t => { t with state := s }

/-- `assign_thread_id`; `none` is `THREAD_NOMORE`. -/
def assignThreadId (m : Machine) : Option Nat :=
  (List.range THREAD_MAX_THREADS).find? fun i => !m.thread_id_array i

/-- The walk to the end of a list and the insertion there: the new head. -/
def insertLast (m : Machine) (head : Option Nat) (new_thread : Nat) :
    Except Crash (Option Nat × Machine) :=
  match head with
  | none => .ok (some new_thread, m)
  | some first =>
    match Library.lastNode m.next m.allocated first with
    | none => .error .endless
    | some temp => .ok (some first, m.setNext temp (some new_thread))

def insertThreadToReady (m : Machine) (new_thread : Nat) : Except Crash Machine :=
  match m.insertLast m.READY_HEAD new_thread with
  | .error crash => .error crash
  | .ok (head, m') => .ok { m' with READY_HEAD := head }

def insertThreadToDelete (m : Machine) (new_thread : Nat) : Except Crash Machine :=
  match m.insertLast m.TO_DELETE_THREAD new_thread with
  | .error crash => .error crash
  | .ok (head, m') => .ok { m' with TO_DELETE_THREAD := head }

def insertThreadToWait (m : Machine) (new_thread queue : Nat) : Except Crash Machine :=
  match m.insertLast (m.queue queue).wait_head new_thread with
  | .error crash => .error crash
  | .ok (head, m') => .ok { m' with
      queue := Function.update m'.queue queue ⟨head, (m.queue queue).size + 1⟩ }

/-- The loop of `delete_threads_list`. -/
def freeAll : Nat → (Nat → Thread) → Option Nat → Except Crash (Nat → Thread)
  | _, thread, none => .ok thread
  | 0, _, some _ => .error .endless
  | fuel + 1, thread, some to_delete =>
    if (thread to_delete).freed then .error .doubleFree
    else freeAll fuel (Function.update thread to_delete { thread to_delete with freed := true })
      (thread to_delete).next

def deleteThreadsList (m : Machine) : Except Crash Machine :=
  match freeAll m.allocated m.thread m.TO_DELETE_THREAD with
  | .error crash => .error crash
  | .ok thread => .ok { m with thread := thread, TO_DELETE_THREAD := none }

/-- `thread_create` with memory available. The runs over `Machine` take this for granted; the
failures of `malloc` are those of `Cpu.threadCreate`. -/
def threadCreate (m : Machine) : Except Crash (Tid × Machine) :=
  match m.assignThreadId with
  | none => .ok (THREAD_NOMORE, m)
  | some new_id =>
    let new_thread := m.allocated
    let m' := { m with
      thread := Function.update m.thread new_thread
        ⟨.stub, new_id, .new, none, false, false, false⟩
      allocated := m.allocated + 1
      thread_id_array := Function.update m.thread_id_array new_id true }
    match m'.insertThreadToReady new_thread with
    | .error crash => .error crash
    | .ok m'' => .ok (new_id, m'')

/-- The running thread takes `new_run` off the ready list and gives up its own identifier. -/
def leave (m : Machine) (new_run : Nat) : Machine :=
  { m.modify m.RUNNING_THREAD fun t => { t with next := none, exited := true } with
    READY_HEAD := m.next new_run
    thread_id_array :=
      Function.update m.thread_id_array (m.thread m.RUNNING_THREAD).tid.toNat false }

/-- `new_run` becomes the running thread. -/
def run (m : Machine) (new_run : Nat) : Machine :=
  { m.modify new_run fun t => { t with next := none, state := .recover } with
    RUNNING_THREAD := new_run }

/-- `thread_exit(THREAD_SELF)` up to its `setcontext`. `none` when it returns `THREAD_NONE`. -/
def exitSelf (m : Machine) : Except Crash (Option Machine) :=
  match m.READY_HEAD with
  | none => .ok none
  | some new_run =>
    match (m.leave new_run).insertThreadToDelete m.RUNNING_THREAD with
    | .error crash => .error crash
    | .ok m' => .ok (some (m'.run new_run))

/-- `setcontext` of the running thread. The value is what its interrupted call returns; `none` when
it starts in `thread_stub`. -/
def resumeWith (pass : Machine → Tid → Nat → Except Crash (Option Tid × Machine)) (m : Machine) :
    Except Crash (Option Tid × Machine) :=
  match (m.thread m.RUNNING_THREAD).thread_context with
  | .stub => .ok (none, m)
  | .switched returned_tid temp => pass m returned_tid temp

/-- What follows `getcontext` in a switch, from the deletion on. -/
def afterFlag (pass : Machine → Tid → Nat → Except Crash (Option Tid × Machine)) (m : Machine)
    (returned_tid : Tid) (temp : Nat) : Except Crash (Option Tid × Machine) :=
  match m.deleteThreadsList with
  | .error crash => .error crash
  | .ok m =>
    if m.thread_id_array returned_tid.toNat = false then .ok (some returned_tid, m)
    else if (m.thread temp).freed = true then .error .useAfterFree
    else if (m.thread temp).state = .new ∧ (m.thread m.RUNNING_THREAD).state ≠ .recover then
      resumeWith pass { m.setState temp .recover with RUNNING_THREAD := temp }
    else .ok (some returned_tid, m)

/-- What follows `getcontext` in `thread_yield` and `thread_sleep`, when suspending and when
resuming. -/
def afterGetcontext : Nat → Machine → Tid → Nat → Except Crash (Option Tid × Machine)
  | 0, _, _, _ => .error .endless
  | fuel + 1, m, returned_tid, temp =>
    if (m.thread m.RUNNING_THREAD).flag then
      match m.exitSelf with
      | .error crash => .error crash
      | .ok (some m') => resumeWith (afterGetcontext fuel) m'
      | .ok none => afterFlag (afterGetcontext fuel) m returned_tid temp
    else afterFlag (afterGetcontext fuel) m returned_tid temp

/-- A switch cannot pass through more threads than exist. -/
def fuel (m : Machine) : Nat := m.allocated + 2

/-- `RUNNING_THREAD->state = NEW_STATE; getcontext(...)` and what follows. -/
def suspend (m : Machine) (returned_tid : Tid) (temp : Nat) :
    Except Crash (Option Tid × Machine) :=
  let m' := m.modify m.RUNNING_THREAD fun t =>
    { t with state := .new, thread_context := .switched returned_tid temp }
  afterGetcontext m'.fuel m' returned_tid temp

/-- Takes the first ready thread off its list. -/
def popReady (m : Machine) (temp : Nat) : Machine :=
  { m with READY_HEAD := m.next temp }.setNext temp none

/-- `thread_yield`. The value belongs to the thread that runs afterwards. -/
def threadYield (m : Machine) (want_tid : Tid) : Except Crash (Option Tid × Machine) :=
  if want_tid = THREAD_ANY then
    match m.READY_HEAD with
    | none => .ok (some THREAD_NONE, m)
    | some temp =>
      match (m.popReady temp).insertThreadToReady m.RUNNING_THREAD with
      | .error crash => .error crash
      | .ok m' => m'.suspend (m.thread temp).tid temp
  else if want_tid = THREAD_SELF ∨ want_tid = (m.thread m.RUNNING_THREAD).tid then
    .ok (some (m.thread m.RUNNING_THREAD).tid, m.setState m.RUNNING_THREAD .recover)
  else if want_tid > THREAD_MAX_THREADS - 1 ∨ want_tid < THREAD_FAILED then
    .ok (some THREAD_INVALID, m)
  else if want_tid < 0 then .error .badIndex
  else if m.thread_id_array want_tid.toNat = false then .ok (some THREAD_INVALID, m)
  else
    match m.READY_HEAD with
    | none => .error .nullPointer
    | some first =>
      match Library.findNode m.next (fun p => (m.thread p).tid == want_tid) m.allocated first
          first with
      | none => .error .nullPointer
      | some (prev, temp) =>
        let m₁ := if (m.thread first).tid = want_tid then { m with READY_HEAD := m.next first }
          else m.setNext prev (m.next temp)
        match (m₁.setNext temp none).insertThreadToReady m.RUNNING_THREAD with
        | .error crash => .error crash
        | .ok m' => m'.suspend (m.thread temp).tid temp

/-- `thread_sleep`; `none` is a null queue. -/
def threadSleep (m : Machine) (queue : Option Nat) : Except Crash (Option Tid × Machine) :=
  match queue, m.READY_HEAD with
  | none, _ => .ok (some THREAD_INVALID, m)
  | some _, none => .ok (some THREAD_NONE, m)
  | some queue, some temp =>
    match (m.popReady temp).insertThreadToWait m.RUNNING_THREAD queue with
    | .error crash => .error crash
    | .ok m' => m'.suspend (m.thread temp).tid temp

/-- `thread_wakeup`. -/
def threadWakeup (m : Machine) (queue : Option Nat) (all : Int) : Except Crash (Int × Machine) :=
  match queue with
  | none => .ok (0, m)
  | some queue =>
    match (m.queue queue).wait_head with
    | none => .ok (0, m)
    | some temp =>
      let size := (m.queue queue).size
      if all = 0 then
        if size = 1 then
          match m.insertThreadToReady temp with
          | .error crash => .error crash
          | .ok m' => .ok (1, { m' with queue := Function.update m'.queue queue ⟨none, size⟩ })
        else
          let m' := { m with queue := Function.update m.queue queue ⟨m.next temp, size⟩ }
          match (m'.setNext temp none).insertThreadToReady temp with
          | .error crash => .error crash
          | .ok m'' => .ok (1, m'')
      else if all = 1 then
        match m.insertThreadToReady temp with
        | .error crash => .error crash
        | .ok m' => .ok (size, { m' with queue := Function.update m'.queue queue ⟨none, 0⟩ })
      else .ok (0, m)

/-- `thread_exit`. -/
def threadExit (m : Machine) (tid : Tid) : Except Crash (Option Tid × Machine) :=
  if tid = THREAD_SELF then
    match m.exitSelf with
    | .error crash => .error crash
    | .ok none => .ok (some THREAD_NONE, m)
    | .ok (some m') => resumeWith (afterGetcontext m'.fuel) m'
  else if tid = THREAD_ANY then
    match m.READY_HEAD with
    | none => .ok (some THREAD_NONE, m)
    | some temp => .ok (some (m.thread temp).tid, m.modify temp fun t => { t with flag := true })
  else if tid > THREAD_MAX_THREADS - 1 ∨ tid < THREAD_FAILED then .ok (some THREAD_INVALID, m)
  else if tid < 0 then .error .badIndex
  else if m.thread_id_array tid.toNat = false then .ok (some THREAD_INVALID, m)
  else
    match m.READY_HEAD with
    | none => .ok (some THREAD_NONE, m)
    | some first =>
      match Library.findNode m.next (fun p => (m.thread p).tid == tid) m.allocated first first with
      | none => .error .nullPointer
      | some (_, temp) =>
        .ok (some (m.thread temp).tid, m.modify temp fun t => { t with flag := true })

/-- `thread_init`. The first block is the initial thread. -/
def threadInit (thread : Nat → Thread) : Machine where
  thread := Function.update thread 0 ⟨.stub, 0, .new, none, false, false, false⟩
  allocated := 1
  READY_HEAD := none
  RUNNING_THREAD := 0
  TO_DELETE_THREAD := none
  thread_id_array := Function.update (fun _ => false) 0 true
  queue := fun _ => ⟨none, 0⟩

end Machine

end Ece344Lab.Threads
