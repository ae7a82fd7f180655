import TvaMpc.Machinery.Transition
import Mathlib.Logic.Function.Basic

/-!
# Service/Handoff — how the runtime hands tasks to its worker threads

One caller starts the workers (`setup_threads`), makes runtime calls and destroys the runtime; each
worker has three mutexes, which any thread may release.  A state has the program counters of all of
them, and a run the events: which task is installed, executed, and which call returns.
-/

namespace Tva.Service.Handoff

open Machinery Function

/-! ## The threads -/

/-- Where a worker is.  `awaitTask` is the lock of `task_execute_mutex` before the loop and at its
end, `test` the condition of the loop. -/
inductive WorkerPc where
  | unborn
  | lockFinished
  | lockExecute
  | countDown
  | awaitTask
  | test
  | execute
  | executing (task : ℕ)
  | unlockFinished
  | unlockSet
  | exited
  deriving DecidableEq

/-- Where the caller is: in `setup_threads` (`create`, `awaitSetup`), between two calls (`idle`), in
a runtime call (from `lockSet` to `lockFinished`) or in `~RunTime` (from `stop` on). -/
inductive CallerPc where
  | create (k : ℕ)
  | awaitSetup
  | idle
  | lockSet (k : ℕ)
  | reset (k : ℕ)
  | install (k : ℕ)
  | unlockExecute (k : ℕ)
  | lockFinished (k : ℕ)
  | stop
  | release (k : ℕ)
  | join (k : ℕ)
  | done
  deriving DecidableEq

/-- What belongs to a worker: its program counter, whether its mutexes are locked, and its task (the
number of the call that installed it). -/
structure Slot where
  pc : WorkerPc
  taskSet : Bool
  taskExecute : Bool
  taskFinished : Bool
  task : Option ℕ
  deriving DecidableEq

structure State where
  caller : CallerPc
  call : ℕ
  slots : ℕ → Slot
  counter : ℕ
  keepRunning : Bool

/-- What a run shows. -/
inductive Event where
  /-- `tasks[i].reset()`. -/
  | reset (i : ℕ)
  /-- The assignment of a new task to `tasks[i]`, in a call. -/
  | install (i call : ℕ)
  /-- Worker `i` enters `execute` of a task. -/
  | start (i task : ℕ)
  /-- Worker `i` leaves it. -/
  | finish (i task : ℕ)
  /-- The call returns. -/
  | returned (call : ℕ)
  /-- `keep_running = false`. -/
  | stopped
  deriving DecidableEq

/-- Put what belongs to worker `i` into another state. -/
def State.put (s : State) (i : ℕ) (slot : Slot) : State := { s with slots := update s.slots i slot }

/-- The caller goes on to another place. -/
def State.goto (s : State) (caller : CallerPc) : State := { s with caller := caller }

/-- A step of the caller, with `threadsNum` workers, who makes `calls` calls before the
destructor. -/
def callerStep (threadsNum calls : ℕ) (s : State) : Option (State × Option Event) :=
  match s.caller with
  | .create k =>
      if k < threadsNum then
        some ((s.put k ⟨.lockFinished, false, false, false, none⟩).goto (.create (k + 1)), none)
      else some (s.goto .awaitSetup, none)
  | .awaitSetup => if s.counter = 0 then some (s.goto .idle, none) else none
  | .idle => some (s.goto (if s.call < calls then .lockSet 0 else .stop), none)
  | .lockSet k =>
      if k < threadsNum then
        if (s.slots k).taskSet then none
        else some ((s.put k { s.slots k with taskSet := true }).goto (.reset k), none)
      else some (s.goto (.lockFinished 0), none)
  | .reset k =>
      some ((s.put k { s.slots k with task := none }).goto (.install k), some (.reset k))
  | .install k =>
      some ((s.put k { s.slots k with task := some s.call }).goto (.unlockExecute k),
        some (.install k s.call))
  | .unlockExecute k =>
      some ((s.put k { s.slots k with taskExecute := false }).goto (.lockSet (k + 1)), none)
  | .lockFinished k =>
      if k < threadsNum then
        if (s.slots k).taskFinished then none
        else some ((s.put k { s.slots k with taskFinished := true }).goto (.lockFinished (k + 1)),
          none)
      else some ({ s.goto .idle with call := s.call + 1 }, some (.returned s.call))
  | .stop => some ({ s.goto (.release 0) with keepRunning := false }, some .stopped)
  | .release k =>
      if k < threadsNum then
        some ((s.put k { s.slots k with taskExecute := false }).goto (.join k), none)
      else some (s.goto .done, none)
  | .join k => if (s.slots k).pc = .exited then some (s.goto (.release (k + 1)), none) else none
  | .done => none

/-- A step of worker `i`, on what belongs to it.  An `execute` without a task is none. -/
def Slot.step (i : ℕ) (keepRunning : Bool) (slot : Slot) : Option (Slot × Option Event) :=
  match slot.pc with
  | .unborn => none
  | .lockFinished =>
      if slot.taskFinished then none
      else some ({ slot with pc := .lockExecute, taskFinished := true }, none)
  | .lockExecute =>
      if slot.taskExecute then none
      else some ({ slot with pc := .countDown, taskExecute := true }, none)
  | .countDown => some ({ slot with pc := .awaitTask }, none)
  | .awaitTask =>
      if slot.taskExecute then none else some ({ slot with pc := .test, taskExecute := true }, none)
  | .test => some ({ slot with pc := if keepRunning then .execute else .exited }, none)
  | .execute =>
      slot.task.map fun task => ({ slot with pc := .executing task }, some (.start i task))
  | .executing task => some ({ slot with pc := .unlockFinished }, some (.finish i task))
  | .unlockFinished => some ({ slot with pc := .unlockSet, taskFinished := false }, none)
  | .unlockSet => some ({ slot with pc := .awaitTask, taskSet := false }, none)
  | .exited => none

/-- A step of worker `i`: `countDown` is the one that decrements the counter. -/
def workerStep (i : ℕ) (s : State) : Option (State × Option Event) :=
  ((s.slots i).step i s.keepRunning).map fun (slot, e) =>
    ({ s.put i slot with
        counter := if (s.slots i).pc = .countDown then s.counter - 1 else s.counter }, e)

/-- A step of the caller or of one of the workers. -/
inductive Step (threadsNum calls : ℕ) : State → Option Event → State → Prop where
  | caller {s s' : State} {e : Option Event} (h : callerStep threadsNum calls s = some (s', e)) :
      Step threadsNum calls s e s'
  | worker {s s' : State} {e : Option Event} {i : ℕ} (hi : i < threadsNum)
      (h : workerStep i s = some (s', e)) : Step threadsNum calls s e s'

/-- **The runtime** with `threadsNum` workers, whose caller makes `calls` calls. -/
def runtime (threadsNum calls : ℕ) : System State Event where
  init :=
    { caller := .create 0
      call := 0
      slots := fun _ => ⟨.unborn, false, false, false, none⟩
      counter := threadsNum
      keepRunning := true }
  Step := Step threadsNum calls

/-! ## What the events of a worker are -/

/-- The worker that an event belongs to. -/
def Event.worker? : Event → Option ℕ
  | reset i | install i _ | start i _ | finish i _ => some i
  | returned _ | stopped => none

/-- The events of worker `i`, in order: in every call its task is reset, installed, started and
finished. -/
def cycle (i n : ℕ) : Event :=
  match n % 4 with
  | 0 => .reset i
  | 1 => .install i (n / 4)
  | 2 => .start i (n / 4)
  | _ => .finish i (n / 4)

/-- The first `n` of them. -/
def cycles (i n : ℕ) : List Event := (List.range n).map (cycle i)

/-- The events of worker `i` among all. -/
def eventsOf (i : ℕ) (h : List Event) : List Event := h.filter fun e => e.worker? = some i

section State

variable {s : State} {i j : ℕ} {slot : Slot} {caller : CallerPc}

@[simp] theorem put_self : (s.put i slot).slots i = slot := update_self _ _ _

@[simp] theorem put_of_ne (h : j ≠ i) : (s.put i slot).slots j = s.slots j := update_of_ne h _ _

@[simp] theorem put_caller : (s.put i slot).caller = s.caller := rfl

@[simp] theorem put_call : (s.put i slot).call = s.call := rfl

@[simp] theorem put_counter : (s.put i slot).counter = s.counter := rfl

@[simp] theorem put_keepRunning : (s.put i slot).keepRunning = s.keepRunning := rfl

@[simp] theorem goto_caller : (s.goto caller).caller = caller := rfl

@[simp] theorem goto_call : (s.goto caller).call = s.call := rfl

@[simp] theorem goto_slots : (s.goto caller).slots = s.slots := rfl

@[simp] theorem goto_counter : (s.goto caller).counter = s.counter := rfl

@[simp] theorem goto_keepRunning : (s.goto caller).keepRunning = s.keepRunning := rfl

end State

end Tva.Service.Handoff
