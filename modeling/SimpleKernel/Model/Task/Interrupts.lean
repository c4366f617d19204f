import SimpleKernel.Model.Task.Machine

/-! The timer interrupts of the cores. The handler runs on the stack of the code that it interrupts,
which may be anywhere outside the critical sections: a spin lock disables the interrupts of its core
and restores them when it is released. -/

namespace SimpleKernel.TaskManager

open VirtualMemory (CpuIo Allocator)

/-- A `TimerHandler` that has not returned. `ticked` says that its `TickUpdate` has returned and that
it has called `CheckPendingSignals`. -/
structure TimerFrame (N : CoreCount) where
  ticked : Bool := false
  interrupted : Pc N
  deriving DecidableEq, Repr

/-- `handlers c` are the timer handlers on the stack of core `c`, the innermost first, and
`saved t` those that were on it when the context of the task was saved. `started` are the tasks
that have run before: a new one enables the interrupts (`kernel_thread_bootstrap`), whereas
`switch_to` leaves them as they are. -/
structure InterruptMachine (N : CoreCount) where
  machine : Machine N
  handlers : N.Core → List (TimerFrame N) := fun _ => []
  saved : TaskPtr → List (TimerFrame N) := fun _ => []
  enabled : N.Core → Bool := fun _ => false
  started : TaskPtr → Bool := fun _ => false

/-- `run` is a step of the code of a task or of the task manager, `handler` what the timer handler
does when a function that it has called has returned. A system call is executed with interrupts
disabled: `setInterrupts` is its begin and its end. -/
inductive InterruptAction (N : CoreCount) where
  | run (a : Action N)
  | timer (c : N.Core)
  | handler (c : N.Core)
  | setInterrupts (c : N.Core) (enabled : Bool)

variable {N : CoreCount}

def Call.isStep : Call → Bool
  | .step _ => true
  | _ => false

namespace InterruptMachine

/-- `switch_to`, as far as it concerns the interrupts. -/
def switchTo (m : InterruptMachine N) (c : N.Core) (current next : TaskPtr) : InterruptMachine N :=
  let saved := Function.update m.saved current (m.handlers c)
  { m with
    saved := saved
    handlers := Function.update m.handlers c (saved next)
    enabled := Function.update m.enabled c (m.enabled c || !m.started next)
    started := Function.update (Function.update m.started current true) next true }

/-- The context switch, if the step is one. -/
def switched (m : InterruptMachine N) (a : Action N) : InterruptMachine N :=
  match a.call, m.machine.pc a.core with
  | .step _, .switchTo current next _ => m.switchTo a.core current next
  | _, _ => m

variable (A : CpuIo) (al : Allocator A) (tick : ℕ)

/-- The code of a task calls nothing while a handler runs on its stack. -/
def runStep (m : InterruptMachine N) (a : Action N) : Option (InterruptMachine N) :=
  if a.call.isStep ∨ m.handlers a.core = [] then
    (next A al tick m.machine a).map fun machine => { m.switched a with machine }
  else none

/-- The interrupt is taken, and the handler calls `TickUpdate`. -/
def timerStep (m : InterruptMachine N) (c : N.Core) : Option (InterruptMachine N) :=
  if m.enabled c ∧ m.machine.pc c ≠ .off then
    (next A al tick (m.machine.goto c .task) ⟨c, .tickUpdate⟩).map fun machine =>
      { m with
        machine := machine
        handlers := Function.update m.handlers c ({ interrupted := m.machine.pc c } :: m.handlers c)
        enabled := Function.update m.enabled c false }
  else none

/-- After `TickUpdate` the handler calls `CheckPendingSignals`, and after that it returns. -/
def handlerStep (m : InterruptMachine N) (c : N.Core) : Option (InterruptMachine N) :=
  match m.machine.pc c, m.handlers c with
  | .task, h :: rest =>
    if h.ticked then
      some { m with
        machine := m.machine.goto c h.interrupted
        handlers := Function.update m.handlers c rest
        enabled := Function.update m.enabled c true }
    else
      (next A al tick m.machine ⟨c, .checkPendingSignals⟩).map fun machine =>
        { m with
          machine := machine
          handlers := Function.update m.handlers c ({ h with ticked := true } :: rest) }
  | _, _ => none

def step (m : InterruptMachine N) : InterruptAction N → Option (InterruptMachine N)
  | .run a => runStep A al tick m a
  | .timer c => timerStep A al tick m c
  | .handler c => handlerStep A al tick m c
  | .setInterrupts c enabled =>
    if m.machine.pc c = .task ∧ m.handlers c = [] then
      some { m with enabled := Function.update m.enabled c enabled }
    else none

end InterruptMachine

def interruptSystem (A : CpuIo) (al : Allocator A) (tick : ℕ) :
    Transition (InterruptMachine N) (InterruptAction N) where
  init m := m.machine.Initial ∧ (∀ c, m.handlers c = []) ∧ (∀ t, m.saved t = []) ∧
    ∀ t, m.started t = false
  step := InterruptMachine.step A al tick

end SimpleKernel.TaskManager
