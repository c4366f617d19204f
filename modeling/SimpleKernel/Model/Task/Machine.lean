import SimpleKernel.Model.Task.Manager
import SimpleKernel.Shared.Transition

/-! The cores that run the operations of the task manager. A core takes one step a critical
section, and the context switch of `Schedule` is a step of its own. A timer interrupt is
taken between two operations. -/

namespace SimpleKernel.TaskManager

open VirtualMemory (CpuIo Allocator)

/-- Where the code of a task goes on after the `Schedule` in which its context was saved. -/
inductive Resume where
  | task
  /-- `Sleep`, which then looks at the pending signals. -/
  | sleep
  /-- The next round of `Wait`. -/
  | wait (args : WaitArgs)
  /-- `Exit`, which does not expect to go on. -/
  | exit
  deriving DecidableEq, Repr

/-- The step that a core executes next. -/
inductive Pc (N : CoreCount) where
  -- before `InitCurrentCore`
  | off
  -- in the code of a task, outside the task manager
  | task
  | schedule (k : Resume)
  | switchTo (current next : TaskPtr) (k : Resume)
  -- the loops of `Wakeup` and `WakeupOne` over the cores
  | wakeup (resourceId : ResourceId) (i : ℕ) (exiting : Bool)
  | wakeupOne (resourceId : ResourceId) (i : ℕ)
  -- the end of `TickUpdate`, with `Balance`
  | tickTail (needPreempt : Bool)
  | balanceScan (i currentLoad maxLoad : ℕ) (maxCore : N.Core) (needPreempt : Bool)
  | balance (source : N.Core) (needPreempt : Bool)
  | preempt (needPreempt : Bool)
  | wait (args : WaitArgs)
  | reap (target : TaskPtr)
  | checkPendingSignals
  -- behind the `Schedule` of `Exit`
  | unreachable
  deriving DecidableEq, Repr

def Resume.pc {N : CoreCount} : Resume → Pc N
  | .task => .task
  | .sleep => .checkPendingSignals
  | .wait args => .wait args
  | .exit => .unreachable

/-- What an operation returned, with the exit status that `Wait` stores. -/
inductive Result where
  | clone (pid : Expected Pid)
  | wait (pid : Expected Pid) (status : Option ℤ)
  | sendSignal (done : Expected Unit)
  | signal (signum : ℕ)
  deriving DecidableEq

/-- `executing c` is the task on whose stack core `c` runs; it changes in `switch_to` only.
`context t` stands for the saved `task_context`. -/
structure Machine (N : CoreCount) where
  kernel : State N
  pc : N.Core → Pc N := fun _ => .off
  executing : N.Core → Option TaskPtr := fun _ => none
  context : TaskPtr → Resume := fun _ => .task
  result : N.Core → Option Result := fun _ => none

/-- `step` is the next step of the operation in progress; `order` is the order in which
`Wait` meets the tasks of the table. -/
inductive Call where
  | initCurrentCore
  | addTask (task : TaskControlBlock)
  | clone (flags : BitVec 64)
  | schedule
  | tickUpdate
  | balance
  | sleep (ms : ℕ)
  | block (resourceId : ResourceId)
  | wakeup (resourceId : ResourceId)
  | wakeupOne (resourceId : ResourceId)
  | wait (args : WaitArgs)
  | exit (exitCode : ℤ)
  | sendSignal (pid : Pid) (signum : ℤ)
  | checkPendingSignals
  | step (order : List TaskPtr)

structure Action (N : CoreCount) where
  core : N.Core
  call : Call

variable {N : CoreCount}

namespace Machine

def goto (m : Machine N) (c : N.Core) (pc : Pc N) : Machine N :=
  { m with pc := Function.update m.pc c pc }

def return' (m : Machine N) (c : N.Core) (result : Result) : Machine N :=
  { m with
    pc := Function.update m.pc c .task
    result := Function.update m.result c (some result) }

/-- The current task, which `Sleep`, `Block`, `Exit` and `Wait` assert to be running. -/
def runningCurrent (m : Machine N) (c : N.Core) : Option TaskPtr :=
  (m.kernel.currentTask c).filter fun t => (m.kernel.tcb t).status = .running

end Machine

open Machine

variable (A : CpuIo) (al : Allocator A) (tick : ℕ)

/-- The critical section of `Exit`, on the way to `Wakeup` and the last `Schedule`. -/
def exitStep (m : Machine N) (c : N.Core) (exitCode : ℤ) : Option (Machine N) :=
  (m.runningCurrent c).map fun t =>
    let (resourceId, kernel) := exit t exitCode m.kernel
    { m with kernel }.goto c (resourceId.elim (.schedule .exit) fun r => .wakeup r 0 true)

def checkPendingSignalsStep (m : Machine N) (c : N.Core) : Option (Machine N) :=
  match checkPendingSignals c m.kernel with
  | ((signum, none), kernel) => some ({ m with kernel }.return' c (.signal signum))
  | ((_, some exitCode), kernel) => exitStep { m with kernel } c exitCode

/-- The first step of an operation, called by the task that core `c` executes. -/
def callStep (m : Machine N) (c : N.Core) : Call → Option (Machine N)
  | .addTask task =>
    if task.status = .unInit then
      some { m with kernel := addTask A c m.kernel.nextTask (m.kernel.create task) }
    else none
  | .clone flags =>
    let (pid, kernel) := clone A al c flags m.kernel
    some ({ m with kernel }.return' c (.clone pid))
  | .schedule => some (m.goto c (.schedule .task))
  | .tickUpdate =>
    let (needPreempt, kernel) := tickUpdate c m.kernel
    some ({ m with kernel }.goto c (.tickTail needPreempt))
  | .balance => some (m.goto c (.balanceScan 0 (normalLoad m.kernel c) 0 c false))
  | .sleep ms =>
    (m.runningCurrent c).map fun t =>
      if ms = 0 then m.goto c (.schedule .task)
      else
        let (slept, kernel) := sleep tick c t ms m.kernel
        { m with kernel }.goto c (if slept then .schedule .sleep else .task)
  | .block resourceId =>
    (m.runningCurrent c).map fun t =>
      { m with kernel := block c t resourceId m.kernel }.goto c (.schedule .task)
  | .wakeup resourceId => some (m.goto c (.wakeup resourceId 0 false))
  | .wakeupOne resourceId => some (m.goto c (.wakeupOne resourceId 0))
  | .wait args => (m.runningCurrent c).map fun _ => m.goto c (.wait args)
  | .exit exitCode => exitStep m c exitCode
  | .sendSignal pid signum =>
    match sendSignal pid signum m.kernel with
    | (.error e, kernel) => some ({ m with kernel }.return' c (.sendSignal (.error e)))
    | (.ok resourceId, kernel) =>
      let m := { m with kernel }.return' c (.sendSignal (.ok ()))
      some (resourceId.elim m fun r => m.goto c (.wakeup r 0 false))
  | .checkPendingSignals => checkPendingSignalsStep m c
  | .initCurrentCore | .step _ => none

/-- A round of `Wait`: the scan of the table and, if no child has terminated, `Block`. -/
def waitStep (m : Machine N) (c : N.Core) (args : WaitArgs) (order : List TaskPtr) :
    Option (Machine N) :=
  (m.kernel.currentTask c).bind fun t =>
    let s := m.kernel
    match waitScan s (s.tcb t) args order false with
    | .target u => some (m.goto c (.reap u))
    | .stopped u => some (m.return' c (.wait (.ok (s.tcb u).pid) (some 0)))
    | .noChild => some (m.return' c (.wait (.error .taskNoChildFound) none))
    | .noneYet =>
      if args.noHang then some (m.return' c (.wait (.ok 0) none))
      else
        (m.runningCurrent c).map fun t =>
          { m with kernel := block c t (.of .childExit (s.tcb t).pid) s }.goto c
            (.schedule (.wait args))

/-- One round of the loop in which `Balance` looks for the longest queue, without a lock. -/
def balanceScanStep (m : Machine N) (c : N.Core) (i currentLoad maxLoad : ℕ) (maxCore : N.Core)
    (needPreempt : Bool) : Machine N :=
  if h : i < N.val then
    let load := normalLoad m.kernel ⟨i, h⟩
    if i ≠ c.val ∧ maxLoad < load then
      m.goto c (.balanceScan (i + 1) currentLoad load ⟨i, h⟩ needPreempt)
    else m.goto c (.balanceScan (i + 1) currentLoad maxLoad maxCore needPreempt)
  else if maxCore = c ∨ maxLoad ≤ currentLoad + 1 then m.goto c (.preempt needPreempt)
  else m.goto c (.balance maxCore needPreempt)

def pcStep (m : Machine N) (c : N.Core) (order : List TaskPtr) : Pc N → Option (Machine N)
  | .schedule k =>
    match schedule c m.kernel with
    | (some (current, next), kernel) => some ({ m with kernel }.goto c (.switchTo current next k))
    | (none, kernel) => some ({ m with kernel }.goto c k.pc)
  | .switchTo current next k =>
    let context := Function.update m.context current k
    some { m with
      executing := Function.update m.executing c (some next)
      context := context
      pc := Function.update m.pc c (context next).pc }
  | .wakeup resourceId i exiting =>
    if h : i < N.val then
      some ({ m with kernel := wakeup ⟨i, h⟩ resourceId m.kernel }.goto c
        (.wakeup resourceId (i + 1) exiting))
    else some (m.goto c (if exiting then .schedule .exit else .task))
  | .wakeupOne resourceId i =>
    if h : i < N.val then
      let (woken, kernel) := wakeupOne ⟨i, h⟩ resourceId m.kernel
      some ({ m with kernel }.goto c (if woken then .task else .wakeupOne resourceId (i + 1)))
    else some (m.goto c .task)
  | .tickTail needPreempt =>
    let d := m.kernel.cpuSchedulers c
    if d.schedulerStarted ∧ d.localTick % 64 = 0 then
      some (m.goto c (.balanceScan 0 (normalLoad m.kernel c) 0 c needPreempt))
    else some (m.goto c (.preempt needPreempt))
  | .balanceScan i currentLoad maxLoad maxCore needPreempt =>
    some (balanceScanStep m c i currentLoad maxLoad maxCore needPreempt)
  | .balance source needPreempt =>
    some ({ m with kernel := balance c source m.kernel }.goto c (.preempt needPreempt))
  | .preempt needPreempt =>
    some (m.goto c (if needPreempt ∧ (m.kernel.cpuSchedulers c).schedulerStarted then
      .schedule .task else .task))
  | .wait args => if order.isPerm m.kernel.tasks then waitStep m c args order else none
  | .reap target =>
    let task := m.kernel.tcb target
    some ({ m with kernel := reap A target m.kernel }.return' c
      (.wait (.ok task.pid) (some task.aux.exitCode)))
  | .checkPendingSignals => checkPendingSignalsStep m c
  | .off | .task | .unreachable => none

/-- The successor of a state; `none` if the core cannot take the step. -/
def next (m : Machine N) (a : Action N) : Option (Machine N) :=
  match a.call with
  | .initCurrentCore =>
    if m.pc a.core = .off then
      let kernel := initCurrentCore a.core m.kernel
      some { m.goto a.core .task with
        kernel := kernel
        executing := Function.update m.executing a.core (kernel.currentTask a.core) }
    else none
  | .step order => pcStep A m a.core order (m.pc a.core)
  | call => if m.pc a.core = .task then callStep A al tick m a.core call else none

def Machine.Initial (m : Machine N) : Prop := ∃ memory, m = { kernel := { memory } }

def system : Transition (Machine N) (Action N) where
  init := Machine.Initial
  step := next A al tick

end SimpleKernel.TaskManager
