import SimpleKernel.Model.Basic
import SimpleKernel.Shared.LockProgram

/-! The spin locks of the task layer: the order in which each function of the task manager, the mutex
and `sys_futex` takes and releases them. A branch on the state of the tasks may go either way. -/

namespace SimpleKernel.Locking

/-- `futex_lock_`, the `cpu_sched.lock` of each core, and `task_table_lock_`. -/
inductive Lock (N : CoreCount) where
  | futex
  | sched (c : N.Core)
  | table
  deriving DecidableEq, Repr

abbrev Program (N : CoreCount) := LockProgram N.Core (Lock N)

variable {N : CoreCount}

open LockProgram (guarded optionally forEach)

/-! ## Scheduling -/

/-- Without a task to run `Schedule` returns, and the running task may also be the next one. The lock
is released before `switch_to`. -/
def schedule : Program N :=
  .coreId fun c => .lock (.sched c) >>
    .choice (.unlock (.sched c)) (.unlock (.sched c) >> optionally .switchTo)

/-- `Block(cpu_sched, resource_id)` is called with the lock of `cpu_sched`. -/
def blockIn (_ : N.Core) : Program N := .skip

def block : Program N :=
  (.coreId fun c => guarded (.sched c) (blockIn c)) >> schedule

/-- `Wakeup(cpu_sched, resource_id)`, with the lock of `cpu_sched` too. -/
def wakeupIn (_ : N.Core) : Program N := .skip

def wakeup : Program N :=
  forEach (fun i => guarded (.sched i) (wakeupIn i)) (List.finRange N.val)

/-- `WakeupOne` returns at the first core with a task that waits. -/
def wakeupOneFrom : List N.Core → Program N
  | [] => .skip
  | i :: rest => guarded (.sched i) .skip >> optionally (wakeupOneFrom rest)

def wakeupOne : Program N := wakeupOneFrom (List.finRange N.val)

/-- The locks of two cores are taken in the order of the cores. -/
def balance : Program N :=
  .coreId fun currentCore => .anyCore fun maxCore =>
    if maxCore = currentCore then .skip
    else
      let firstCore := if currentCore < maxCore then currentCore else maxCore
      let secondCore := if currentCore < maxCore then maxCore else currentCore
      optionally (guarded (.sched firstCore) (guarded (.sched secondCore) .skip))

def tickUpdate : Program N :=
  (.coreId fun c => guarded (.sched c) .skip) >> optionally balance >> optionally schedule

/-! ## Tasks -/

/-- The idle task of the core is new. -/
def initCurrentCore : Program N := .coreId fun c => guarded (.sched c) .spawn

/-- With a full table the task is not added. Its affinity selects the core. -/
def addTask : Program N :=
  guarded .table .skip >>
    optionally (.anyCore fun targetCore => guarded (.sched targetCore) (optionally .spawn))

def findTask : Program N := guarded .table .skip

def reapTask : Program N := optionally (guarded .table .skip)

def getThreadGroup : Program N := guarded .table .skip

def reparentChildren : Program N := optionally (guarded .table .skip)

/-- A group leader leaves its children to the init task while it holds the lock of its core. -/
def exit : Program N :=
  (.coreId fun c => guarded (.sched c) (optionally reparentChildren)) >>
    optionally wakeup >> schedule

/-- A look at the children, under both locks. -/
def waitScan : Program N :=
  .coreId fun c => guarded (.sched c) (guarded .table (optionally (blockIn c)))

/-- Rounds in which the task blocks, and the last one, which may have found a child to reap. -/
def wait : Program N :=
  .loop (waitScan >> schedule) >> waitScan >> optionally (guarded .table .skip)

/-! ## Signals and sleep -/

def checkPendingSignals : Program N := optionally exit

def sendSignal : Program N := optionally (guarded .table .skip >> optionally wakeup)

/-- The time is zero, or there is no room among the sleeping tasks, or the task sleeps. -/
def sleep : Program N :=
  .choice schedule
    ((.coreId fun c => guarded (.sched c) .skip) >> optionally (schedule >> checkPendingSignals))

/-! ## Mutex and futex -/

def mutexAttempt : Program N := .coreId fun c => guarded (.sched c) (optionally (blockIn c))

/-- Without the fast path there are rounds in which the task blocks. The mutex may be taken in the
last one before or after the task has blocked. -/
def mutexLock : Program N :=
  optionally (.loop (mutexAttempt >> schedule) >> mutexAttempt >> optionally schedule)

def mutexUnLock : Program N := optionally wakeupOne

/-- `futex_lock_` is released before the task blocks, and held over a wakeup. -/
def sysFutex : Program N :=
  .choice (guarded .futex .skip >> optionally block) (optionally (guarded .futex wakeup))

/-- The functions that a task or an interrupt calls. -/
inductive Operation where
  | initCurrentCore | addTask | findTask | reapTask | getThreadGroup
  | schedule | tickUpdate | balance
  | block | wakeup | wakeupOne | wait | exit
  | sleep | sendSignal | checkPendingSignals
  | mutexLock | mutexUnLock | sysFutex
  deriving DecidableEq, Repr

def Operation.program : Operation → Program N
  | .initCurrentCore => Locking.initCurrentCore
  | .addTask => Locking.addTask
  | .findTask => Locking.findTask
  | .reapTask => Locking.reapTask
  | .getThreadGroup => Locking.getThreadGroup
  | .schedule => Locking.schedule
  | .tickUpdate => Locking.tickUpdate
  | .balance => Locking.balance
  | .block => Locking.block
  | .wakeup => Locking.wakeup
  | .wakeupOne => Locking.wakeupOne
  | .wait => Locking.wait
  | .exit => Locking.exit
  | .sleep => Locking.sleep
  | .sendSignal => Locking.sendSignal
  | .checkPendingSignals => Locking.checkPendingSignals
  | .mutexLock => Locking.mutexLock
  | .mutexUnLock => Locking.mutexUnLock
  | .sysFutex => Locking.sysFutex

/-- A correct lock lets one core in at a time, and disables the interrupts of that core. -/
def lockingSystem (N : CoreCount) : Transition (LockMachine N.Core (Lock N))
    (LockAction N.Core Operation) :=
  lockSystem Operation.program

end SimpleKernel.Locking
