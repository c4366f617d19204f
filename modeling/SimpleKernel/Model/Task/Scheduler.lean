import Mathlib.Data.List.AList
import SimpleKernel.Model.Task.ControlBlock

/-! The schedulers of a core, and the data under its scheduler lock (`fifo_scheduler.hpp`,
`rr_scheduler.hpp`, `idle_scheduler.hpp`, `CpuSchedData`). -/

namespace SimpleKernel

structure Stats where
  totalEnqueues : ℕ := 0
  totalDequeues : ℕ := 0
  totalPicks : ℕ := 0
  totalPreemptions : ℕ := 0
  deriving DecidableEq, Repr

structure FifoScheduler where
  readyQueue : List TaskPtr := []
  stats : Stats := {}
  deriving DecidableEq, Repr

structure RoundRobinScheduler where
  readyQueue : List TaskPtr := []
  stats : Stats := {}
  deriving DecidableEq, Repr

structure IdleScheduler where
  idleTask : Option TaskPtr := none
  stats : Stats := {}
  deriving DecidableEq, Repr

/-! ## `Enqueue` and `PickNext` -/

/-- A full queue drops the task. -/
def FifoScheduler.enqueue (s : FifoScheduler) (t : TaskPtr) : FifoScheduler :=
  if maxReadyTasks ≤ s.readyQueue.length then s
  else
    { readyQueue := s.readyQueue ++ [t]
      stats := { s.stats with totalEnqueues := s.stats.totalEnqueues + 1 } }

def FifoScheduler.pickNext (s : FifoScheduler) : Option TaskPtr × FifoScheduler :=
  match s.readyQueue with
  | [] => (none, s)
  | t :: rest =>
    (some t, { readyQueue := rest, stats := { s.stats with totalPicks := s.stats.totalPicks + 1 } })

/-- Like the FIFO queue, but a task that enters gets a new time slice. -/
def RoundRobinScheduler.enqueue (s : RoundRobinScheduler) (t : TaskPtr) (task : TaskControlBlock) :
    RoundRobinScheduler × TaskControlBlock :=
  if maxReadyTasks ≤ s.readyQueue.length then (s, task)
  else
    ({ readyQueue := s.readyQueue ++ [t]
       stats := { s.stats with totalEnqueues := s.stats.totalEnqueues + 1 } },
      task.resetTimeSlice)

def RoundRobinScheduler.pickNext (s : RoundRobinScheduler) :
    Option TaskPtr × RoundRobinScheduler :=
  match s.readyQueue with
  | [] => (none, s)
  | t :: rest =>
    (some t, { readyQueue := rest, stats := { s.stats with totalPicks := s.stats.totalPicks + 1 } })

/-- The one slot is overwritten. -/
def IdleScheduler.enqueue (s : IdleScheduler) (t : TaskPtr) : IdleScheduler :=
  { idleTask := some t, stats := { s.stats with totalEnqueues := s.stats.totalEnqueues + 1 } }

/-- The task stays in the slot. -/
def IdleScheduler.pickNext (s : IdleScheduler) : Option TaskPtr × IdleScheduler :=
  match s.idleTask with
  | none => (none, s)
  | some t => (some t, { s with stats := { s.stats with totalPicks := s.stats.totalPicks + 1 } })

/-! ## `Dequeue` -/

/-- `remove` takes out all copies of the task. -/
def FifoScheduler.dequeue (s : FifoScheduler) (t : TaskPtr) : FifoScheduler :=
  { readyQueue := s.readyQueue.filter (· ≠ t)
    stats := { s.stats with totalDequeues := s.stats.totalDequeues + 1 } }

/-- The first copy is erased. -/
def RoundRobinScheduler.dequeue (s : RoundRobinScheduler) (t : TaskPtr) : RoundRobinScheduler :=
  if t ∈ s.readyQueue then
    { readyQueue := s.readyQueue.erase t
      stats := { s.stats with totalDequeues := s.stats.totalDequeues + 1 } }
  else s

/-! ## The array `schedulers` -/

/-- The three schedulers that `InitCurrentCore` installs, by policy. -/
structure Schedulers where
  realTime : FifoScheduler := {}
  normal : RoundRobinScheduler := {}
  idle : IdleScheduler := {}
  deriving DecidableEq, Repr

namespace Schedulers

def enqueue (s : Schedulers) (policy : SchedPolicy) (t : TaskPtr) (task : TaskControlBlock) :
    Schedulers × TaskControlBlock :=
  match policy with
  | .realTime => ({ s with realTime := s.realTime.enqueue t }, task)
  | .normal =>
    let (normal, task) := s.normal.enqueue t task
    ({ s with normal }, task)
  | .idle => ({ s with idle := s.idle.enqueue t }, task)

/-- The loop of `Schedule` over the schedulers, in the order of their policies. -/
def pickNext (s : Schedulers) : Option TaskPtr × Schedulers :=
  match s.realTime.pickNext with
  | (some t, realTime) => (some t, { s with realTime })
  | (none, _) =>
    match s.normal.pickNext with
    | (some t, normal) => (some t, { s with normal })
    | (none, _) =>
      let (t, idle) := s.idle.pickNext
      (t, { s with idle })

def onPreempted (s : Schedulers) (policy : SchedPolicy) : Schedulers :=
  let count (stats : Stats) : Stats :=
    { stats with totalPreemptions := stats.totalPreemptions + 1 }
  match policy with
  | .realTime => { s with realTime := { s.realTime with stats := count s.realTime.stats } }
  | .normal => { s with normal := { s.normal with stats := count s.normal.stats } }
  | .idle => { s with idle := { s.idle with stats := count s.idle.stats } }

/-- What `schedulers[policy]->OnTimeSliceExpired(task)` does to the task. -/
def onTimeSliceExpired : SchedPolicy → TaskControlBlock → TaskControlBlock
  | .realTime, task => task
  | .normal, task => task.resetTimeSlice
  | .idle, task => task

/-- The result of `OnTimeSliceExpired`: whether the task is enqueued again. -/
def requeues : SchedPolicy → Bool
  | .realTime => true
  | .normal => true
  | .idle => false

/-- The queue of a policy; the idle scheduler has a slot instead. -/
def readyQueue (s : Schedulers) : SchedPolicy → List TaskPtr
  | .realTime => s.realTime.readyQueue
  | .normal => s.normal.readyQueue
  | .idle => []

end Schedulers

/-! ## `CpuSchedData` -/

/-- The pointers of `schedulers` are null until `InitCurrentCore` sets all three of them.
`sleepingTasks` is the array of the priority queue. -/
structure CpuSchedData where
  schedulers : Option Schedulers := none
  sleepingTasks : Array TaskPtr := #[]
  blockedTasks : AList fun _ : ResourceId => List TaskPtr := ∅
  localTick : ℕ := 0
  idleTime : ℕ := 0
  totalSchedules : ℕ := 0
  schedulerStarted : Bool := false

namespace CpuSchedData

def readyQueue (s : CpuSchedData) (policy : SchedPolicy) : List TaskPtr :=
  s.schedulers.elim [] fun schedulers => schedulers.readyQueue policy

def waiting (s : CpuSchedData) (resourceId : ResourceId) : List TaskPtr :=
  (s.blockedTasks.lookup resourceId).getD []

def idleSlot (s : CpuSchedData) : Option TaskPtr :=
  s.schedulers.bind fun schedulers => schedulers.idle.idleTask

end CpuSchedData

structure PerCpu where
  runningTask : Option TaskPtr := none
  idleTask : Option TaskPtr := none
  deriving DecidableEq, Repr

end SimpleKernel
