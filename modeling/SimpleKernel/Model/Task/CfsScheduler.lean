import SimpleKernel.Model.Task.Scheduler
import SimpleKernel.Shared.Transition

/-! The completely fair scheduler (`cfs_scheduler.hpp`), and its use on a fixed set of tasks. -/

namespace SimpleKernel

/-- `sched_data.cfs`. -/
structure CfsData where
  vruntime : ℕ := 0
  weight : ℕ := 0
  deriving DecidableEq, Repr

/-- `readyQueue` is the multiset, in its order. -/
structure CfsScheduler where
  readyQueue : List TaskPtr := []
  minVruntime : ℕ := 0
  stats : Stats := {}
  deriving DecidableEq, Repr

namespace CfsScheduler

def defaultWeight : ℕ := 1024

def minGranularity : ℕ := 10

/-- `VruntimeCompare`: by `vruntime`, and by address if that is the same. -/
def vruntimeCompare (data : TaskPtr → CfsData) (a b : TaskPtr) : Bool :=
  if (data a).vruntime ≠ (data b).vruntime then (data a).vruntime < (data b).vruntime else a < b

/-- `ready_queue_.insert`: behind the tasks that are not greater. -/
def insert (data : TaskPtr → CfsData) (t : TaskPtr) : List TaskPtr → List TaskPtr
  | [] => [t]
  | u :: rest =>
    if vruntimeCompare data t u then t :: u :: rest else u :: insert data t rest

/-- `Enqueue` of a task. A full queue drops it. -/
def enqueue (s : CfsScheduler) (data : TaskPtr → CfsData) (t : TaskPtr) :
    CfsScheduler × (TaskPtr → CfsData) :=
  let cfs := data t
  let cfs := if cfs.vruntime = 0 then { cfs with vruntime := s.minVruntime } else cfs
  let cfs := if cfs.weight = 0 then { cfs with weight := defaultWeight } else cfs
  let data := Function.update data t cfs
  if maxReadyTasks ≤ s.readyQueue.length then (s, data)
  else
    ({ s with
        readyQueue := insert data t s.readyQueue
        stats := { s.stats with totalEnqueues := s.stats.totalEnqueues + 1 } }, data)

def pickNext (s : CfsScheduler) (data : TaskPtr → CfsData) : Option TaskPtr × CfsScheduler :=
  match s.readyQueue with
  | [] => (none, s)
  | next :: rest =>
    (some next, {
      readyQueue := rest
      minVruntime := (data (rest.headD next)).vruntime
      stats := { s.stats with totalPicks := s.stats.totalPicks + 1 } })

/-- `ready_queue_.find`: the first task that is not less, if it is not greater either. -/
def find (data : TaskPtr → CfsData) (t : TaskPtr) (queue : List TaskPtr) : Option ℕ :=
  (queue.findIdx? fun u => !vruntimeCompare data u t).filter fun i =>
    !(queue[i]?).any (vruntimeCompare data t)

def dequeue (s : CfsScheduler) (data : TaskPtr → CfsData) (t : TaskPtr) : CfsScheduler :=
  match find data t s.readyQueue with
  | none => s
  | some i =>
    { s with
      readyQueue := s.readyQueue.eraseIdx i
      stats := { s.stats with totalDequeues := s.stats.totalDequeues + 1 } }

/-- `(kDefaultWeight * 1000) / weight`. -/
def delta (cfs : CfsData) : ℕ := defaultWeight * 1000 / cfs.weight

/-- The result tells whether the current task is preempted. -/
def onTick (s : CfsScheduler) (data : TaskPtr → CfsData) (current : TaskPtr) :
    Bool × CfsScheduler × (TaskPtr → CfsData) :=
  let cfs := data current
  let cfs := { cfs with vruntime := (cfs.vruntime + delta cfs) % 2 ^ 64 }
  let data := Function.update data current cfs
  match s.readyQueue with
  | [] => (false, s, data)
  | next :: _ =>
    if ((data next).vruntime + minGranularity) % 2 ^ 64 < cfs.vruntime then
      (true, { s with stats :=
        { s.stats with totalPreemptions := s.stats.totalPreemptions + 1 } }, data)
    else (false, s, data)

end CfsScheduler

/-- A scheduler and the tasks that it is used for. `fresh` are the ones still to be enqueued, and
`preempted` is the last result of `OnTick` for the current task. -/
structure CfsRun where
  tasks : List TaskPtr
  data : TaskPtr → CfsData
  scheduler : CfsScheduler := {}
  fresh : List TaskPtr
  current : Option TaskPtr := none
  preempted : Bool := false

inductive CfsAction where
  | enqueueFresh
  | pickNext
  | onTick
  | enqueue
  deriving DecidableEq, Repr

namespace CfsRun

/-- The tasks are enqueued first. Then one is picked, has ticks until it is preempted or earlier, and
is enqueued again. -/
def step (r : CfsRun) : CfsAction → Option CfsRun
  | .enqueueFresh =>
    match r.fresh with
    | [] => none
    | t :: fresh =>
      let (scheduler, data) := r.scheduler.enqueue r.data t
      some { r with scheduler, data, fresh }
  | .pickNext =>
    match r.fresh, r.current with
    | [], none =>
      let (current, scheduler) := r.scheduler.pickNext r.data
      some { r with scheduler, current, preempted := false }
    | _, _ => none
  | .onTick =>
    match r.current, r.preempted with
    | some t, false =>
      let (preempted, scheduler, data) := r.scheduler.onTick r.data t
      some { r with scheduler, data, preempted }
    | _, _ => none
  | .enqueue =>
    match r.current with
    | none => none
    | some t =>
      let (scheduler, data) := r.scheduler.enqueue r.data t
      some { r with scheduler, data, current := none }

def runnable (r : CfsRun) : List TaskPtr := r.current.toList ++ r.scheduler.readyQueue

end CfsRun

/-- New tasks with positive weights, and a new scheduler. -/
def cfsSystem : Transition CfsRun CfsAction where
  init r := r.tasks.Nodup ∧ r.tasks.length ≤ maxReadyTasks ∧
    (∀ t ∈ r.tasks, (r.data t).vruntime = 0 ∧ 0 < (r.data t).weight) ∧
    r.scheduler = {} ∧ r.fresh = r.tasks ∧ r.current = none
  step := CfsRun.step

/-! ## Tasks that arrive at any time -/

inductive CfsArrival where
  | arrive (t : TaskPtr)
  | pickNext
  | onTick
  | enqueue
  deriving DecidableEq, Repr

/-- A new task is enqueued at any time, also while another one runs. -/
def CfsRun.arrivalStep (r : CfsRun) : CfsArrival → Option CfsRun
  | .arrive t =>
    if t ∈ r.fresh then
      let (scheduler, data) := r.scheduler.enqueue r.data t
      some { r with scheduler, data, fresh := r.fresh.erase t }
    else none
  | .pickNext =>
    match r.current with
    | none =>
      let (current, scheduler) := r.scheduler.pickNext r.data
      some { r with scheduler, current, preempted := false }
    | some _ => none
  | .onTick => r.step .onTick
  | .enqueue => r.step .enqueue

/-- Any number of new tasks with weights from `1` to `1024000`, and a new scheduler. -/
def arrivalSystem : Transition CfsRun CfsArrival where
  init r := r.tasks.Nodup ∧
    (∀ t ∈ r.tasks, (r.data t).vruntime = 0 ∧ 0 < (r.data t).weight ∧ (r.data t).weight ≤ 1024000) ∧
    r.scheduler = {} ∧ r.fresh = r.tasks ∧ r.current = none
  step := CfsRun.arrivalStep

end SimpleKernel
