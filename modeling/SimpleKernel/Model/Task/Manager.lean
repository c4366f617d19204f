import SimpleKernel.Model.Task.Scheduler
import SimpleKernel.Shared.BinaryHeap
import SimpleKernel.Shared.Links

/-! The task manager. What `TaskManager` does under one acquisition of its locks is one
function here. -/

namespace SimpleKernel.TaskManager

open VirtualMemory (CpuIo Allocator Memory destroyPageDirectory clonePageDirectory)

/-- The task manager, the per-core data, all control blocks and the physical memory.
`nextTask` is the next control block to be allocated. `assertFailed` remembers whether an
assertion of `Schedule`, `Wakeup` or `WakeupOne` has failed, or a map was full. The rest is
history: `family` is the task with which the chain of clones began, and `destroyed` are the control
blocks that have been destroyed, which nobody may read any more. -/
structure State (N : CoreCount) where
  tcb : TaskPtr → TaskControlBlock := fun _ => {}
  nextTask : TaskPtr := 0
  cpuSchedulers : N.Core → CpuSchedData := fun _ => {}
  perCpu : N.Core → PerCpu := fun _ => {}
  taskTable : AList fun _ : Pid => TaskPtr := ∅
  pidAllocator : Pid := 1
  memory : Memory
  assertFailed : Bool := false
  family : TaskPtr → TaskPtr := id
  destroyed : List TaskPtr := []

variable {N : CoreCount}

namespace State

def modify (s : State N) (t : TaskPtr) (f : TaskControlBlock → TaskControlBlock) : State N :=
  { s with tcb := Function.update s.tcb t (f (s.tcb t)) }

def setCpu (s : State N) (c : N.Core) (f : CpuSchedData → CpuSchedData) : State N :=
  { s with cpuSchedulers := Function.update s.cpuSchedulers c (f (s.cpuSchedulers c)) }

def check (s : State N) (holds : Bool) : State N :=
  { s with assertFailed := s.assertFailed || !holds }

def currentTask (s : State N) (c : N.Core) : Option TaskPtr := (s.perCpu c).runningTask

/-- `schedulers[policy]->Enqueue(task)` on core `c`, if the core has schedulers. -/
def enqueue (s : State N) (c : N.Core) (policy : SchedPolicy) (t : TaskPtr) : State N :=
  match (s.cpuSchedulers c).schedulers with
  | none => s
  | some schedulers =>
    let (schedulers, task) := schedulers.enqueue policy t (s.tcb t)
    (s.setCpu c fun d => { d with schedulers := some schedulers }).modify t fun _ => task

def setWaiting (s : State N) (c : N.Core) (resourceId : ResourceId) (list : List TaskPtr) :
    State N :=
  s.setCpu c fun d => { d with blockedTasks := d.blockedTasks.insert resourceId list }

def eraseGroup (s : State N) (c : N.Core) (resourceId : ResourceId) : State N :=
  s.setCpu c fun d => { d with blockedTasks := d.blockedTasks.erase resourceId }

end State

open State

/-! ## `Schedule` -/

/-- The scheduler of a preempted task decides whether it is enqueued again. -/
def requeue (c : N.Core) (t : TaskPtr) (s : State N) : State N :=
  match (s.cpuSchedulers c).schedulers with
  | none => s
  | some schedulers =>
    let policy := (s.tcb t).policy
    let s := s.setCpu c fun d => { d with schedulers := some (schedulers.onPreempted policy) }
    let s := s.modify t (Schedulers.onTimeSliceExpired policy)
    if Schedulers.requeues policy then s.enqueue c policy t else s

/-- A running task is marked ready. -/
def yieldCurrent (c : N.Core) (current : TaskPtr) (s : State N) : State N :=
  if (s.tcb current).status = .running then
    requeue c current (s.modify current fun task => task.receive .yield)
  else s

def pickNext (c : N.Core) (s : State N) : Option TaskPtr × State N :=
  match (s.cpuSchedulers c).schedulers with
  | none => (none, s)
  | some schedulers =>
    let (next, schedulers) := schedulers.pickNext
    (next, s.setCpu c fun d => { d with schedulers := some schedulers })

/-- `next` becomes the running task. -/
def dispatch (c : N.Core) (next : TaskPtr) (s : State N) : State N :=
  let s := s.check ((s.tcb next).status = .ready || (s.tcb next).policy = .idle)
  let s := s.modify next fun task => task.receive .schedule
  let s := s.modify next fun task => task.resetTimeSlice
  let s := s.modify next fun task => { task with schedInfo :=
    { task.schedInfo with contextSwitches := task.schedInfo.contextSwitches + 1 } }
  let s := s.setCpu c fun d => { d with totalSchedules := d.totalSchedules + 1 }
  { s with perCpu := Function.update s.perCpu c { s.perCpu c with runningTask := some next } }

/-- The critical section of `Schedule`, with the tasks between which the context has to be
switched. -/
def schedule (c : N.Core) (s : State N) : Option (TaskPtr × TaskPtr) × State N :=
  let s := s.setCpu c fun d => { d with schedulerStarted := true }
  match s.currentTask c with
  | none => (none, s.check false)
  | some current =>
    let s := yieldCurrent c current s
    match pickNext c s with
    | (some next, s) =>
      (if current = next then none else some (current, next), dispatch c next s)
    | (none, s) =>
      if (s.tcb current).status = .ready then (none, dispatch c current s)
      else (none, s.setCpu c fun d => { d with idleTime := d.idleTime + 1 })

/-! ## `Block`, `Sleep` and `TickUpdate` -/

/-- `Block(cpu_sched, resource_id)` for the current task of core `c`. A new group in a full
map is an error of the container. -/
def block (c : N.Core) (current : TaskPtr) (resourceId : ResourceId) (s : State N) : State N :=
  let d := s.cpuSchedulers c
  if resourceId ∉ d.blockedTasks ∧ maxBlockedGroups ≤ d.blockedTasks.keys.length then
    s.check false
  else
    let list := d.waiting resourceId
    if maxBlockedPerGroup ≤ list.length then s
    else
      (s.modify current fun task => (task.receive .block).setBlockedOn resourceId).setWaiting c
        resourceId (list ++ [current])

def wakeTickCompare (tcb : TaskPtr → TaskControlBlock) (a b : TaskPtr) : Bool :=
  (tcb b).schedInfo.wakeTick < (tcb a).schedInfo.wakeTick

def setWakeTick (wakeTick : ℕ) (task : TaskControlBlock) : TaskControlBlock :=
  { task with schedInfo := { task.schedInfo with wakeTick } }

/-- The critical section of `Sleep`; `tick` is `SIMPLEKERNEL_TICK`. The result says whether
the task was put to sleep. -/
def sleep (tick : ℕ) (c : N.Core) (current : TaskPtr) (ms : ℕ) (s : State N) : Bool × State N :=
  let d := s.cpuSchedulers c
  let sleepTicks := ms * tick % 2 ^ 64 / 1000
  let s := s.modify current (setWakeTick ((d.localTick + sleepTicks) % 2 ^ 64))
  if maxSleepingTasks ≤ d.sleepingTasks.size then (false, s)
  else
    let s := s.modify current fun task => task.receive .sleep
    (true, s.setCpu c fun d =>
      { d with sleepingTasks := BinaryHeap.push (wakeTickCompare s.tcb) d.sleepingTasks current })

/-- The loop of `TickUpdate` over the sleeping tasks, at most `k` rounds of it. -/
def wakeSleepers (c : N.Core) : ℕ → State N → State N
  | 0, s => s
  | k + 1, s =>
    let d := s.cpuSchedulers c
    match d.sleepingTasks[0]? with
    | none => s
    | some t =>
      if d.localTick < (s.tcb t).schedInfo.wakeTick then s
      else
        let s := s.setCpu c fun d =>
          { d with sleepingTasks := BinaryHeap.pop (wakeTickCompare s.tcb) d.sleepingTasks }
        let s := s.modify t fun task => task.receive .wakeup
        wakeSleepers c k (s.enqueue c (s.tcb t).policy t)

/-- The running task is charged one tick. No scheduler's `OnTick` asks for preemption, so
that only a used up time slice does. -/
def chargeCurrent (c : N.Core) (s : State N) : Bool × State N :=
  match s.currentTask c with
  | none => (false, s)
  | some t =>
    if (s.tcb t).status = .running then
      let remaining := (s.tcb t).schedInfo.timeSliceRemaining - 1
      (remaining = 0, s.modify t fun task => { task with schedInfo :=
        { task.schedInfo with
          totalRuntime := task.schedInfo.totalRuntime + 1
          timeSliceRemaining := remaining } })
    else (false, s)

/-- The critical section of `TickUpdate`, with `need_preempt`. -/
def tickUpdate (c : N.Core) (s : State N) : Bool × State N :=
  let s := s.setCpu c fun d => { d with localTick := (d.localTick + 1) % 2 ^ 64 }
  chargeCurrent c (wakeSleepers c (s.cpuSchedulers c).sleepingTasks.size s)

/-! ## `Wakeup` and `WakeupOne` -/

/-- What both functions do with a task that they took from its list. -/
def wakeTask (c : N.Core) (t : TaskPtr) (s : State N) : State N :=
  let s := s.modify t fun task => (task.receive .wakeup).setBlockedOn {}
  let s := s.check (s.cpuSchedulers c).schedulers.isSome
  s.enqueue c (s.tcb t).policy t

def wakeupLoop (c : N.Core) (resourceId : ResourceId) : List TaskPtr → State N → State N
  | [], s => s.eraseGroup c resourceId
  | t :: rest, s =>
    let s := s.setWaiting c resourceId rest
    let s := s.check ((s.tcb t).status = .blocked)
    let s := s.check ((s.tcb t).aux.blockedOn = resourceId)
    wakeupLoop c resourceId rest (wakeTask c t s)

def wakeup (c : N.Core) (resourceId : ResourceId) (s : State N) : State N :=
  match (s.cpuSchedulers c).blockedTasks.lookup resourceId with
  | none => s
  | some waiting => wakeupLoop c resourceId waiting s

/-- `Wakeup` as a whole, with nothing else between the cores. -/
def wakeupWhole (resourceId : ResourceId) (s : State N) : State N :=
  (List.finRange N.val).foldl (fun s i => wakeup i resourceId s) s

/-- The critical section of `WakeupOne` on one core, and whether it woke a task. -/
def wakeupOne (c : N.Core) (resourceId : ResourceId) (s : State N) : Bool × State N :=
  match (s.cpuSchedulers c).waiting resourceId with
  | [] => (false, s)
  | t :: rest =>
    let s := s.setWaiting c resourceId rest
    let s := s.check ((s.tcb t).status = .blocked)
    let s := wakeTask c t s
    (true, if rest.isEmpty then s.eraseGroup c resourceId else s)

/-! ## `Balance` -/

/-- `schedulers[kNormal]->GetQueueSize()`, or 0 without schedulers. -/
def normalLoad (s : State N) (c : N.Core) : ℕ := ((s.cpuSchedulers c).readyQueue .normal).length

/-- Whether a task's affinity mask lets it run on a core. -/
def allowsCore (affinity : BitVec 64) (c : N.Core) : Bool :=
  affinity = BitVec.allOnes 64 || affinity.getLsbD c.val

/-- The critical section of `Balance` on core `c`, stealing from core `source`. -/
def balance (c source : N.Core) (s : State N) : State N :=
  match (s.cpuSchedulers source).schedulers, (s.cpuSchedulers c).schedulers with
  | some schedulers, some _ =>
    if normalLoad s source ≤ normalLoad s c + 1 then s
    else
      match schedulers.normal.pickNext with
      | (none, _) => s
      | (some stolen, normal) =>
        let s := s.setCpu source fun d => { d with schedulers := some { schedulers with normal } }
        if allowsCore (s.tcb stolen).aux.cpuAffinity c then s.enqueue c .normal stolen
        else s.enqueue source .normal stolen
  | _, _ => s

/-- One round of the search in `Balance`; the pair is `max_load` and `max_core`. -/
def balanceRound (c : N.Core) (s : State N) (best : ℕ × N.Core) (i : N.Core) : ℕ × N.Core :=
  if i ≠ c ∧ best.1 < normalLoad s i then (normalLoad s i, i) else best

/-- The core that `Balance` on core `c` steals from if no other core takes a step meanwhile. -/
def balanceSource (c : N.Core) (s : State N) : Option N.Core :=
  let (maxLoad, maxCore) := (List.finRange N.val).foldl (balanceRound c s) (0, c)
  if maxCore = c ∨ maxLoad ≤ normalLoad s c + 1 then none else some maxCore

def balanceWhole (c : N.Core) (s : State N) : State N :=
  (balanceSource c s).elim s fun source => balance c source s

/-! ## Thread groups, `Exit` and the destructor -/

def unlink (t : TaskPtr) (s : State N) : State N :=
  let task := s.tcb t
  let s := match task.previous with
    | none => s
    | some p => s.modify p fun u => { u with next := task.next }
  let s := match task.next with
    | none => s
    | some n => s.modify n fun u => { u with previous := task.previous }
  s.modify t fun u => { u with previous := none, next := none }

/-- `JoinThreadGroup(leader)`: the task is inserted after the leader. -/
def joinThreadGroup (t leader : TaskPtr) (s : State N) : State N :=
  if leader = t then s
  else
    let tgid := (s.tcb leader).aux.tgid
    let after := (s.tcb leader).next
    let s := s.modify t fun u =>
      { u with aux := { u.aux with tgid }, previous := some leader, next := after }
    let s := match after with
      | none => s
      | some a => s.modify a fun u => { u with previous := some t }
    s.modify leader fun u => { u with next := some t }

def State.links (s : State N) : Links TaskPtr where
  previous t := (s.tcb t).previous
  next t := (s.tcb t).next

/-- `GetThreadGroupSize`. It does not end if the links make a cycle, and no fuel is enough. -/
def getThreadGroupSize (fuel : ℕ) (t : TaskPtr) (s : State N) : Option ℕ :=
  if (s.tcb t).aux.tgid = 0 then some 1
  else
    (Links.count s.links.previous fuel (s.tcb t).previous 1).bind
      (Links.count s.links.next fuel (s.tcb t).next)

def State.tasks (s : State N) : List TaskPtr := s.taskTable.entries.map Sigma.snd

/-- The children of `parent` are given to the init process. -/
def reparentChildren (parent : TaskPtr) (s : State N) : State N :=
  let pid := (s.tcb parent).pid
  { s with tcb := fun t =>
      if t ∈ s.tasks ∧ (s.tcb t).aux.parentPid = pid then
        { s.tcb t with aux := { (s.tcb t).aux with parentPid := 1 } }
      else s.tcb t }

/-- The critical section of `Exit`, with the resource that the parent may be waiting for. -/
def exit (current : TaskPtr) (exitCode : ℤ) (s : State N) : Option ResourceId × State N :=
  let s := s.modify current fun task => { task with aux := { task.aux with exitCode } }
  let isGroupLeader := (s.tcb current).isThreadGroupLeader
  let s := unlink current s
  let parentPid := (s.tcb current).aux.parentPid
  let s := s.modify current fun task => task.receive (.exit (parentPid ≠ 0))
  let s := if isGroupLeader then reparentChildren current s else s
  (if parentPid ≠ 0 then some (.of .childExit parentPid) else none, s)

variable (A : CpuIo) (al : Allocator A)

/-- `~TaskControlBlock`. -/
def destroy (t : TaskPtr) (s : State N) : State N :=
  let task := s.tcb t
  let s := unlink t s
  let memory := task.kernelStack.elim s.memory s.memory.alignedFree
  let memory := task.pageTable.elim memory fun root =>
    destroyPageDirectory A root (!hasFlag task.aux.cloneFlags cloneVm) memory
  { s with memory, destroyed := t :: s.destroyed }.modify t fun task =>
    { task with kernelStack := none, pageTable := none }

/-! ## `AddTask` and `InitCurrentCore` -/

/-- `new TaskControlBlock`, as `task`. -/
def State.create (s : State N) (task : TaskControlBlock) : State N :=
  { s with tcb := Function.update s.tcb s.nextTask task, nextTask := s.nextTask + 1 }

def allocatePid (s : State N) : Pid × State N :=
  (s.pidAllocator, { s with pidAllocator := (s.pidAllocator + 1) % 2 ^ 64 })

/-- The core whose queue a new task enters: the calling core, or the first one that the
task's affinity mask names. -/
def targetCore (c : N.Core) (affinity : BitVec 64) : N.Core :=
  if affinity = BitVec.allOnes 64 then c
  else ((List.finRange N.val).find? fun i => affinity.getLsbD i.val).getD c

/-- The ids that `AddTask` gives to a task that has none. -/
def assignIds (t : TaskPtr) (s : State N) : State N :=
  let s := if (s.tcb t).pid = 0 then
      let (pid, s) := allocatePid s
      s.modify t fun task => { task with pid }
    else s
  if (s.tcb t).aux.tgid = 0 then
    s.modify t fun task => { task with aux := { task.aux with tgid := task.pid } }
  else s

/-- `task_table_[pid] = std::move(task)`, which destroys a task that had the pid. -/
def insertTask (t : TaskPtr) (s : State N) : State N :=
  let pid := (s.tcb t).pid
  let old := s.taskTable.lookup pid
  let s := { s with taskTable := s.taskTable.insert pid t }
  old.elim s fun u => destroy A u s

/-- `AddTask` on core `c`, for the control block `t`. A full table destroys the task. -/
def addTask (c : N.Core) (t : TaskPtr) (s : State N) : State N :=
  let s := assignIds t s
  if maxTasks ≤ s.taskTable.keys.length then destroy A t s
  else
    let s := insertTask A t s
    let s := s.modify t fun task => task.receive .schedule
    s.enqueue (targetCore c (s.tcb t).aux.cpuAffinity) (s.tcb t).policy t

/-- `InitCurrentCore`: the boot task is running, the idle task is in the idle scheduler's
slot. -/
def initCurrentCore (c : N.Core) (s : State N) : State N :=
  let s := s.setCpu c fun d => { d with schedulers := some (d.schedulers.getD {}) }
  let boot := s.nextTask
  let s := s.create { status := .running, policy := .idle }
  let idle := s.nextTask
  let s := s.create { status := .ready, policy := .idle }
  let data : PerCpu := { runningTask := some boot, idleTask := some idle }
  let s := { s with perCpu := Function.update s.perCpu c data }
  s.enqueue c .idle idle

/-! ## `Clone` -/

/-- A thread shares everything that `kVm`, `kFiles` and `kSighand` stand for. -/
def completeFlags (flags : BitVec 64) : BitVec 64 :=
  if hasFlag flags cloneThread ∧ !(hasFlag flags cloneVm && hasFlag flags cloneFiles &&
      hasFlag flags cloneSighand) then
    flags ||| (cloneVm ||| cloneFiles ||| cloneSighand)
  else flags

/-- The control block of the child before it has an address space. -/
def cloneTask (parent : TaskControlBlock) (pid : Pid) (flags : BitVec 64) : TaskControlBlock :=
  { pid := pid
    policy := parent.policy
    schedInfo := parent.schedInfo
    aux :=
      { parentPid := if hasFlag flags cloneParent then parent.aux.parentPid else parent.pid
        pgid := parent.aux.pgid
        sid := parent.aux.sid
        tgid := if hasFlag flags cloneThread then parent.aux.tgid else pid
        cloneFlags := flags &&& cloneAllMask } }

/-- A thread joins the group of its parent, behind the leader. -/
def cloneThreadGroup (parent child : TaskPtr) (flags : BitVec 64) (s : State N) : State N :=
  if hasFlag flags cloneThread then
    if (s.tcb parent).isThreadGroupLeader then joinThreadGroup child parent s
    else
      match s.taskTable.lookup (s.tcb parent).aux.tgid with
      | none => s
      | some leader => joinThreadGroup child leader s
  else s

/-- The page table of the child: the parent's own, or a copy of it. -/
def cloneAddressSpace (pageTable : Option VirtualMemory.Addr) (flags : BitVec 64) (m : Memory) :
    Expected (Option VirtualMemory.Addr) × Memory :=
  if hasFlag flags cloneVm then (.ok pageTable, m)
  else
    match pageTable with
    | none => (.ok none, m)
    | some root =>
      match clonePageDirectory A al root true m with
      | (.error _, m) => (.error .taskAllocationFailed, m)
      | (.ok copy, m) => (.ok (some copy), m)

/-- The kernel stack of the child. Without one, the copy of the page table is given back. -/
def cloneKernelStack (child : TaskPtr) (flags : BitVec 64) (s : State N) :
    Expected Unit × State N :=
  match s.memory.alignedAlloc al with
  | (some stack, memory) =>
    (.ok (), { s with memory }.modify child fun task => { task with kernelStack := some stack })
  | (none, memory) =>
    let s := { s with memory }
    match (s.tcb child).pageTable with
    | some root =>
      if hasFlag flags cloneVm then (.error .taskKernelStackAllocationFailed, s)
      else
        (.error .taskKernelStackAllocationFailed,
          { s with memory := destroyPageDirectory A root false s.memory }.modify child
            fun task => { task with pageTable := none })
    | none => (.error .taskKernelStackAllocationFailed, s)

/-- `Clone` once the child has its place in a thread group. When it fails, the control block
of the child is destroyed. -/
def cloneResources (c : N.Core) (parent child : TaskPtr) (pid : Pid) (flags : BitVec 64)
    (s : State N) : Expected Pid × State N :=
  match cloneAddressSpace A al (s.tcb parent).pageTable flags s.memory with
  | (.error e, memory) => (.error e, destroy A child { s with memory })
  | (.ok pageTable, memory) =>
    let s := { s with memory }.modify child fun task => { task with pageTable }
    match cloneKernelStack A al child flags s with
    | (.error e, s) => (.error e, destroy A child s)
    | (.ok (), s) => (.ok pid, addTask A c child s)

def cloneWithPid (c : N.Core) (parent : TaskPtr) (pid : Pid) (flags : BitVec 64) (s : State N) :
    Expected Pid × State N :=
  let child := s.nextTask
  let family := Function.update s.family child (s.family parent)
  let s := { s.create (cloneTask (s.tcb parent) pid flags) with family }
  cloneResources A al c parent child pid flags (cloneThreadGroup parent child flags s)

def clone (c : N.Core) (flags : BitVec 64) (s : State N) : Expected Pid × State N :=
  match s.currentTask c with
  | none => (.error .taskNoCurrentTask, s)
  | some parent =>
    let (pid, s) := allocatePid s
    if pid = 0 then (.error .taskPidAllocationFailed, s)
    else cloneWithPid A al c parent pid (completeFlags flags) s

/-! ## `Wait` -/

/-- The arguments of `Wait`. -/
structure WaitArgs where
  pid : Pid
  noHang : Bool := false
  untraced : Bool := false
  deriving DecidableEq, Repr

/-- Whether `Wait(pid)` of the task `current` is about `task`. `Pid` is unsigned, so that
the last branch is never taken. -/
def pidMatch (current task : TaskControlBlock) (pid : Pid) : Bool :=
  let isChild := task.aux.parentPid == current.pid
  if pid = sizeMax then isChild
  else if pid = 0 then isChild && task.aux.pgid == current.aux.pgid
  else if pid > 0 then isChild && task.pid == pid
  else isChild && task.aux.pgid == (2 ^ 64 - pid) % 2 ^ 64

/-- What the scan of `task_table_` found. -/
inductive Scan where
  | target (t : TaskPtr)
  | stopped (t : TaskPtr)
  | noneYet
  | noChild
  deriving DecidableEq, Repr

def isDead (status : TaskStatus) : Bool := status = .zombie || status = .exited

/-- The loop of `Wait` over the tasks of the table; `found` is `has_matching_child`. -/
def waitScan (s : State N) (current : TaskControlBlock) (args : WaitArgs) :
    List TaskPtr → Bool → Scan
  | [], found => if found then .noneYet else .noChild
  | t :: rest, found =>
    let task := s.tcb t
    if !pidMatch current task args.pid then waitScan s current args rest found
    else if isDead task.status then .target t
    else if args.untraced && task.status = .blocked then .stopped t
    else waitScan s current args rest true

/-- `task_table_.erase(target->pid)`. -/
def reap (target : TaskPtr) (s : State N) : State N :=
  let pid := (s.tcb target).pid
  match s.taskTable.lookup pid with
  | none => s
  | some t => destroy A t { s with taskTable := s.taskTable.erase pid }

/-! ## Signals -/

def setSignals (signals : SignalState) (task : TaskControlBlock) : TaskControlBlock :=
  { task with aux := { task.aux with signals } }

/-- `SendSignal` up to its call of `Wakeup`, with the resource for that call. -/
def sendSignal (pid : Pid) (signum : ℤ) (s : State N) : Expected (Option ResourceId) × State N :=
  if !SignalState.isValid signum then (.error .signalInvalidNumber, s)
  else
    match s.taskTable.lookup pid with
    | none => (.error .signalTaskNotFound, s)
    | some target =>
      let signum := signum.toNat
      let s := s.modify target fun task => setSignals (task.aux.signals.setPending signum) task
      let task := s.tcb target
      let parked := task.status = .blocked ∨ task.status = .sleeping
      let unmasked := !task.aux.signals.blocked.getLsbD signum
      if signum = sigKill ∨ signum = sigCont ∨ (unmasked ∧ parked) then
        match task.status with
        | .blocked =>
          (.ok (if task.aux.blockedOn.isValid then some task.aux.blockedOn else none), s)
        | .sleeping => (.ok none, s.modify target (setWakeTick 0))
        | _ => (.ok none, s)
      else (.ok none, s)

/-- `SendSignal` as a whole, with nothing else in between. -/
def sendSignalWhole (pid : Pid) (signum : ℤ) (s : State N) : State N :=
  match sendSignal pid signum s with
  | (.ok (some resourceId), s) => wakeupWhole resourceId s
  | (_, s) => s

/-- `CheckPendingSignals` on core `c`: the delivered signal, and the exit code if the signal
terminates the task. -/
def checkPendingSignals (c : N.Core) (s : State N) : (ℕ × Option ℤ) × State N :=
  match s.currentTask c with
  | none => ((sigNone, none), s)
  | some t =>
    let signals := (s.tcb t).aux.signals
    let signum := signals.getNextDeliverableSignal
    if !signals.hasDeliverableSignal || signum = sigNone then ((sigNone, none), s)
    else
      let s := s.modify t (setSignals (signals.clearPending signum))
      let terminate : Option ℤ := some (128 + signum)
      if signum = sigKill then ((signum, terminate), s)
      else if signum = sigStop ∨ signum = sigTstp ∨ signum = sigCont then ((signum, none), s)
      else
        match signals.actions signum with
        | .ign => ((signum, none), s)
        | .dfl => ((signum, if defaultActionTerminates signum then terminate else none), s)
        | .user _ => ((signum, none), s)

end SimpleKernel.TaskManager
