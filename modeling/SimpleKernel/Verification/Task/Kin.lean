import SimpleKernel.Verification.Task.Equations

/-! Who is related to whom, which tasks are blocked, and when the sleeping ones have to be woken.
Most critical sections leave these alone. -/

namespace SimpleKernel.TaskManager

variable {N : CoreCount} {s s' s'' : State N} {c : N.Core} {t : TaskPtr}
  {f : TaskControlBlock → TaskControlBlock}

def fate (status : TaskStatus) : Option TaskStatus := if isDead status then some status else none

def isLast : Msg → Bool
  | .exit _ | .reap => true
  | _ => false

theorem fate_receive (status : TaskStatus) (msg : Msg) (h : isLast msg = false) :
    fate (status.receive msg) = fate status := by
  cases msg with
  | exit | reap => cases h
  | schedule | yield | sleep | block | wakeup => cases status <;> rfl

/-- The ids of a task, and how it ended. -/
structure Identity where
  pid : Pid
  parentPid : Pid
  pgid : Pid
  tgid : Pid
  exitCode : ℤ
  fate : Option TaskStatus

/-- Its links in a thread group are part of its relations, too. -/
structure Kin extends Identity where
  previous : Option TaskPtr
  next : Option TaskPtr

def kinOf (task : TaskControlBlock) : Kin where
  pid := task.pid
  parentPid := task.aux.parentPid
  pgid := task.aux.pgid
  tgid := task.aux.tgid
  previous := task.previous
  next := task.next
  exitCode := task.aux.exitCode
  fate := fate task.status

def State.kin (s : State N) (t : TaskPtr) : Kin := kinOf (s.tcb t)

def State.ids (s : State N) (t : TaskPtr) : Identity := (s.kin t).toIdentity

theorem kinOf_receive (task : TaskControlBlock) (msg : Msg) (h : isLast msg = false) :
    kinOf (task.receive msg) = kinOf task := by
  simp [kinOf, TaskControlBlock.receive, fate_receive task.status msg h]

theorem kin_modify_of_eq
    (hf : kinOf (f (s.tcb t)) = kinOf (s.tcb t)) : (s.modify t f).kin = s.kin :=
  funext (modify_tcb_read s t f kinOf hf)

def State.groups (s : State N) (i : N.Core) : AList fun _ : ResourceId => List TaskPtr :=
  (s.cpuSchedulers i).blockedTasks

def State.shell (s : State N) : State N :=
  { s with tcb := fun _ => {}, cpuSchedulers := fun _ => {}, pidAllocator := 0 }

section Agree

variable {α β γ : Type*} {task : TaskControlBlock → α} {cpu : CpuSchedData → β} {rest : State N → γ}

/-- The same is read from all control blocks, from the data of all cores and from the shell. -/
structure Agree (task : TaskControlBlock → α) (cpu : CpuSchedData → β) (rest : State N → γ)
    (s s' : State N) : Prop where
  task : ∀ t, task (s'.tcb t) = task (s.tcb t)
  cpu : ∀ i, cpu (s'.cpuSchedulers i) = cpu (s.cpuSchedulers i)
  rest : rest s'.shell = rest s.shell

namespace Agree

theorem refl (s : State N) : Agree task cpu rest s s := ⟨fun _ => rfl, fun _ => rfl, rfl⟩

section

variable (h : Agree task cpu rest s s')
include h

theorem trans (h' : Agree task cpu rest s' s'') : Agree task cpu rest s s'' :=
  ⟨fun t => (h'.task t).trans (h.task t), fun i => (h'.cpu i).trans (h.cpu i), h'.rest.trans h.rest⟩

theorem modify
    (hf : task (f (s'.tcb t)) = task (s'.tcb t)) : Agree task cpu rest s (s'.modify t f) :=
  ⟨fun u => (modify_tcb_read s' t f task hf u).trans (h.task u), h.cpu, h.rest⟩

theorem setCpu {f : CpuSchedData → CpuSchedData}
    (hf : cpu (f (s'.cpuSchedulers c)) = cpu (s'.cpuSchedulers c)) :
    Agree task cpu rest s (s'.setCpu c f) :=
  ⟨h.task, fun i => (setCpu_cpuSchedulers_read s' c f cpu hf i).trans (h.cpu i), h.rest⟩

theorem check {holds : Bool} (hr : rest (s'.check holds).shell = rest s'.shell) :
    Agree task cpu rest s (s'.check holds) :=
  ⟨h.task, h.cpu, hr.trans h.rest⟩

end

end Agree

end Agree

/-! ## What is read -/

abbrev Unshown (s s' : State N) : Prop :=
  Agree (fun task => (task.status, task.policy, task.aux.blockedOn)) id
    (fun s => (s.nextTask, s.perCpu)) s s'

theorem Unshown.board (h : Unshown s s') : s'.board = s.board := by
  have hcpu : s'.cpuSchedulers = s.cpuSchedulers := funext h.cpu
  have hperCpu : s'.perCpu = s.perCpu := congrArg Prod.snd h.rest
  refine Board.ext ?_ ?_ ?_ ?_ ?_ ?_ ?_ (congrArg Prod.fst h.rest)
  · exact funext fun t => congrArg Prod.fst (h.task t)
  · exact funext fun t => congrArg (·.2.1) (h.task t)
  · exact funext fun t => congrArg (·.2.2) (h.task t)
  · simp [State.board, hcpu]
  · simp [State.board, hcpu]
  · funext c
    simp [State.currentTask, hperCpu]
  · simp [State.board, hcpu]

abbrev Silent (s s' : State N) : Prop :=
  Agree (fun task => (task.status, task.policy, task.aux.blockedOn, assetsOf task)) id id s s'

namespace Silent

theorem board (h : Silent s s') : s'.board = s.board :=
  Unshown.board ⟨fun t => congrArg (fun read => (read.1, read.2.1, read.2.2.1)) (h.task t), h.cpu,
    congrArg (fun s => (s.nextTask, s.perCpu)) h.rest⟩

theorem asserts (h : Silent s s') : s'.assertFailed = s.assertFailed :=
  congrArg (·.assertFailed) h.rest

theorem frame (h : Silent s s') : Frame s s' :=
  ⟨congrArg (·.nextTask) h.rest, congrArg (·.taskTable) h.rest, congrArg (·.memory) h.rest,
    congrArg (·.family) h.rest, fun t => congrArg (·.2.2.2) (h.task t)⟩

end Silent

abbrev Polled (s s' : State N) : Prop :=
  Agree (fun task => { task with aux := { task.aux with signals := {} } }) id id s s'

theorem Polled.silent (h : Polled s s') : Silent s s' :=
  ⟨fun t => congrArg (fun task => (task.status, task.policy, task.aux.blockedOn, assetsOf task))
    (h.task t), h.cpu, h.rest⟩

theorem checkPendingSignals_polled {r : ℕ × Option ℤ}
    (h : checkPendingSignals c s = (r, s')) : Polled s s' := by
  obtain rfl : (checkPendingSignals c s).2 = s' := congrArg Prod.snd h
  obtain heq | ⟨t, signals, heq⟩ := checkPendingSignals_cases c s
  · rw [heq]
    exact .refl s
  · rw [heq]
    exact (Agree.refl s).modify rfl

abbrev Calm (s s' : State N) : Prop :=
  Agree (·.schedInfo.wakeTick) (fun d => (d.sleepingTasks, d.localTick)) (fun _ => ()) s s'

theorem Calm.sleepers (h : Calm s s') (i : N.Core) :
    (s'.cpuSchedulers i).sleepingTasks = (s.cpuSchedulers i).sleepingTasks :=
  congrArg Prod.fst (h.cpu i)

theorem Calm.localTick (h : Calm s s') (i : N.Core) :
    (s'.cpuSchedulers i).localTick = (s.cpuSchedulers i).localTick :=
  congrArg Prod.snd (h.cpu i)

def State.holdings (s : State N) : TaskPtr × (AList fun _ : Pid => TaskPtr) ×
    VirtualMemory.Memory × (TaskPtr → TaskPtr) × List TaskPtr :=
  (s.nextTask, s.taskTable, s.memory, s.family, s.destroyed)

/-- The relations of the tasks are left alone, and what they own. -/
abbrev Kept (s s' : State N) : Prop :=
  Agree (fun task => (assetsOf task, kinOf task)) (fun _ => ()) State.holdings s s'

theorem Kept.frame (h : Kept s s') : Frame s s' :=
  ⟨congrArg Prod.fst h.rest, congrArg (·.2.1) h.rest, congrArg (·.2.2.1) h.rest,
    congrArg (·.2.2.2.1) h.rest, fun t => congrArg Prod.fst (h.task t)⟩

theorem Kept.destroyed (h : Kept s s') : s'.destroyed = s.destroyed := congrArg (·.2.2.2.2) h.rest

theorem Kept.kin (h : Kept s s') : s'.kin = s.kin := funext fun t => congrArg Prod.snd (h.task t)

abbrev Still (s s' : State N) : Prop :=
  Agree (fun task => (assetsOf task, kinOf task, task.schedInfo.wakeTick))
    (fun d => (d.blockedTasks, d.sleepingTasks, d.localTick)) State.holdings s s'

theorem Polled.still (h : Polled s s') : Still s s' := by
  refine ⟨fun t => ?_, fun i => ?_, congrArg State.holdings h.rest⟩
  · have hread := congrArg (fun task => (assetsOf task, kinOf task, task.schedInfo.wakeTick))
      (h.task t)
    exact hread
  · exact congrArg (fun d => (d.blockedTasks, d.sleepingTasks, d.localTick)) (h.cpu i)

abbrev StillButGroups (s s' : State N) : Prop :=
  Agree (fun task => (assetsOf task, kinOf task, task.schedInfo.wakeTick))
    (fun d => (d.sleepingTasks, d.localTick)) State.holdings s s'

abbrev StillButAlarms (s s' : State N) : Prop :=
  Agree (fun task => (assetsOf task, kinOf task)) (·.blockedTasks) State.holdings s s'

theorem StillButGroups.kept (h : StillButGroups s s') : Kept s s' :=
  ⟨fun t => congrArg (fun read => (read.1, read.2.1)) (h.task t), fun _ => rfl, h.rest⟩

theorem StillButGroups.calm (h : StillButGroups s s') : Calm s s' :=
  ⟨fun t => congrArg (·.2.2) (h.task t), h.cpu, rfl⟩

theorem StillButAlarms.kept (h : StillButAlarms s s') : Kept s s' :=
  ⟨h.task, fun _ => rfl, h.rest⟩

theorem StillButAlarms.groups (h : StillButAlarms s s') : s'.groups = s.groups := funext h.cpu

namespace Still

variable (h : Still s s')
include h

theorem butGroups : StillButGroups s s' :=
  ⟨h.task, fun i => congrArg Prod.snd (h.cpu i), h.rest⟩

theorem butAlarms : StillButAlarms s s' :=
  ⟨fun t => congrArg (fun read => (read.1, read.2.1)) (h.task t),
    fun i => congrArg Prod.fst (h.cpu i), h.rest⟩

theorem kept : Kept s s' := h.butAlarms.kept

theorem receive (msg : Msg) (hm : isLast msg = false) :
    Still s (s'.modify t fun task => task.receive msg) :=
  h.modify (by rw [kinOf_receive _ msg hm]; rfl)

theorem enqueue (c : N.Core) (p : SchedPolicy) (t : TaskPtr) : Still s (s'.enqueue c p t) := by
  unfold State.enqueue
  cases (s'.cpuSchedulers c).schedulers with
  | none => exact h
  | some schedulers =>
    refine (h.setCpu rfl).modify ?_
    cases p with
    | realTime | idle => rfl
    | normal =>
      simp only [RoundRobinScheduler.enqueue]
      split <;> rfl

end Still

def unrelated (task : TaskControlBlock) : TaskControlBlock :=
  { task with previous := none, next := none, aux := { task.aux with tgid := 0, parentPid := 0 } }

/-- Nothing else is changed. -/
abbrev Regrouped (s s' : State N) : Prop := Agree unrelated id id s s'

theorem Regrouped.destroyed (h : Regrouped s s') : s'.destroyed = s.destroyed :=
  show s'.shell.destroyed = s.shell.destroyed from congrArg State.destroyed h.rest

theorem Regrouped.silent (h : Regrouped s s') : Silent s s' :=
  ⟨fun t => congrArg (fun task => (task.status, task.policy, task.aux.blockedOn, assetsOf task))
    (h.task t), h.cpu, h.rest⟩

/-! ## Thread groups -/

section

variable (s t)

theorem unlink_regrouped : Regrouped s (unlink t s) := by
  unfold unlink
  simp only
  generalize (s.tcb t).previous = previous
  generalize (s.tcb t).next = next
  refine Agree.modify ?_ rfl
  cases next with
  | none =>
    cases previous with
    | none => exact .refl s
    | some p => exact Agree.modify (.refl s) rfl
  | some n =>
    refine Agree.modify ?_ rfl
    cases previous with
    | none => exact .refl s
    | some p => exact Agree.modify (.refl s) rfl

theorem joinThreadGroup_regrouped (leader : TaskPtr) :
    Regrouped s (joinThreadGroup t leader s) := by
  unfold joinThreadGroup
  split
  · exact .refl s
  refine Agree.modify ?_ rfl
  split
  · exact Agree.modify (.refl s) rfl
  · exact Agree.modify (Agree.modify (.refl s) rfl) rfl

theorem reparentChildren_regrouped : Regrouped s (reparentChildren t s) := by
  refine ⟨fun u => ?_, fun _ => rfl, rfl⟩
  unfold reparentChildren
  simp only
  split <;> rfl

end

/-! ## The operations on the scheduler data -/

section Operations

variable (s : State N) (c : N.Core) (t : TaskPtr) (r : ResourceId)

theorem requeue_still : Still s (requeue c t s) := by
  unfold requeue
  split
  · exact .refl s
  have hstill : ∀ schedulers p, Still s ((s.setCpu c fun d => { d with schedulers }).modify t
      (Schedulers.onTimeSliceExpired p)) :=
    fun schedulers p => ((Agree.refl s).setCpu rfl).modify (by cases p <;> rfl)
  simp only
  split
  · exact (hstill _ _).enqueue c _ t
  · exact hstill _ _

theorem yieldCurrent_still : Still s (yieldCurrent c t s) := by
  unfold yieldCurrent
  split
  · exact (Still.receive (.refl s) .yield rfl).trans (requeue_still _ c t)
  · exact .refl s

theorem pickNext_still : Still s (pickNext c s).2 := by
  unfold pickNext
  split
  · exact .refl s
  · simp only
    exact (Agree.refl s).setCpu rfl

theorem dispatch_still : Still s (dispatch c t s) := by
  have hrun : ∀ perCpu s', Still s s' → Still s { s' with perCpu } := fun _ _ h =>
    ⟨h.task, h.cpu, h.rest⟩
  refine hrun _ _ (Agree.setCpu (Agree.modify (Agree.modify ?_ rfl) rfl) rfl)
  exact Still.receive ((Agree.refl s).check rfl) .schedule rfl

theorem schedule_still : Still s (schedule c s).2 := by
  unfold schedule
  have hstart : Still s (s.setCpu c fun d => { d with schedulerStarted := true }) :=
    (Agree.refl s).setCpu rfl
  generalize (s.setCpu c fun d => { d with schedulerStarted := true }) = s₀ at hstart ⊢
  simp only
  cases s₀.currentTask c with
  | none => exact hstart.check rfl
  | some current =>
    have hpick := (hstart.trans (yieldCurrent_still s₀ c current)).trans
      (pickNext_still (yieldCurrent c current s₀) c)
    simp only
    generalize pickNext c (yieldCurrent c current s₀) = picked at hpick ⊢
    obtain ⟨next, s₁⟩ := picked
    cases next with
    | some next => exact hpick.trans (dispatch_still s₁ c next)
    | none =>
      simp only
      split
      · exact hpick.trans (dispatch_still s₁ c current)
      have hidle : Still s (s₁.setCpu c fun d => { d with idleTime := d.idleTime + 1 }) :=
        hpick.setCpu rfl
      exact hidle

theorem chargeCurrent_still : Still s (chargeCurrent c s).2 := by
  unfold chargeCurrent
  cases s.currentTask c with
  | none => exact .refl s
  | some t =>
    have hcharge : ∀ schedInfo : SchedInfo, schedInfo.wakeTick = (s.tcb t).schedInfo.wakeTick →
        Still s (s.modify t fun task => { task with schedInfo }) :=
      fun schedInfo h => (Agree.refl s).modify (by rw [h]; rfl)
    simp only
    split
    · exact hcharge _ rfl
    · exact .refl s

theorem wakeTask_still : Still s (wakeTask c t s) := by
  have hwake : kinOf (((s.tcb t).receive .wakeup).setBlockedOn {}) = kinOf (s.tcb t) :=
    kinOf_receive (s.tcb t) .wakeup rfl
  have h : Still s (s.modify t fun task => (task.receive .wakeup).setBlockedOn {}) :=
    (Agree.refl s).modify (by rw [hwake]; rfl)
  exact Still.enqueue (h.check rfl) c _ t

theorem balance_still (source : N.Core) : Still s (balance c source s) := by
  unfold balance
  split
  · split
    · exact .refl s
    split
    · exact .refl s
    have htake : ∀ schedulers, Still s (s.setCpu source fun d => { d with schedulers }) :=
      fun schedulers => (Agree.refl s).setCpu rfl
    simp only
    split
    · exact (htake _).enqueue c _ _
    · exact (htake _).enqueue source _ _
  · exact .refl s

/-! ## `Block`, `Wakeup` and `WakeupOne` -/

theorem block_still : StillButGroups s (block c t r s) := by
  unfold block
  simp only
  split
  · exact (Agree.refl s).check rfl
  split
  · exact .refl s
  have hpark : kinOf (((s.tcb t).receive .block).setBlockedOn r) = kinOf (s.tcb t) :=
    kinOf_receive (s.tcb t) .block rfl
  exact ((Agree.refl s).modify (by rw [hpark]; rfl)).setCpu rfl

theorem setWaiting_still (list : List TaskPtr) : StillButGroups s (s.setWaiting c r list) :=
  (Agree.refl s).setCpu rfl

theorem wakeupLoop_still (waiting : List TaskPtr) : StillButGroups s (wakeupLoop c r waiting s) := by
  induction waiting generalizing s with
  | nil =>
    have herase : StillButGroups s (s.eraseGroup c r) := (Agree.refl s).setCpu rfl
    exact herase
  | cons t rest ih =>
    exact ((((setWaiting_still s c r rest).check rfl).check rfl).trans
      (wakeTask_still _ c t).butGroups).trans (ih _)

theorem wakeup_still : StillButGroups s (wakeup c r s) := by
  unfold wakeup
  split
  · exact .refl s
  · exact wakeupLoop_still s c r _

theorem wakeupOne_still : StillButGroups s (wakeupOne c r s).2 := by
  unfold wakeupOne
  split
  · exact .refl s
  rename_i t rest _
  have hwake : StillButGroups s (wakeTask c t ((s.setWaiting c r rest).check
      ((s.tcb t).status = .blocked))) :=
    ((setWaiting_still s c r rest).check rfl).trans (wakeTask_still _ c t).butGroups
  simp only
  split
  · exact hwake.setCpu rfl
  · exact hwake

/-! ## `Sleep`, `TickUpdate` and `SendSignal` -/

theorem setWakeTick_still (k : ℕ) : StillButAlarms s (s.modify t (setWakeTick k)) :=
  (Agree.refl s).modify rfl

theorem sleep_still (tick ms : ℕ) : StillButAlarms s (sleep tick c t ms s).2 := by
  unfold sleep
  simp only
  have hwake := setWakeTick_still s t
    (((s.cpuSchedulers c).localTick + ms * tick % 2 ^ 64 / 1000) % 2 ^ 64)
  split
  · exact hwake
  simp only
  refine Agree.setCpu (hwake.trans ?_) rfl
  exact (Still.receive (.refl _) .sleep rfl).butAlarms

def wakeRoot (c : N.Core) (t : TaskPtr) (s : State N) : State N :=
  let s := s.setCpu c fun d =>
    { d with sleepingTasks := BinaryHeap.pop (wakeTickCompare s.tcb) d.sleepingTasks }
  let s := s.modify t fun task => task.receive .wakeup
  s.enqueue c (s.tcb t).policy t

theorem wakeSleepers_succ (k : ℕ) :
    wakeSleepers c (k + 1) s = match (s.cpuSchedulers c).sleepingTasks[0]? with
      | none => s
      | some t =>
        if (s.cpuSchedulers c).localTick < (s.tcb t).schedInfo.wakeTick then s
        else wakeSleepers c k (wakeRoot c t s) := rfl

theorem wakeSleepers_induction {P : State N → State N → Prop} (hrefl : ∀ s, P s s)
    (hroot : ∀ s t s', (s.cpuSchedulers c).sleepingTasks[0]? = some t → P (wakeRoot c t s) s' →
      P s s') (k : ℕ) : P s (wakeSleepers c k s) := by
  induction k generalizing s with
  | zero => exact hrefl s
  | succ k ih =>
    rw [wakeSleepers_succ]
    cases htop : (s.cpuSchedulers c).sleepingTasks[0]? with
    | none => exact hrefl s
    | some t =>
      simp only
      split
      · exact hrefl s
      · exact hroot s t _ htop (ih _)

theorem wakeRoot_still : StillButAlarms s (wakeRoot c t s) := by
  have hpop : ∀ sleepingTasks, StillButAlarms s (s.setCpu c fun d => { d with sleepingTasks }) :=
    fun sleepingTasks => (Agree.refl s).setCpu rfl
  exact (hpop _).trans ((Still.receive (.refl _) .wakeup rfl).enqueue c _ t).butAlarms

theorem wakeSleepers_still (k : ℕ) : StillButAlarms s (wakeSleepers c k s) :=
  wakeSleepers_induction s c Agree.refl (fun s t _ _ h => (wakeRoot_still s c t).trans h) k

theorem tickUpdate_still : StillButAlarms s (tickUpdate c s).2 := by
  have htick : StillButAlarms s (s.advanceTick c) := (Agree.refl s).setCpu rfl
  exact (htick.trans (wakeSleepers_still _ c _)).trans (chargeCurrent_still _ c).butAlarms

theorem sendSignal_still (pid : Pid) (signum : ℤ) :
    StillButAlarms s (sendSignal pid signum s).2 :=
  sendSignal_induction (.refl s) (fun _ _ _ => (Agree.refl s).modify rfl)
    (fun _ _ _ h => h.modify rfl) signum

end Operations

end SimpleKernel.TaskManager
