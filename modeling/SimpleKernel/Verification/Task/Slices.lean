import SimpleKernel.Verification.Task.Alarms

/-! Tasks enter the queue of a round-robin scheduler at its end, and a time slice is given to tasks
that are enqueued or dispatched only. -/

namespace SimpleKernel.TaskManager

open List

variable {N : CoreCount} {s s' s'' : State N} {c : N.Core} {t u : TaskPtr} {r : ResourceId}
  {touched touched' : TaskPtr → Prop}

/-! ## Time slices -/

/-- The time slice of a task is used up or given anew, and does not exceed the default. -/
structure Recharged (info info' : SchedInfo) : Prop where
  sliceDefault : info'.timeSliceDefault = info.timeSliceDefault
  bounded : info.timeSliceRemaining ≤ info.timeSliceDefault →
    info'.timeSliceRemaining ≤ info'.timeSliceDefault

theorem Recharged.refl (info : SchedInfo) : Recharged info info := ⟨rfl, id⟩

theorem Recharged.trans {info info' info'' : SchedInfo} (h : Recharged info info')
    (h' : Recharged info' info'') : Recharged info info'' :=
  ⟨h'.sliceDefault.trans h.sliceDefault, fun hle => h'.bounded (h.bounded hle)⟩

theorem recharged_resetTimeSlice (task : TaskControlBlock) :
    Recharged task.schedInfo task.resetTimeSlice.schedInfo := ⟨rfl, fun _ => le_rfl⟩

/-- Only `touched` tasks get another time slice, of those that exist. -/
structure Slices (touched : TaskPtr → Prop) (s s' : State N) : Prop where
  created : s.nextTask ≤ s'.nextTask
  started : ∀ i, (s.cpuSchedulers i).schedulerStarted = true →
    (s'.cpuSchedulers i).schedulerStarted = true
  recharged : ∀ t < s.nextTask, Recharged (s.tcb t).schedInfo (s'.tcb t).schedInfo
  untouched : ∀ t < s.nextTask, ¬ touched t →
    (s'.tcb t).schedInfo.timeSliceRemaining = (s.tcb t).schedInfo.timeSliceRemaining

namespace Slices

theorem refl (touched : TaskPtr → Prop) (s : State N) : Slices touched s s :=
  ⟨le_rfl, fun _ => id, fun _ _ => .refl _, fun _ _ _ => rfl⟩

theorem trans (h : Slices touched s s') (h' : Slices touched s' s'') : Slices touched s s'' := by
  refine ⟨h.created.trans h'.created, fun i hi => h'.started i (h.started i hi), ?_, ?_⟩
  · intro t ht
    exact (h.recharged t ht).trans (h'.recharged t (ht.trans_le h.created))
  · intro t ht hno
    exact (h'.untouched t (ht.trans_le h.created) hno).trans (h.untouched t ht hno)

theorem mono (h : Slices touched s s') (hsub : ∀ t < s.nextTask, touched t → touched' t) :
    Slices touched' s s' :=
  ⟨h.created, h.started, h.recharged,
    fun t ht hno => h.untouched t ht fun htouched => hno (hsub t ht htouched)⟩

variable {f : TaskControlBlock → TaskControlBlock}

theorem modify (h : Slices touched s s')
    (hf : Recharged (s'.tcb t).schedInfo (f (s'.tcb t)).schedInfo)
    (ht : touched t ∨ (f (s'.tcb t)).schedInfo.timeSliceRemaining =
      (s'.tcb t).schedInfo.timeSliceRemaining) : Slices touched s (s'.modify t f) := by
  refine ⟨h.created, h.started, fun u hu => ?_, fun u hu hno => ?_⟩
  all_goals by_cases hut : u = t
  · subst hut
    rw [modify_tcb_self]
    exact (h.recharged u hu).trans hf
  · rw [modify_tcb_of_ne s' t f hut]
    exact h.recharged u hu
  · subst hut
    rw [modify_tcb_self, ht.resolve_left hno]
    exact h.untouched u hu hno
  · rw [modify_tcb_of_ne s' t f hut]
    exact h.untouched u hu hno

theorem modify_of_eq (h : Slices touched s s')
    (hf : (f (s'.tcb t)).schedInfo = (s'.tcb t).schedInfo) : Slices touched s (s'.modify t f) := by
  apply h.modify
  · rw [hf]
    exact .refl _
  · rw [hf]
    exact .inr rfl

theorem setCpu (h : Slices touched s s') {f : CpuSchedData → CpuSchedData}
    (hf : (s'.cpuSchedulers c).schedulerStarted = true →
      (f (s'.cpuSchedulers c)).schedulerStarted = true) : Slices touched s (s'.setCpu c f) := by
  refine ⟨h.created, ?_, h.recharged, h.untouched⟩
  intro i hi
  by_cases hic : i = c
  · subst hic
    rw [setCpu_cpuSchedulers_self]
    exact hf (h.started i hi)
  · rw [setCpu_cpuSchedulers_of_ne s' c f hic]
    exact h.started i hi

end Slices

/-! ## Places in the queues -/

def State.normalQueue (s : State N) (c : N.Core) : List TaskPtr :=
  (s.cpuSchedulers c).readyQueue .normal

/-- All tasks in these queues keep their places: others are added behind them. -/
structure InLine (touched : TaskPtr → Prop) (s s' : State N) : Prop extends
    Slices touched s s' where
  queue : ∀ i, s.normalQueue i <+: s'.normalQueue i

namespace InLine

theorem refl (touched : TaskPtr → Prop) (s : State N) : InLine touched s s :=
  ⟨.refl touched s, fun _ => prefix_rfl⟩

theorem trans (h : InLine touched s s') (h' : InLine touched s' s'') : InLine touched s s'' :=
  ⟨h.toSlices.trans h'.toSlices, fun i => (h.queue i).trans (h'.queue i)⟩

theorem mono (h : InLine touched s s') (hsub : ∀ t < s.nextTask, touched t → touched' t) :
    InLine touched' s s' :=
  ⟨h.toSlices.mono hsub, h.queue⟩

theorem modify_of_eq (h : InLine touched s s') {f : TaskControlBlock → TaskControlBlock}
    (hf : (f (s'.tcb t)).schedInfo = (s'.tcb t).schedInfo) : InLine touched s (s'.modify t f) :=
  ⟨h.toSlices.modify_of_eq hf, h.queue⟩

variable {f : CpuSchedData → CpuSchedData}

section

variable (h : InLine touched s s')
include h

theorem setCpu (hf : (s'.cpuSchedulers c).schedulerStarted = true →
      (f (s'.cpuSchedulers c)).schedulerStarted = true)
    (hq : (s'.cpuSchedulers c).readyQueue .normal <+: (f (s'.cpuSchedulers c)).readyQueue .normal) :
    InLine touched s (s'.setCpu c f) := by
  refine ⟨h.toSlices.setCpu hf, ?_⟩
  intro i
  apply (h.queue i).trans
  unfold State.normalQueue
  by_cases hi : i = c
  · subst hi
    rw [setCpu_cpuSchedulers_self]
    exact hq
  · rw [setCpu_cpuSchedulers_of_ne s' c f hi]

theorem setCpu_of_eq
    (hf : (f (s'.cpuSchedulers c)).schedulerStarted = (s'.cpuSchedulers c).schedulerStarted)
    (hq : (f (s'.cpuSchedulers c)).schedulers = (s'.cpuSchedulers c).schedulers) :
    InLine touched s (s'.setCpu c f) := by
  apply h.setCpu
  · rw [hf]
    exact id
  · unfold CpuSchedData.readyQueue
    rw [hq]

theorem check (holds : Bool) : InLine touched s (s'.check holds) :=
  ⟨⟨h.created, h.started, h.recharged, h.untouched⟩, h.queue⟩

theorem enqueue (c : N.Core) (p : SchedPolicy) (ht : touched t) :
    InLine touched s (s'.enqueue c p t) := by
  unfold State.enqueue
  cases hd : (s'.cpuSchedulers c).schedulers with
  | none => exact h
  | some schedulers =>
    obtain ⟨hqueue, hslice⟩ : schedulers.readyQueue .normal <+:
          (schedulers.enqueue p t (s'.tcb t)).1.readyQueue .normal ∧
        Recharged (s'.tcb t).schedInfo (schedulers.enqueue p t (s'.tcb t)).2.schedInfo := by
      cases p with
      | realTime | idle => exact ⟨prefix_rfl, .refl _⟩
      | normal =>
        unfold Schedulers.enqueue RoundRobinScheduler.enqueue
        dsimp only
        split
        · exact ⟨prefix_rfl, .refl _⟩
        · exact ⟨prefix_append _ _, recharged_resetTimeSlice _⟩
    dsimp only
    generalize schedulers.enqueue p t (s'.tcb t) = result at hqueue hslice ⊢
    have hcpu : InLine touched s
        (s'.setCpu c fun d => { d with schedulers := some result.1 }) := by
      refine h.setCpu id ?_
      unfold CpuSchedData.readyQueue
      rw [hd]
      exact hqueue
    exact ⟨hcpu.toSlices.modify hslice (.inl ht), hcpu.queue⟩

end

theorem create (touched : TaskPtr → Prop) (s : State N) (task : TaskControlBlock) :
    InLine touched s (s.create task) := by
  refine ⟨⟨Nat.le_succ _, fun _ => id, ?_, ?_⟩, fun _ => prefix_rfl⟩
  · intro t ht
    rw [create_tcb_of_lt s task ht]
    exact .refl _
  · intro t ht _
    rw [create_tcb_of_lt s task ht]

end InLine

theorem Aside.inLine (h : Aside s s') (touched : TaskPtr → Prop) : InLine touched s s' := by
  have hcpu : s'.cpuSchedulers = s.cpuSchedulers := funext h.cpu
  have hnext : s'.nextTask = s.nextTask := h.rest
  refine ⟨⟨hnext.ge, ?_, ?_, ?_⟩, ?_⟩
  · rw [hcpu]
    exact fun _ => id
  · intro t _
    rw [h.task]
    exact .refl _
  · intro t _ _
    rw [h.task]
  · intro i
    unfold State.normalQueue
    rw [hcpu]

theorem Arrives.inLine (h : Arrives s s') (touched : TaskPtr → Prop) : InLine touched s s' := by
  have hnew : InLine (fun t => s.nextTask ≤ t) s s' := by
    cases h with
    | aside h => exact h.inLine _
    | @created task _ h => exact (InLine.create _ s task).trans (h.inLine _)
    | @enqueued task s₁ i p h =>
      exact ((InLine.create _ s task).trans (h.inLine _)).enqueue i p le_rfl
  exact hnew.mono fun t ht hle => absurd ht hle.not_gt

/-! ## The critical sections -/

section Operations

variable (s : State N) (c : N.Core) (t : TaskPtr) (r : ResourceId)

theorem requeue_inLine (ht : touched t) : InLine touched s (requeue c t s) := by
  unfold requeue
  cases hd : (s.cpuSchedulers c).schedulers with
  | none => exact .refl touched s
  | some schedulers =>
    dsimp only
    set p := (s.tcb t).policy
    have hcpu : InLine touched s
        (s.setCpu c fun d => { d with schedulers := some (schedulers.onPreempted p) }) := by
      refine (InLine.refl touched s).setCpu id ?_
      unfold CpuSchedData.readyQueue
      rw [hd]
      cases p <;> exact prefix_rfl
    have hexpired : ∀ task : TaskControlBlock,
        Recharged task.schedInfo (Schedulers.onTimeSliceExpired p task).schedInfo := by
      intro task
      cases p with
      | realTime | idle => exact .refl _
      | normal => exact recharged_resetTimeSlice task
    have hmodify : InLine touched s ((s.setCpu c fun d =>
        { d with schedulers := some (schedulers.onPreempted p) }).modify t
          (Schedulers.onTimeSliceExpired p)) :=
      ⟨hcpu.toSlices.modify (hexpired _) (.inl ht), hcpu.queue⟩
    split
    · exact hmodify.enqueue c p ht
    · exact hmodify

theorem yieldCurrent_inLine (ht : touched t) : InLine touched s (yieldCurrent c t s) := by
  unfold yieldCurrent
  split
  · exact ((InLine.refl touched s).modify_of_eq rfl).trans (requeue_inLine _ c t ht)
  · exact .refl touched s

theorem pickNext_slices (touched : TaskPtr → Prop) : Slices touched s (pickNext c s).2 := by
  unfold pickNext
  split
  · exact .refl touched s
  · dsimp only
    exact (Slices.refl touched s).setCpu id

theorem dispatch_slices (ht : touched t) : Slices touched s (dispatch c t s) := by
  have hrun : ∀ perCpu s', Slices touched s s' → Slices touched s { s' with perCpu } :=
    fun _ _ h => ⟨h.created, h.started, h.recharged, h.untouched⟩
  refine hrun _ _ (Slices.setCpu (Slices.modify (Slices.modify ?_ (recharged_resetTimeSlice _)
    (.inl ht)) ⟨rfl, id⟩ (.inr rfl)) id)
  exact Slices.modify_of_eq ((InLine.refl touched s).check _).toSlices rfl

theorem dispatch_normalQueue (i : N.Core) : (dispatch c t s).normalQueue i = s.normalQueue i := by
  unfold State.normalQueue dispatch
  rw [setCpu_cpuSchedulers_read _ c _ (fun d => d.readyQueue .normal) rfl]
  rfl

theorem block_inLine (touched : TaskPtr → Prop) : InLine touched s (block c t r s) := by
  unfold block
  dsimp only
  split
  · exact (InLine.refl touched s).check _
  split
  · exact .refl touched s
  · exact ((InLine.refl touched s).modify_of_eq rfl).setCpu_of_eq rfl rfl

theorem setWakeTick_inLine (touched : TaskPtr → Prop) (w : ℕ) :
    InLine touched s (s.modify t (setWakeTick w)) :=
  ⟨(Slices.refl touched s).modify ⟨rfl, id⟩ (.inr rfl), fun _ => prefix_rfl⟩

theorem sleep_inLine (touched : TaskPtr → Prop) (tick ms : ℕ) :
    InLine touched s (sleep tick c t ms s).2 := by
  unfold sleep
  dsimp only
  split
  · exact setWakeTick_inLine s t touched _
  have hsleep : ∀ w, InLine touched s
      ((s.modify t (setWakeTick w)).modify t fun task => task.receive .sleep) :=
    fun w => (setWakeTick_inLine s t touched w).modify_of_eq rfl
  dsimp only
  exact (hsleep _).setCpu_of_eq rfl rfl

theorem sendSignal_inLine (touched : TaskPtr → Prop) (pid : Pid) (signum : ℤ) :
    InLine touched s (sendSignal pid signum s).2 :=
  sendSignal_induction (.refl touched s) (fun _ _ _ => (InLine.refl touched s).modify_of_eq rfl)
    (fun t _ s' h => h.trans (setWakeTick_inLine s' t touched 0)) signum

theorem wakeTask_inLine (ht : touched t) : InLine touched s (wakeTask c t s) := by
  exact (((InLine.refl touched s).modify_of_eq rfl).check _).enqueue c _ ht

theorem wakeupLoop_inLine (waiting : List TaskPtr) (h : ∀ t ∈ waiting, touched t) :
    InLine touched s (wakeupLoop c r waiting s) := by
  induction waiting generalizing s with
  | nil =>
    have herase : InLine touched s (s.eraseGroup c r) :=
      (InLine.refl touched s).setCpu_of_eq rfl rfl
    exact herase
  | cons t rest ih =>
    have htake : InLine touched s (s.setWaiting c r rest) :=
      (InLine.refl touched s).setCpu_of_eq rfl rfl
    refine (((htake.check _).check _).trans (wakeTask_inLine _ c t (h t mem_cons_self))).trans
      (ih _ ?_)
    exact fun u hu => h u (mem_cons_of_mem t hu)

theorem wakeup_inLine (h : ∀ t ∈ (s.cpuSchedulers c).waiting r, touched t) :
    InLine touched s (wakeup c r s) := by
  unfold wakeup
  cases hw : (s.cpuSchedulers c).blockedTasks.lookup r with
  | none => exact .refl touched s
  | some waiting =>
    apply wakeupLoop_inLine
    intro t ht
    apply h
    unfold CpuSchedData.waiting
    rw [hw]
    exact ht

theorem wakeupOne_inLine (h : ∀ t ∈ (s.cpuSchedulers c).waiting r, touched t) :
    InLine touched s (wakeupOne c r s).2 := by
  unfold wakeupOne
  cases hw : (s.cpuSchedulers c).waiting r with
  | nil => exact .refl touched s
  | cons t rest =>
    have ht : touched t := h t (by rw [hw]; exact mem_cons_self)
    have htake : InLine touched s (s.setWaiting c r rest) :=
      (InLine.refl touched s).setCpu_of_eq rfl rfl
    have hwake := (htake.check ((s.tcb t).status = .blocked)).trans (wakeTask_inLine _ c t ht)
    dsimp only
    split
    · exact hwake.setCpu_of_eq rfl rfl
    · exact hwake

theorem wakeSleepers_inLine (k : ℕ) (h : ∀ t ∈ (s.cpuSchedulers c).sleepingTasks, touched t) :
    InLine touched s (wakeSleepers c k s) := by
  revert h
  refine wakeSleepers_induction s c
    (P := fun s s' => (∀ t ∈ (s.cpuSchedulers c).sleepingTasks, touched t) → InLine touched s s')
    (fun s _ => .refl touched s) (fun s t _ htop ih h => ?_) k
  have hroot : InLine touched s (wakeRoot c t s) := by
    refine InLine.enqueue ?_ c _ (h t (Array.mem_of_getElem? htop))
    exact ((InLine.refl touched s).setCpu_of_eq rfl rfl).modify_of_eq rfl
  refine hroot.trans (ih fun u hu => h u ?_)
  rw [wakeRoot_sleepers, if_pos rfl, ← Array.mem_toList_iff] at hu
  rw [← Array.mem_toList_iff]
  exact (BinaryHeap.pop_perm htop).mem_iff.mpr (mem_cons_of_mem t hu)

theorem chargeCurrent_inLine (h : ∀ t, s.currentTask c = some t → touched t) :
    InLine touched s (chargeCurrent c s).2 := by
  unfold chargeCurrent
  cases hcur : s.currentTask c with
  | none => exact .refl touched s
  | some t =>
    dsimp only
    split
    · dsimp only
      refine ⟨(Slices.refl touched s).modify ⟨rfl, ?_⟩ (.inl (h t hcur)), fun _ => prefix_rfl⟩
      intro hle
      exact (Nat.sub_le _ 1).trans hle
    · exact .refl touched s

theorem tickUpdate_inLine (hsleepers : ∀ t ∈ (s.cpuSchedulers c).sleepingTasks, touched t)
    (hcurrent : ∀ t, s.currentTask c = some t → touched t) :
    InLine touched s (tickUpdate c s).2 := by
  have hlocal : InLine touched s (s.advanceTick c) :=
    (InLine.refl touched s).setCpu_of_eq rfl rfl
  rw [← sleepers_advanceTick s c c] at hsleepers
  refine (hlocal.trans (wakeSleepers_inLine _ c _ hsleepers)).trans (chargeCurrent_inLine _ c ?_)
  intro t ht
  rw [(wakeSleepers_quiet c _ _).running] at ht
  exact hcurrent t ht

end Operations

end SimpleKernel.TaskManager
