import SimpleKernel.Verification.Task.Lifecycle

/-! The operations on thread groups, pids and memory leave the data of the schedulers alone. So do
`AddTask` and `Clone`, up to the `Enqueue` of the task that they create. `Block` never leaves an
empty list in `blocked_tasks`, and `Wakeup` and `WakeupOne` erase the lists that they empty. -/

namespace SimpleKernel.TaskManager

open VirtualMemory (CpuIo Allocator)

variable {N : CoreCount} {s s' : State N} {t : TaskPtr} {c : N.Core} {r : ResourceId}

abbrev Aside (s s' : State N) : Prop := Agree (·.schedInfo) id (·.nextTask) s s'

theorem Aside.groups (h : Aside s s') : s'.groups = s.groups :=
  funext fun i => congrArg (·.blockedTasks) (h.cpu i)

theorem Aside.calm (h : Aside s s') : Calm s s' :=
  ⟨fun t => congrArg (·.wakeTick) (h.task t),
    fun i => congrArg (fun d => (d.sleepingTasks, d.localTick)) (h.cpu i), rfl⟩

theorem Inert.aside (h : Inert s s') : Aside s s' :=
  ⟨fun t => congrArg (·.schedInfo) (h.task t), h.cpu, congrArg (·.1.1) h.rest⟩

theorem Polled.aside (h : Polled s s') : Aside s s' :=
  ⟨fun t => congrArg (·.schedInfo) (h.task t), h.cpu, congrArg (·.nextTask) h.rest⟩

/-- A control block may have been created, and its task may have been enqueued at the end. -/
inductive Arrives (s : State N) : State N → Prop where
  | aside {s₁} : Aside s s₁ → Arrives s s₁
  | created {task s₁} : Aside (s.create task) s₁ → Arrives s s₁
  | enqueued {task s₁ i p} : Aside (s.create task) s₁ → Arrives s (s₁.enqueue i p s.nextTask)

section Operations

variable (s : State N) (t : TaskPtr)

/-! ## `Exit` -/

theorem exit_aside (code : ℤ) : Aside s (exit t code s).2 := by
  unfold exit
  simp only
  set s₁ := s.modify t fun task => { task with aux := { task.aux with exitCode := code } }
  have hleave : Aside s (unlink t s₁) :=
    ((Agree.refl s).modify rfl).trans (unlink_regrouped s₁ t).inert.aside
  have hexit : ∀ msg, Aside s ((unlink t s₁).modify t fun task => task.receive msg) :=
    fun msg => hleave.modify rfl
  split
  · exact (hexit _).trans (reparentChildren_regrouped _ t).inert.aside
  · exact hexit _

/-! ## The destructor and the task table -/

variable (A : CpuIo) (al : Allocator A) (c : N.Core)

theorem reap_aside : Aside s (reap A t s) := by
  unfold reap
  simp only
  split
  · exact .refl s
  rename_i u _
  have herase : Aside s { s with taskTable := s.taskTable.erase (s.tcb t).pid } :=
    ⟨fun _ => rfl, fun _ => rfl, rfl⟩
  exact herase.trans (destroy_inert A u _).aside

theorem assignIds_aside : Aside s (assignIds t s) := by
  obtain ⟨pidAllocator, heq⟩ := assignIds_eq t s
  have halloc : Aside s { s with pidAllocator } := ⟨fun _ => rfl, fun _ => rfl, rfl⟩
  rw [heq]
  exact halloc.modify rfl

theorem insertTask_aside : Aside s (insertTask A t s) := by
  unfold insertTask
  have hinsert : Aside s { s with taskTable := s.taskTable.insert (s.tcb t).pid t } :=
    ⟨fun _ => rfl, fun _ => rfl, rfl⟩
  simp only
  cases s.taskTable.lookup (s.tcb t).pid with
  | none => exact hinsert
  | some u => exact hinsert.trans (destroy_inert A u _).aside

/-! ## `AddTask` and `Clone` -/

theorem addTask_aside : ∃ s', Aside s s' ∧
    (addTask A c t s = s' ∨ ∃ i p, addTask A c t s = s'.enqueue i p t) := by
  have hassign := assignIds_aside s t
  unfold addTask
  simp only
  split
  · exact ⟨_, hassign.trans (destroy_inert A t _).aside, .inl rfl⟩
  · have hinsert := hassign.trans (insertTask_aside (assignIds t s) t A)
    exact ⟨_, hinsert.modify (f := fun task => task.receive .schedule) rfl, .inr ⟨_, _, rfl⟩⟩

theorem addTask_arrives (task : TaskControlBlock) :
    Arrives s (addTask A c s.nextTask (s.create task)) := by
  obtain ⟨s₁, h, heq | ⟨i, p, heq⟩⟩ := addTask_aside (s.create task) s.nextTask A c
  · rw [heq]
    exact .created h
  · rw [heq]
    exact .enqueued h

theorem clone_arrives (flags : BitVec 64) : Arrives s (clone A al c flags s).2 := by
  obtain ⟨_, hclone⟩ | ⟨parent, hcur, hpid⟩ := clone_cases A al c flags s
  · rw [hclone]
    exact .aside ⟨fun _ => rfl, fun _ => rfl, rfl⟩
  obtain ⟨s₁, hs₁, hclone⟩ := clone_equipped A al flags hcur hpid
  have hcreate : Aside (s.create (cloneTask (s.tcb parent) s.pidAllocator (completeFlags flags)))
      s₁ := by
    refine Agree.trans ?_ (Inert.aside
      ((cloneThreadGroup_regrouped _ parent s.nextTask _).inert.trans hs₁.inert))
    exact ⟨fun _ => rfl, fun _ => rfl, rfl⟩
  obtain hclone | hclone := hclone
  · rw [hclone]
    exact .created (hcreate.trans (destroy_inert A s.nextTask s₁).aside)
  obtain ⟨s₂, hadd, heq | ⟨i, p, heq⟩⟩ := addTask_aside s₁ s.nextTask A c
  · rw [hclone, heq]
    exact .created (hcreate.trans hadd)
  · rw [hclone, heq]
    exact .enqueued (hcreate.trans hadd)

end Operations

/-! ## The groups of blocked tasks -/

def State.GroupsIn (ids : N.Core → ResourceId → Prop) (s : State N) : Prop :=
  ∀ i r list, (s.groups i).lookup r = some list → list ≠ [] ∧ ids i r

theorem groups_check (s : State N) (holds : Bool) : (s.check holds).groups = s.groups := rfl

theorem groups_wakeTask (s : State N) (c : N.Core) (t : TaskPtr) :
    (wakeTask c t s).groups = s.groups :=
  (wakeTask_still s c t).butAlarms.groups

theorem Arrives.groups (h : Arrives s s') : s'.groups = s.groups := by
  cases h with
  | aside h => exact h.groups
  | created h => exact h.groups
  | enqueued h => exact (Still.enqueue (.refl _) _ _ _).butAlarms.groups.trans h.groups

theorem groups_initCurrentCore (h : (s.cpuSchedulers c).schedulers = none) :
    (initCurrentCore c s).groups = s.groups := by
  rw [initCurrentCore_eq h]
  change (State.setCpu s c fun d => { d with schedulers := _ }).groups = _
  exact funext (setCpu_cpuSchedulers_read s c _ (·.blockedTasks) (by rfl))

/-! ## Operations on one list -/

section

variable (s c r)

theorem lookup_setWaiting (list : List TaskPtr)
    (i : N.Core) (r' : ResourceId) : ((s.setWaiting c r list).groups i).lookup r' =
      if i = c ∧ r' = r then some list else (s.groups i).lookup r' := by
  by_cases hi : i = c
  · subst hi
    by_cases hr : r' = r
    · subst hr
      simp [State.groups, State.setWaiting]
    · simp [State.groups, State.setWaiting, hr, AList.lookup_insert_ne hr]
  · simp [State.groups, State.setWaiting, hi, setCpu_cpuSchedulers_of_ne s c _ hi]

theorem lookup_eraseGroup (i : N.Core) (r' : ResourceId) : ((s.eraseGroup c r).groups i).lookup r' =
      if i = c ∧ r' = r then none else (s.groups i).lookup r' := by
  by_cases hi : i = c
  · subst hi
    by_cases hr : r' = r
    · subst hr
      simp [State.groups, State.eraseGroup]
    · simp [State.groups, State.eraseGroup, hr, AList.lookup_erase_ne hr]
  · simp [State.groups, State.eraseGroup, hi, setCpu_cpuSchedulers_of_ne s c _ hi]

end

theorem lookup_wakeupLoop (waiting : List TaskPtr) (s : State N) (c : N.Core) (r : ResourceId)
    (i : N.Core) (r' : ResourceId) : ((wakeupLoop c r waiting s).groups i).lookup r' =
      if i = c ∧ r' = r then none else (s.groups i).lookup r' := by
  induction waiting generalizing s with
  | nil => exact lookup_eraseGroup s c r i r'
  | cons t rest ih =>
    rw [wakeupLoop, ih]
    simp only [groups_wakeTask, groups_check, lookup_setWaiting]
    split <;> rfl

variable {ids : N.Core → ResourceId → Prop} (h : s.GroupsIn ids)

include h

theorem State.GroupsIn.of_groups_eq (hg : s'.groups = s.groups) : s'.GroupsIn ids := by
  intro i r
  rw [hg]
  exact h i r

theorem State.GroupsIn.block (t : TaskPtr) (hr : ids c r) : (block c t r s).GroupsIn ids := by
  intro i r' list
  unfold TaskManager.block
  simp only
  split
  · exact h i r' list
  split
  · exact h i r' list
  rw [lookup_setWaiting]
  split
  · rename_i hsame
    rintro ⟨⟩
    exact ⟨by simp, hsame.1 ▸ hsame.2 ▸ hr⟩
  · exact h i r' list

variable (c r)

theorem State.GroupsIn.wakeup : (wakeup c r s).GroupsIn ids := by
  intro i r' list
  unfold TaskManager.wakeup
  split
  · exact h i r' list
  rw [lookup_wakeupLoop]
  split
  · nofun
  · exact h i r' list

theorem State.GroupsIn.wakeupOne : (wakeupOne c r s).2.GroupsIn ids := by
  intro i r' list
  unfold TaskManager.wakeupOne
  split
  · exact h i r' list
  rename_i t rest hwaiting
  have hr : ids c r := by
    cases hlist : (s.groups c).lookup r with
    | none =>
      rw [CpuSchedData.waiting, show (s.cpuSchedulers c).blockedTasks.lookup r = none from hlist]
        at hwaiting
      cases hwaiting
    | some list => exact (h c r list hlist).2
  split
  · rw [lookup_eraseGroup, groups_wakeTask, groups_check, lookup_setWaiting]
    split
    · nofun
    · exact h i r' list
  rename_i hrest
  rw [groups_wakeTask, groups_check, lookup_setWaiting]
  split
  · rename_i hsame
    rintro ⟨⟩
    exact ⟨fun hempty => hrest (by rw [hempty]; rfl), hsame.1 ▸ hsame.2 ▸ hr⟩
  · exact h i r' list

end SimpleKernel.TaskManager
