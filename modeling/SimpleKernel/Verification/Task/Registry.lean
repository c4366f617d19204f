import SimpleKernel.Verification.Task.Steps

/-! The tasks in the table and how they ended. `Exit` records the end of a task and gives its
children away, `Wait` takes it out of the table, `AddTask` and `Clone` enter tasks. -/

namespace SimpleKernel.TaskManager

open Function
open VirtualMemory (CpuIo Allocator)

variable {N : CoreCount} {A : CpuIo} {al : Allocator A} {tick : ℕ} {s s' : State N} {c : N.Core}
  {t u : TaskPtr} {m m' : Machine N} {a : Action N}

theorem ids_of_kin_eq (h : s'.kin = s.kin) : s'.ids = s.ids :=
  funext fun t => congrArg Kin.toIdentity (congrFun h t)

theorem ids_modify_self (s : State N) (t : TaskPtr) (f : TaskControlBlock → TaskControlBlock) :
    (s.modify t f).ids t = (kinOf (f (s.tcb t))).toIdentity := by
  simp [State.ids, State.kin]

theorem ids_modify_of_ne (s : State N) (f : TaskControlBlock → TaskControlBlock) (hu : u ≠ t) :
    (s.modify t f).ids u = s.ids u := by
  simp [State.ids, State.kin, modify_tcb_of_ne s t f hu]

theorem ids_modify_of_eq {f : TaskControlBlock → TaskControlBlock}
    (hf : (kinOf (f (s.tcb t))).toIdentity = s.ids t) : (s.modify t f).ids = s.ids :=
  funext (modify_tcb_read s t f (fun task => (kinOf task).toIdentity) hf)

theorem isDead_eq_fate (s : State N) (t : TaskPtr) :
    isDead (s.tcb t).status = (s.ids t).fate.isSome := by
  change _ = (fate (s.tcb t).status).isSome
  unfold fate
  cases isDead (s.tcb t).status <;> rfl

theorem zombie_iff_fate (s : State N) (t : TaskPtr) :
    (s.tcb t).status = .zombie ↔ (s.ids t).fate = some .zombie := by
  change _ ↔ fate (s.tcb t).status = _
  cases (s.tcb t).status <;> simp [fate, isDead]

theorem isThreadGroupLeader_of_ids (h : s'.ids t = s.ids t) :
    (s'.tcb t).isThreadGroupLeader = (s.tcb t).isThreadGroupLeader := by
  have hpid : (s'.tcb t).pid = (s.tcb t).pid := congrArg Identity.pid h
  have htgid : (s'.tcb t).aux.tgid = (s.tcb t).aux.tgid := congrArg Identity.tgid h
  rw [TaskControlBlock.isThreadGroupLeader, hpid, htgid]
  rfl

/-! ## The end of a task -/

section Functions

variable (s : State N) (t : TaskPtr)

theorem unlink_ids : (unlink t s).ids = s.ids := by
  unfold unlink
  simp only
  generalize (s.tcb t).previous = previous
  generalize (s.tcb t).next = next
  rw [ids_modify_of_eq rfl]
  cases next with
  | none =>
    cases previous with
    | none => rfl
    | some p => exact ids_modify_of_eq rfl
  | some n =>
    rw [ids_modify_of_eq rfl]
    cases previous with
    | none => rfl
    | some p => exact ids_modify_of_eq rfl

variable (A : CpuIo) (al : Allocator A) (c : N.Core)

theorem destroy_ids : (destroy A t s).ids = s.ids := by
  unfold destroy
  rw [ids_modify_of_eq rfl]
  exact unlink_ids s t

theorem destroy_destroyed : (destroy A t s).destroyed = t :: s.destroyed :=
  congrArg (t :: ·) (unlink_regrouped s t).destroyed

theorem reap_destroyed : (reap A t s).destroyed =
    (s.taskTable.lookup (s.tcb t).pid).toList ++ s.destroyed := by
  unfold reap
  simp only
  split
  · rename_i hnone
    rw [hnone]
    rfl
  · rename_i u hsome
    rw [destroy_destroyed, hsome]
    rfl

theorem reap_ids : (reap A t s).ids = s.ids := by
  unfold reap
  simp only
  split
  · rfl
  · rw [destroy_ids]
    rfl

theorem reap_lookup (p : Pid) : (reap A t s).taskTable.lookup p =
    if p = (s.tcb t).pid then none else s.taskTable.lookup p := by
  unfold reap
  simp only
  cases hl : s.taskTable.lookup (s.tcb t).pid with
  | none =>
    by_cases hp : p = (s.tcb t).pid
    · rw [if_pos hp, hp, hl]
    · rw [if_neg hp]
  | some u =>
    rw [(destroy_inert A u _).taskTable]
    by_cases hp : p = (s.tcb t).pid
    · rw [if_pos hp, hp, AList.lookup_erase]
    · rw [if_neg hp, AList.lookup_erase_ne hp]

/-! ## New tasks -/

theorem assignIds_ids (hu : u ≠ t) : (assignIds t s).ids u = s.ids u := by
  obtain ⟨_, heq⟩ := assignIds_eq t s
  rw [heq, ids_modify_of_ne _ _ hu]
  rfl

theorem insertTask_ids : (insertTask A t s).ids = s.ids := by
  unfold insertTask
  simp only
  cases s.taskTable.lookup (s.tcb t).pid with
  | none => rfl
  | some u => exact destroy_ids _ u A

theorem addTask_ids (hu : u ≠ t) : (addTask A c t s).ids u = s.ids u := by
  have hassign := assignIds_ids s t hu
  rcases addTask_cases s t A c with ⟨-, heq⟩ | hstill
  · rw [heq, destroy_ids, hassign]
  · rw [ids_of_kin_eq hstill.kept.kin, insertTask_ids, hassign]

theorem insertTask_destroyed : (insertTask A t s).destroyed =
    (s.taskTable.lookup (s.tcb t).pid).toList ++ s.destroyed := by
  unfold insertTask
  simp only
  cases s.taskTable.lookup (s.tcb t).pid with
  | none => rfl
  | some u => exact destroy_destroyed _ u A

def Discards (s s' : State N) (t : TaskPtr) : Prop :=
  s'.taskTable = s.taskTable ∧ s'.destroyed = t :: s.destroyed ∧ (s'.tcb t).status = .unInit

def Inserts (s s' : State N) (t : TaskPtr) (pid : Pid) : Prop :=
  s'.taskTable = s.taskTable.insert pid t ∧
    s'.destroyed = (s.taskTable.lookup pid).toList ++ s.destroyed

theorem addTask_entry (hstatus : (s.tcb t).status = .unInit) : Discards s (addTask A c t s) t ∨
    Inserts s (addTask A c t s) t (assignedPid s (s.tcb t)) := by
  obtain ⟨hboard, -, htable, hpid, -⟩ := assignIds_spec t s
  have hdestroyed : (assignIds t s).destroyed = s.destroyed := by
    obtain ⟨_, heq⟩ := assignIds_eq t s
    rw [heq]
    rfl
  rcases addTask_cases s t A c with ⟨-, heq⟩ | hstill
  · have hd := destroy_inert A t (assignIds t s)
    rw [heq]
    refine .inl ⟨hd.taskTable.trans htable, by rw [destroy_destroyed, hdestroyed], ?_⟩
    exact (congrFun (congrArg Board.status (hd.board.trans hboard)) t).trans hstatus
  refine .inr ⟨?_, ?_⟩
  · rw [hstill.kept.frame.taskTable, (insertTask_spec A t _).2.2.1, htable, hpid]
  · rw [hstill.kept.destroyed, insertTask_destroyed, htable, hpid, hdestroyed]

theorem joinThreadGroup_ids (leader : TaskPtr) (hu : u ≠ t) :
    (joinThreadGroup t leader s).ids u = s.ids u := by
  unfold joinThreadGroup
  split
  · rfl
  simp only
  rw [ids_modify_of_eq rfl]
  split
  · exact ids_modify_of_ne s _ hu
  · rw [ids_modify_of_eq rfl]
    exact ids_modify_of_ne s _ hu

theorem cloneThreadGroup_ids (parent : TaskPtr) (flags : BitVec 64) (hu : u ≠ t) :
    (cloneThreadGroup parent t flags s).ids u = s.ids u := by
  obtain heq | ⟨leader, heq⟩ := cloneThreadGroup_cases parent t flags s
  · rw [heq]
  · rw [heq, joinThreadGroup_ids s t leader hu]

theorem Equipped.kin {s' : State N} (h : Equipped t s s') : s'.kin = s.kin := by
  obtain ⟨_, _, _, rfl⟩ := h
  exact kin_modify_of_eq rfl

theorem clone_ids (flags : BitVec 64) (hu : u < s.nextTask) :
    (clone A al c flags s).2.ids u = s.ids u := by
  obtain ⟨_, hclone⟩ | ⟨parent, hcur, hpid⟩ := clone_cases A al c flags s
  · rw [hclone]
    rfl
  obtain ⟨s₁, hs₁, hclone⟩ := clone_equipped A al flags hcur hpid
  have hne : u ≠ s.nextTask := Nat.ne_of_lt hu
  have hsame : (clone A al c flags s).2.ids u = s₁.ids u := by
    obtain hclone | hclone := hclone
    · rw [hclone, destroy_ids]
    · rw [hclone, addTask_ids s₁ s.nextTask A c hne]
  rw [hsame, ids_of_kin_eq hs₁.kin, State.withChild, cloneThreadGroup_ids _ _ parent _ hne]
  exact congrArg (fun task => (kinOf task).toIdentity) (create_tcb_of_lt s _ hu)

theorem clone_entry (flags : BitVec 64) {parent : TaskPtr}
    (hcur : s.currentTask c = some parent) (hpid : s.pidAllocator ≠ 0) :
    Discards s (clone A al c flags s).2 s.nextTask ∨
      Inserts s (clone A al c flags s).2 s.nextTask s.pidAllocator := by
  obtain ⟨s₁, hs₁, hclone⟩ := clone_equipped A al flags hcur hpid
  have hinert : Inert _ _ := (withChild_inert s parent (completeFlags flags)).trans hs₁.inert
  have hdestroyed : s₁.destroyed = s.destroyed := by
    obtain ⟨_, _, _, rfl⟩ := hs₁
    exact (cloneThreadGroup_regrouped _ parent s.nextTask (completeFlags flags)).destroyed
  have hself := create_tcb_self (allocatePid s).2
    (cloneTask (s.tcb parent) s.pidAllocator (completeFlags flags))
  have hstatus : ∀ {s₂ : State N}, s₂.board = s₁.board → (s₂.tcb s.nextTask).status = .unInit :=
    fun hb => (congrFun (congrArg Board.status (hb.trans hinert.board)) s.nextTask).trans
      (congrArg TaskControlBlock.status hself)
  rw [Discards, Inserts, ← hdestroyed, ← show s₁.taskTable = s.taskTable from hinert.taskTable]
  obtain hclone | hclone := hclone
  · have hd := destroy_inert A s.nextTask s₁
    rw [hclone]
    exact .inl ⟨hd.taskTable, destroy_destroyed s₁ s.nextTask A, hstatus hd.board⟩
  have hnew : (s₁.tcb s.nextTask).pid = s.pidAllocator :=
    (hinert.pid _).trans (congrArg TaskControlBlock.pid hself)
  have hentry := addTask_entry s₁ s.nextTask A c (hstatus rfl)
  rw [assignedPid, hnew, if_neg hpid] at hentry
  rw [hclone]
  exact hentry

/-! ## `Exit` -/

def State.endedIds (code : ℤ) (u : TaskPtr) : Identity :=
  if u = t then
    { s.ids t with
      exitCode := code
      fate := some (if (s.ids t).parentPid = 0 then .exited else .zombie) }
  else s.ids u

def State.exitIds (code : ℤ) (u : TaskPtr) : Identity :=
  { s.endedIds t code u with
    parentPid := if (s.tcb t).isThreadGroupLeader ∧ u ∈ s.tasks ∧
        (s.ids u).parentPid = (s.ids t).pid then 1 else (s.ids u).parentPid }

theorem endedIds_kept (code : ℤ) (u : TaskPtr) : (s.endedIds t code u).pid = (s.ids u).pid ∧
    (s.endedIds t code u).parentPid = (s.ids u).parentPid ∧
    (s.endedIds t code u).pgid = (s.ids u).pgid ∧
    (s.endedIds t code u).tgid = (s.ids u).tgid := by
  unfold State.endedIds
  by_cases hu : u = t
  · subst hu
    rw [if_pos rfl]
    exact ⟨rfl, rfl, rfl, rfl⟩
  · rw [if_neg hu]
    exact ⟨rfl, rfl, rfl, rfl⟩

theorem reparentChildren_ids (u : TaskPtr) : (reparentChildren t s).ids u =
    if u ∈ s.tasks ∧ (s.ids u).parentPid = (s.ids t).pid then { s.ids u with parentPid := 1 }
    else s.ids u := by
  have htcb : (reparentChildren t s).tcb u =
      if u ∈ s.tasks ∧ (s.ids u).parentPid = (s.ids t).pid then
        { s.tcb u with aux := { (s.tcb u).aux with parentPid := 1 } }
      else s.tcb u := rfl
  change (kinOf ((reparentChildren t s).tcb u)).toIdentity = _
  rw [htcb]
  by_cases h : u ∈ s.tasks ∧ (s.ids u).parentPid = (s.ids t).pid
  · rw [if_pos h, if_pos h]
    rfl
  · rw [if_neg h, if_neg h]
    rfl

theorem exit_ids (hrun : (s.tcb t).status = .running) (code : ℤ) :
    (exit t code s).2.ids = s.exitIds t code := by
  unfold exit
  simp only
  set s₁ := s.modify t fun task => { task with aux := { task.aux with exitCode := code } } with hs₁
  have hleader : (s₁.tcb t).isThreadGroupLeader = (s.tcb t).isThreadGroupLeader := by
    rw [hs₁, modify_tcb_self]
    rfl
  have hunlink := unlink_ids s₁ t
  have hsilent := (unlink_regrouped s₁ t).silent
  have htasks : (unlink t s₁).tasks = s.tasks := congrArg (fun table => table.entries.map Sigma.snd)
    hsilent.frame.taskTable
  have hstatus : ((unlink t s₁).tcb t).status = .running := by
    refine (congrFun (congrArg Board.status hsilent.board) t).trans ?_
    change (s₁.tcb t).status = _
    rw [hs₁, modify_tcb_self]
    exact hrun
  generalize unlink t s₁ = s₂ at hunlink htasks hstatus ⊢
  have hcode : s₂.ids = update s.ids t { s.ids t with exitCode := code } := by
    rw [hunlink]
    funext u
    by_cases hu : u = t
    · subst hu
      rw [hs₁, ids_modify_self, update_self]
      rfl
    · rw [hs₁, ids_modify_of_ne _ _ hu, update_of_ne hu]
  have hparent : (s₂.tcb t).aux.parentPid = (s.ids t).parentPid := by
    have hself := congrArg Identity.parentPid (congrFun hcode t)
    rwa [update_self] at hself
  rw [hleader, hparent]
  set s₃ := s₂.modify t fun task => task.receive (.exit ((s.ids t).parentPid ≠ 0)) with hs₃
  have hended : s₃.ids = s.endedIds t code := by
    funext u
    unfold State.endedIds
    by_cases hu : u = t
    · subst hu
      have hself := congrFun hcode u
      rw [update_self] at hself
      have hfate : fate ((s₂.tcb u).receive (.exit ((s.ids u).parentPid ≠ 0))).status =
          some (if (s.ids u).parentPid = 0 then .exited else .zombie) := by
        simp only [TaskControlBlock.receive, hstatus]
        by_cases h0 : (s.ids u).parentPid = 0
        all_goals simp [h0, TaskStatus.receive, fate, isDead]
      rw [hs₃, ids_modify_self, if_pos rfl, ← hfate]
      exact congrArg (fun id : Identity => { id with
        fate := fate ((s₂.tcb u).receive (.exit ((s.ids u).parentPid ≠ 0))).status }) hself
    · rw [hs₃, ids_modify_of_ne _ _ hu, hcode, update_of_ne hu, if_neg hu]
  obtain ⟨hpid, -⟩ := endedIds_kept s t code t
  funext u
  obtain ⟨-, hsame, -⟩ := endedIds_kept s t code u
  cases hl : (s.tcb t).isThreadGroupLeader with
  | true =>
    simp only [if_true, State.exitIds, hl, true_and]
    rw [reparentChildren_ids, hended, show s₃.tasks = s.tasks from htasks, hsame, hpid]
    split
    · rfl
    · rw [← hsame]
  | false =>
    simp only [Bool.false_eq_true, if_false, State.exitIds, hl, false_and]
    rw [hended, ← hsame]

theorem exit_resource (code : ℤ) : (exit t code s).1 = if (s.ids t).parentPid ≠ 0 then
    some (.of .childExit (s.ids t).parentPid) else none := by
  have hparent : ((unlink t (s.modify t fun task =>
      { task with aux := { task.aux with exitCode := code } })).ids t).parentPid =
      (s.ids t).parentPid := by
    rw [unlink_ids, ids_modify_self]
    rfl
  rw [← hparent]
  rfl

theorem exit_frame (code : ℤ) : (exit t code s).2.taskTable = s.taskTable ∧
    (exit t code s).2.nextTask = s.nextTask ∧ (exit t code s).2.destroyed = s.destroyed := by
  have hunlink := (unlink_regrouped
    (s.modify t fun task => { task with aux := { task.aux with exitCode := code } }) t)
  unfold exit
  simp only
  split
  all_goals
    exact ⟨hunlink.silent.frame.taskTable, hunlink.silent.frame.nextTask, hunlink.destroyed⟩

end Functions

/-! ## The steps -/

/-- No task is created, none ends, and the table stays. -/
structure SameKin (s s' : State N) : Prop where
  kin : s'.kin = s.kin
  table : s'.taskTable = s.taskTable
  created : s'.nextTask = s.nextTask
  destroyed : s'.destroyed = s.destroyed

theorem SameKin.refl (s : State N) : SameKin s s := ⟨rfl, rfl, rfl, rfl⟩

theorem SameKin.ids (h : SameKin s s') : s'.ids = s.ids := ids_of_kin_eq h.kin

theorem SameKin.tasks (h : SameKin s s') : s'.tasks = s.tasks := by rw [State.tasks, h.table]; rfl

theorem Kept.sameKin (h : Kept s s') : SameKin s s' :=
  ⟨h.kin, h.frame.taskTable, h.frame.nextTask, h.destroyed⟩

/-- `AddTask` or `Clone` creates a task and enters it, if there is room. -/
structure Enters (s s' : State N) (pid : Pid) (policy : SchedPolicy) : Prop where
  created : s'.nextTask = s.nextTask + 1
  ids : ∀ u < s.nextTask, s'.ids u = s.ids u
  alive : (s'.ids s.nextTask).fate = none
  entry : Discards s s' s.nextTask ∨ Inserts s s' s.nextTask pid
  newPid : (s'.ids s.nextTask).pid = pid
  policy : s'.board.policy s.nextTask = policy
  discarded : (s'.tcb s.nextTask).status = .unInit → ∀ {i u}, s'.board.Near i u → s.board.Near i u

section

variable {pid : Pid} {policy : SchedPolicy} {target : N.Core}

theorem Enters.table (h : Enters s s' pid policy) : s'.taskTable = s.taskTable ∨
    s'.taskTable = s.taskTable.insert pid s.nextTask :=
  h.entry.imp And.left And.left

theorem Admitted.enters (h : Admitted s s' pid policy target)
    (hids : ∀ u < s.nextTask, s'.ids u = s.ids u)
    (hentry : Discards s s' s.nextTask ∨ Inserts s s' s.nextTask pid) : Enters s s' pid policy := by
  rcases h.board with ⟨r, hb⟩ | ⟨r, he⟩
  · have hs : (s'.tcb s.nextTask).status = .unInit :=
      (congrFun (congrArg Board.status hb) s.nextTask).trans (update_self ..)
    refine ⟨congrArg Board.created hb, hids, congrArg fate hs, hentry, h.pid, ?_, fun _ => ?_⟩
    all_goals rw [hb]
    · exact update_self ..
    · exact fun hn => hn
  · have hs : (s'.tcb s.nextTask).status = .ready :=
      (congrFun he.status s.nextTask).trans (update_self ..)
    refine ⟨he.created, hids, congrArg fate hs, hentry, h.pid, ?_, fun hnew => ?_⟩
    · exact (congrFun he.policy s.nextTask).trans (update_self ..)
    · rw [hs] at hnew
      cases hnew

end

/-- `InitCurrentCore` creates two tasks that are in no table. -/
structure Boots (s s' : State N) : Prop where
  created : s'.nextTask = s.nextTask + 2
  kin : ∀ u < s.nextTask, s'.kin u = s.kin u
  fresh : ∀ u < s'.nextTask, s.nextTask ≤ u →
    s'.kin u = kinOf {} ∧ (s'.tcb u).policy = .idle
  table : s'.taskTable = s.taskTable
  destroyed : s'.destroyed = s.destroyed
  rest : ∀ u, s'.nextTask ≤ u → s'.kin u = s.kin u

theorem initCurrentCore_boots (hoff : (s.cpuSchedulers c).schedulers = none) :
    Boots s (initCurrentCore c s) := by
  obtain ⟨htable, hnext, hold, hnew⟩ := initCurrentCore_tasks hoff
  refine ⟨hnext, fun u hu => congrArg kinOf (hold u (.inl hu)), fun u hu hle => ?_, htable,
    by rw [initCurrentCore_eq hoff], fun u hu => congrArg kinOf (hold u (.inr (hnext ▸ hu)))⟩
  rw [State.kin]
  rcases hnew u (hnext ▸ hu) hle with htcb | htcb
  · rw [htcb]
    exact ⟨rfl, rfl⟩
  · rw [htcb]
    exact ⟨rfl, rfl⟩

def Machine.isExit (m : Machine N) (a : Action N) : Bool :=
  match a.call, m.pc a.core with
  | .exit _, .task => true
  | .checkPendingSignals, .task => (checkPendingSignals a.core m.kernel).1.2.isSome
  | _, .checkPendingSignals => (checkPendingSignals a.core m.kernel).1.2.isSome
  | _, _ => false

def Machine.exitCode (m : Machine N) (a : Action N) : Option ℤ :=
  match a.call, m.pc a.core with
  | .exit code, .task => some code
  | .checkPendingSignals, .task => (checkPendingSignals a.core m.kernel).1.2
  | _, .checkPendingSignals => (checkPendingSignals a.core m.kernel).1.2
  | _, _ => none

def Machine.exiting (m : Machine N) (a : Action N) : Option TaskPtr :=
  if m.isExit a then m.kernel.currentTask a.core else none

/-- The steps, by what they do to the tasks in the table. -/
inductive Files (A : CpuIo) (m : Machine N) (a : Action N) (m' : Machine N) : Prop where
  | same : SameKin m.kernel m'.kernel → Files A m a m'
  | exit {t : TaskPtr} {code kernel} : SameKin m.kernel kernel → m.exiting a = some t →
      (kernel.tcb t).status = .running → m'.kernel = (exit t code kernel).2 →
      m'.pc a.core = (exit t code kernel).1.elim (.schedule .exit) (fun r => .wakeup r 0 true) →
      m.exitCode a = some code → Files A m a m'
  | reap {t : TaskPtr} : m.pc a.core = .reap t → m'.kernel = reap A t m.kernel → Files A m a m'
  | enter {pid policy target} : m.newTask a = some (pid, policy, target) →
      Enters m.kernel m'.kernel pid policy → Files A m a m'
  | boot : Boots m.kernel m'.kernel → Files A m a m'

theorem Exec.files (h : Exec A al tick m a m') (hsafe : m.Safe) : Files A m a m' := by
  have hkept : ∀ {s' : State N}, m'.kernel = s' → Kept m.kernel s' → Files A m a m' :=
    fun hk h => .same (hk ▸ h.sameKin)
  cases h with
  | pass _ _ _ hk | waitReturn _ _ hk | select _ _ hk | switchTo _ hk =>
    exact .same (by rw [hk]; exact .refl _)
  | @addTask task hcall hpc hstatus hk =>
    have hcreate : Inert (m.kernel.create task) (m.kernel.create task) := .refl _
    have hadmitted := admitted_addTask A a.core hcreate hstatus
    have hself := create_tcb_self m.kernel task
    have hentry := addTask_entry (m.kernel.create task) m.kernel.nextTask A a.core
      ((congrArg _ hself).trans hstatus)
    rw [hself] at hentry
    rw [← hk] at hadmitted hentry
    refine .enter (by rw [Machine.newTask, hcall]; rfl) (hadmitted.enters (fun u hu => ?_) hentry)
    rw [hk, addTask_ids _ _ A a.core (Nat.ne_of_lt hu)]
    exact congrArg (fun task => (kinOf task).toIdentity) (create_tcb_of_lt _ task hu)
  | @clone flags hcall hpc hk =>
    obtain ⟨_, hclone⟩ | ⟨parent, hparent, hpid⟩ := clone_cases A al a.core flags m.kernel
    · exact .same (by rw [hk, hclone]; exact ⟨rfl, rfl, rfl, rfl⟩)
    have hadmitted := clone_admitted A al flags hparent hpid
    have hentry := clone_entry m.kernel A al a.core flags hparent hpid
    rw [← hk] at hadmitted hentry
    refine .enter (by rw [Machine.newTask, hcall, hparent]; rfl)
      (hadmitted.enters (fun u hu => ?_) hentry)
    rw [hk, clone_ids m.kernel A al a.core flags hu]
  | tickUpdate _ _ hk => exact hkept hk (tickUpdate_still _ _).kept
  | sleep _ _ _ hk => exact hkept hk (sleep_still _ _ _ _ _).kept
  | block _ _ _ hk | waitBlock _ _ _ _ hk => exact hkept hk (block_still _ _ _ _).kept
  | reap hpc hk => exact .reap hpc hk
  | @exit t code kernel hkernel ht hk hg =>
    obtain ⟨hcur, hrun⟩ := runningCurrent_eq_some ht
    have hpc' := congrFun hg.pc a.core
    rw [update_self] at hpc'
    rcases hkernel with ⟨hcall, hpc, rfl⟩ | ⟨hpc, signum, hr⟩
    · have hexit : m.isExit a := by rw [Machine.isExit, hcall, hpc]
      exact .exit (.refl _) ((if_pos hexit).trans hcur) hrun hk hpc'
        (by rw [Machine.exitCode, hcall, hpc])
    obtain ⟨hexit, hcode⟩ : m.isExit a = true ∧ m.exitCode a = some code := by
      unfold Machine.isExit Machine.exitCode
      rcases hpc with ⟨hcall, hpc⟩ | hpc
      · simp [hcall, hpc, hr]
      · simp [hpc, hr]
    have hcheck := checkPendingSignals_polled hr
    refine .exit hcheck.still.kept.sameKin ((if_pos hexit).trans ?_) hrun hk hpc' hcode
    exact (congrFun (congrArg Board.running hcheck.silent.board) a.core).symm.trans hcur
  | signal _ hr hk => exact hkept hk (checkPendingSignals_polled hr).still.kept
  | sendSignal _ _ hk => exact hkept hk (sendSignal_still _ _ _).kept
  | schedule _ hk => exact hkept hk (schedule_still _ _).kept
  | wakeup _ _ hk => exact hkept hk (wakeup_still _ _ _).kept
  | wakeupOne _ _ hk => exact hkept hk (wakeupOne_still _ _ _).kept
  | balance _ hk => exact hkept hk (balance_still _ _ _).kept
  | init _ hpc hk =>
    have hnone := hsafe.schedulers_eq_none hpc
    refine .boot ?_
    rw [hk]
    exact initCurrentCore_boots hnone

def State.Filed (s : State N) : Prop :=
  ∀ p t, s.taskTable.lookup p = some t → t < s.nextTask ∧ (s.ids t).pid = p

theorem State.Filed.mem_tasks (h : s.Filed) (ht : t ∈ s.tasks) :
    t < s.nextTask ∧ s.taskTable.lookup (s.ids t).pid = some t := by
  obtain ⟨p, hp⟩ := TaskManager.mem_tasks.mp ht
  obtain ⟨hlt, rfl⟩ := h _ _ hp
  exact ⟨hlt, hp⟩

theorem mem_tasks_insert {pid : Pid} (htable : s'.taskTable = s.taskTable.insert pid u)
    (hnew : s.taskTable.lookup pid = none) (ht : t ≠ u) : t ∈ s'.tasks ↔ t ∈ s.tasks := by
  simp only [mem_tasks, htable]
  constructor
  · rintro ⟨p, hp⟩
    refine ⟨p, ?_⟩
    by_cases hpp : p = pid
    · rw [hpp, AList.lookup_insert] at hp
      exact absurd (Option.some.inj hp).symm ht
    · rwa [AList.lookup_insert_ne hpp] at hp
  · rintro ⟨p, hp⟩
    refine ⟨p, ?_⟩
    rw [AList.lookup_insert_ne, hp]
    rintro rfl
    rw [hnew] at hp
    cases hp

theorem fate_of_running (h : (s.tcb t).status = .running) : (s.ids t).fate = none := by
  change fate (s.tcb t).status = none
  rw [h]
  rfl

theorem SameKin.exitIds (h : SameKin s s') (t : TaskPtr) (code : ℤ) :
    s'.exitIds t code = s.exitIds t code := by
  funext u
  unfold State.exitIds State.endedIds
  rw [h.ids, h.tasks, isThreadGroupLeader_of_ids (congrFun h.ids t)]

/-- What a step in which the task `t` ends does to the tasks. -/
structure Ends (m : Machine N) (a : Action N) (m' : Machine N) (t : TaskPtr) (code : ℤ) : Prop where
  exiting : m.exiting a = some t
  exits : m.exitCode a = some code
  alive : (m.kernel.ids t).fate = none
  ids : m'.kernel.ids = m.kernel.exitIds t code
  table : m'.kernel.taskTable = m.kernel.taskTable
  pc : (m.kernel.ids t).parentPid ≠ 0 →
    m'.pc a.core = .wakeup (.of .childExit (m.kernel.ids t).parentPid) 0 true

theorem Ends.other {code : ℤ} (h : Ends m a m' t code) (hu : u ≠ t) :
    (m'.kernel.ids u).fate = (m.kernel.ids u).fate ∧
      (m'.kernel.ids u).exitCode = (m.kernel.ids u).exitCode := by
  rw [h.ids, State.exitIds, State.endedIds, if_neg hu]
  exact ⟨rfl, rfl⟩

section

variable (h : Files A m a m')
include h

theorem Files.ends_or : (∀ t < m.kernel.nextTask, m'.kernel.ids t = m.kernel.ids t) ∨
    ∃ t code, Ends m a m' t code := by
  cases h with
  | same hs => exact .inl fun t _ => congrFun hs.ids t
  | @exit t code kernel hs hexit hrun hk hpc hcode =>
    refine .inr ⟨t, code, hexit, hcode, hs.ids ▸ fate_of_running hrun, ?_, ?_, fun h0 => ?_⟩
    · rw [hk, exit_ids kernel t hrun, hs.exitIds]
    · rw [hk, (exit_frame kernel t code).1, hs.table]
    · rw [hpc, exit_resource, hs.ids, if_pos h0]
      rfl
  | reap _ hk => exact .inl fun t _ => by rw [hk, reap_ids]
  | enter _ he => exact .inl he.ids
  | boot hb => exact .inl fun t ht => congrArg Kin.toIdentity (hb.kin t ht)

theorem Files.kept (ht : t < m.kernel.nextTask) :
    (m'.kernel.ids t).pid = (m.kernel.ids t).pid ∧
      (m'.kernel.ids t).tgid = (m.kernel.ids t).tgid := by
  rcases h.ends_or with hids | ⟨u, code, he⟩
  · rw [hids t ht]
    exact ⟨rfl, rfl⟩
  · obtain ⟨hpid, -, -, htgid⟩ := endedIds_kept m.kernel u code t
    rw [he.ids]
    exact ⟨hpid, htgid⟩

theorem Files.created_le : m.kernel.nextTask ≤ m'.kernel.nextTask := by
  cases h with
  | same hs => rw [hs.created]
  | @exit u code kernel hs _ _ hk => rw [hk, (exit_frame kernel u code).2.1, hs.created]
  | @reap u _ hk =>
    rw [hk]
    exact (congrArg Board.created (reap_spec A u m.kernel).1).ge
  | enter _ he =>
    rw [he.created]
    exact Nat.le_succ _
  | boot hb =>
    rw [hb.created]
    exact Nat.le_add_right _ 2

theorem Files.lookup_cases {p : Pid} (ht : m'.kernel.taskTable.lookup p = some t) :
    m.kernel.taskTable.lookup p = some t ∨ t = m.kernel.nextTask ∧ ∃ policy target,
      m.newTask a = some (p, policy, target) ∧ Enters m.kernel m'.kernel p policy := by
  cases h with
  | same hs => exact .inl (hs.table ▸ ht)
  | @exit u code kernel hs _ _ hk =>
    rw [hk, (exit_frame kernel u code).1, hs.table] at ht
    exact .inl ht
  | @reap u _ hk =>
    rw [hk, reap_lookup] at ht
    split at ht
    · cases ht
    · exact .inl ht
  | @enter pid policy target hnew he =>
    rcases he.table with htable | htable
    · exact .inl (htable ▸ ht)
    rw [htable] at ht
    by_cases hp : p = pid
    · subst hp
      rw [AList.lookup_insert] at ht
      exact .inr ⟨(Option.some.inj ht).symm, policy, target, hnew, he⟩
    · rw [AList.lookup_insert_ne hp] at ht
      exact .inl ht
  | boot hb => exact .inl (hb.table ▸ ht)

theorem Files.mem_tasks_of_ended (hz : t ∈ m'.kernel.tasks) (hdead : (m'.kernel.ids t).fate.isSome) :
    t ∈ m.kernel.tasks := by
  obtain ⟨p, hp⟩ := mem_tasks.mp hz
  rcases h.lookup_cases hp with hold | ⟨rfl, _, _, -, he⟩
  · exact mem_tasks.mpr ⟨p, hold⟩
  · rw [he.alive] at hdead
    cases hdead

theorem Files.filed (hf : m.kernel.Filed) : m'.kernel.Filed := by
  intro p t ht
  rcases h.lookup_cases ht with hold | ⟨rfl, _, _, -, he⟩
  · obtain ⟨hlt, hpid⟩ := hf _ _ hold
    exact ⟨hlt.trans_le h.created_le, (h.kept hlt).1.trans hpid⟩
  · exact ⟨he.created ▸ Nat.lt_succ_self _, he.newPid⟩

end

end SimpleKernel.TaskManager
