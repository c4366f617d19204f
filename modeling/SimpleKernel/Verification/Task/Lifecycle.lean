import SimpleKernel.Verification.Task.Refinement

/-! Tasks are created by `AddTask`, `Clone` and `InitCurrentCore`, and destroyed by `Wait`. -/

namespace SimpleKernel.TaskManager

open VirtualMemory (CpuIo Allocator)

variable {N : CoreCount} {A : CpuIo} {al : Allocator A} {s s' : State N} {c : N.Core}
  {t u : TaskPtr} {parent : TaskPtr}

/-! ## The destructor -/

def bare (task : TaskControlBlock) : TaskControlBlock :=
  { unrelated task with kernelStack := none, pageTable := none }

abbrev Inert (s s' : State N) : Prop :=
  Agree bare id (fun s => ((s.nextTask, s.perCpu), s.assertFailed, s.taskTable)) s s'

namespace Inert

section

variable (h : Inert s s')
include h

theorem board : s'.board = s.board :=
  Unshown.board ⟨fun t => congrArg (fun task => (task.status, task.policy, task.aux.blockedOn))
    (h.task t), h.cpu, congrArg Prod.fst h.rest⟩

theorem asserts : s'.assertFailed = s.assertFailed := congrArg (·.2.1) h.rest

theorem taskTable : s'.taskTable = s.taskTable := congrArg (·.2.2) h.rest

theorem pid (t : TaskPtr) : (s'.tcb t).pid = (s.tcb t).pid :=
  congrArg (·.pid) (h.task t)

theorem affinity (t : TaskPtr) : (s'.tcb t).aux.cpuAffinity = (s.tcb t).aux.cpuAffinity :=
  congrArg (·.aux.cpuAffinity) (h.task t)

end

theorem setMemory (s : State N) (memory : VirtualMemory.Memory) (destroyed : List TaskPtr) :
    Inert s { s with memory, destroyed } :=
  ⟨fun _ => rfl, fun _ => rfl, rfl⟩

end Inert

theorem Regrouped.inert (h : Regrouped s s') : Inert s s' :=
  ⟨fun t => congrArg (fun task => { task with kernelStack := none, pageTable := none }) (h.task t),
    h.cpu, congrArg (fun s => ((s.nextTask, s.perCpu), s.assertFailed, s.taskTable)) h.rest⟩

theorem destroy_inert (A : CpuIo) (t : TaskPtr) (s : State N) : Inert s (destroy A t s) := by
  unfold destroy
  have hleave := (unlink_regrouped s t).inert
  generalize unlink t s = s₁ at hleave ⊢
  exact (hleave.trans (Inert.setMemory s₁ _ _)).modify rfl

theorem mem_tasks : t ∈ s.tasks ↔ ∃ p, s.taskTable.lookup p = some t := by
  simp only [State.tasks, List.mem_map]
  constructor
  · rintro ⟨⟨p, u⟩, hmem, rfl⟩
    exact ⟨p, AList.mem_lookup_iff.mpr hmem⟩
  · rintro ⟨p, hp⟩
    exact ⟨⟨p, t⟩, AList.mem_lookup_iff.mp hp, rfl⟩

section

variable (A t)

theorem reap_spec (s : State N) :
    (reap A t s).board = s.board ∧ (reap A t s).assertFailed = s.assertFailed := by
  unfold reap
  simp only
  cases s.taskTable.lookup (s.tcb t).pid with
  | none => exact ⟨rfl, rfl⟩
  | some u =>
    have hd := destroy_inert A u { s with taskTable := s.taskTable.erase (s.tcb t).pid }
    exact ⟨hd.board, hd.asserts⟩

/-! ## `AddTask` -/

theorem board_create (s : State N) (task : TaskControlBlock) :
    (s.create task).board = s.board.create task.status task.policy task.aux.blockedOn := by
  refine Board.ext ?_ ?_ ?_ rfl rfl rfl rfl rfl <;>
  · funext t
    by_cases ht : t = s.nextTask
    · subst ht
      simp [State.create]
    · simp [State.create, ht]

def assignedPid (s : State N) (task : TaskControlBlock) : Pid :=
  if task.pid = 0 then s.pidAllocator else task.pid

def assignedTgid (s : State N) (task : TaskControlBlock) : Pid :=
  if task.aux.tgid = 0 then assignedPid s task else task.aux.tgid

theorem assignIds_eq (s : State N) :
    ∃ pidAllocator, assignIds t s = State.modify { s with pidAllocator } t fun task =>
      { task with
        pid := assignedPid s (s.tcb t)
        aux := { task.aux with tgid := assignedTgid s (s.tcb t) } } := by
  unfold assignIds assignedTgid assignedPid
  by_cases hpid : (s.tcb t).pid = 0
  · refine ⟨(allocatePid s).2.pidAllocator, ?_⟩
    by_cases htgid : (s.tcb t).aux.tgid = 0 <;> simp [hpid, htgid, State.modify, allocatePid]
  · refine ⟨s.pidAllocator, ?_⟩
    by_cases htgid : (s.tcb t).aux.tgid = 0 <;> simp [hpid, htgid, State.modify]

theorem assignIds_spec (s : State N) :
    (assignIds t s).board = s.board ∧ (assignIds t s).assertFailed = s.assertFailed ∧
      (assignIds t s).taskTable = s.taskTable ∧
      ((assignIds t s).tcb t).pid = assignedPid s (s.tcb t) ∧
      ((assignIds t s).tcb t).aux.cpuAffinity = (s.tcb t).aux.cpuAffinity := by
  obtain ⟨_, heq⟩ := assignIds_eq t s
  rw [heq, modify_tcb_self]
  exact ⟨(board_modify_of_eq rfl rfl rfl).trans rfl, rfl, rfl, rfl, rfl⟩

theorem insertTask_spec (s : State N) :
    (insertTask A t s).board = s.board ∧ (insertTask A t s).assertFailed = s.assertFailed ∧
      (insertTask A t s).taskTable = s.taskTable.insert (s.tcb t).pid t ∧
      (∀ u, ((insertTask A t s).tcb u).pid = (s.tcb u).pid) ∧
      ∀ u, ((insertTask A t s).tcb u).aux.cpuAffinity = (s.tcb u).aux.cpuAffinity := by
  unfold insertTask
  simp only
  cases s.taskTable.lookup (s.tcb t).pid with
  | none => exact ⟨rfl, rfl, rfl, fun _ => rfl, fun _ => rfl⟩
  | some u =>
    have hd := destroy_inert A u { s with taskTable := s.taskTable.insert (s.tcb t).pid t }
    exact ⟨hd.board, hd.asserts, hd.taskTable, hd.pid, hd.affinity⟩

end

/-- What `AddTask` and `Clone` do when they create a control block: a task that the table has
no room for is discarded. -/
structure Admitted (s s' : State N) (pid : Pid) (policy : SchedPolicy) (target : N.Core) :
    Prop where
  board : (∃ r, s'.board = s.board.create .unInit policy r) ∨
    ∃ r, Enqueued (s.board.create .ready policy r) target s.nextTask s'.board
  asserts : s'.assertFailed = s.assertFailed
  pid : (s'.tcb s.nextTask).pid = pid

theorem Admitted.arrivals {pid : Pid} {policy : SchedPolicy} {target : N.Core}
    (h : Admitted s s' pid policy target) : Arrivals s.board s'.board := by
  rcases h.board with ⟨r, hb⟩ | ⟨r, he⟩
  · rw [hb]
    exact .single .discard
  · exact .single (.add he)

theorem addTask_spec (A : CpuIo) (c : N.Core) (hstatus : (s.tcb t).status = .unInit) :
    ((addTask A c t s).board = s.board ∨
      Enqueued (s.board.setStatus t .ready) (targetCore c (s.tcb t).aux.cpuAffinity) t
        (addTask A c t s).board) ∧
    (addTask A c t s).assertFailed = s.assertFailed ∧
    ((addTask A c t s).tcb t).pid = assignedPid s (s.tcb t) := by
  unfold addTask
  simp only
  obtain ⟨hboard, hasserts, -, hself, haff⟩ := assignIds_spec t s
  generalize assignIds t s = s₁ at hboard hasserts hself haff ⊢
  split
  · have hd := destroy_inert A t s₁
    exact ⟨.inl (hd.board.trans hboard), hd.asserts.trans hasserts, (hd.pid t).trans hself⟩
  obtain ⟨hboard₂, hasserts₂, -, hpid₂, haff₂⟩ := insertTask_spec A t s₁
  generalize insertTask A t s₁ = s₂ at hboard₂ hasserts₂ hpid₂ haff₂ ⊢
  set s₃ := s₂.modify t fun task => task.receive .schedule with hs₃
  have hready : s₃.board = s.board.setStatus t .ready := by
    have hst : (s₂.tcb t).status = .unInit :=
      (congrFun (congrArg Board.status (hboard₂.trans hboard)) t).trans hstatus
    rw [hs₃, board_receive, hst, hboard₂, hboard]
    rfl
  have haff₃ : (s₃.tcb t).aux.cpuAffinity = (s.tcb t).aux.cpuAffinity := by
    rw [hs₃, modify_tcb_self]
    exact (haff₂ t).trans haff
  have hstill : Still s₂ (s₃.enqueue (targetCore c (s₃.tcb t).aux.cpuAffinity)
      (s₃.tcb t).policy t) := (Still.receive (.refl s₂) .schedule rfl).enqueue _ _ t
  refine ⟨.inr ?_, ?_, (congrArg Prod.fst (hstill.kept.frame.assets t)).trans ((hpid₂ t).trans hself)⟩
  · rw [← hready, ← haff₃]
    exact enqueue_enqueued s₃ _ t
  · rw [enqueue_assertFailed]
    exact hasserts₂.trans hasserts

theorem addTask_cases (s : State N) (t : TaskPtr) (A : CpuIo) (c : N.Core) :
    (maxTasks ≤ (assignIds t s).taskTable.keys.length ∧
      addTask A c t s = destroy A t (assignIds t s)) ∨
    Still (insertTask A t (assignIds t s)) (addTask A c t s) := by
  unfold addTask
  simp only
  split
  · rename_i hfull
    exact .inl ⟨hfull, rfl⟩
  · exact .inr ((Still.receive (.refl _) .schedule rfl).enqueue _ _ t)

section Create

variable {task : TaskControlBlock} {pid : Pid} {policy : SchedPolicy} {target : N.Core}

section

variable (s task)

theorem create_tcb_self : (s.create task).tcb s.nextTask = task := by
  simp [State.create]

theorem create_tcb_of_lt (ht : t < s.nextTask) : (s.create task).tcb t = s.tcb t := by
  simp [State.create, ht.ne]

end

theorem admitted_discard (h : Inert (s.create task) s') (hst : task.status = .unInit)
    (target : N.Core) : Admitted s s' task.pid task.policy target := by
  refine ⟨.inl ⟨task.aux.blockedOn, ?_⟩, h.asserts, ?_⟩
  · rw [h.board, board_create, hst]
  · rw [h.pid, create_tcb_self]

theorem admitted_addTask (A : CpuIo) (c : N.Core) (h : Inert (s.create task) s')
    (hst : task.status = .unInit) :
    Admitted s (addTask A c s.nextTask s') (assignedPid s' task) task.policy
      (targetCore c task.aux.cpuAffinity) := by
  have hstatus : (s'.tcb s.nextTask).status = .unInit := by
    have hboard := congrFun (congrArg Board.status h.board) s.nextTask
    exact hboard.trans ((congrArg _ (create_tcb_self s task)).trans hst)
  have hpid : assignedPid s' (s'.tcb s.nextTask) = assignedPid s' task := by
    simp [assignedPid, h.pid, create_tcb_self]
  obtain ⟨hboard, hasserts, hself⟩ := addTask_spec A c hstatus
  refine ⟨?_, hasserts.trans h.asserts, hself.trans hpid⟩
  rw [h.board, h.affinity, create_tcb_self, board_create, hst] at hboard
  refine hboard.imp (fun hb => ⟨_, hb⟩) fun he => ⟨task.aux.blockedOn, ?_⟩
  have hready : (s.board.create .unInit task.policy task.aux.blockedOn).setStatus s.nextTask
      .ready = s.board.create .ready task.policy task.aux.blockedOn := by
    refine Board.ext ?_ rfl rfl rfl rfl rfl rfl rfl
    exact Function.update_idem _ _ _
  rwa [hready] at he

theorem Admitted.of_silent {s₁ : State N} (h : Silent s s₁)
    (ha : Admitted s₁ s' pid policy target) : Admitted s s' pid policy target := by
  obtain ⟨hboard, hasserts, hpid⟩ := ha
  rw [h.board, h.frame.nextTask] at hboard
  rw [h.frame.nextTask] at hpid
  exact ⟨hboard, hasserts.trans h.asserts, hpid⟩

end Create

/-! ## `Clone` -/

theorem cloneThreadGroup_cases (parent child : TaskPtr) (flags : BitVec 64) (s : State N) :
    cloneThreadGroup parent child flags s = s ∨
      ∃ leader, cloneThreadGroup parent child flags s = joinThreadGroup child leader s := by
  unfold cloneThreadGroup
  split
  · split
    · exact .inr ⟨parent, rfl⟩
    split
    · exact .inl rfl
    · exact .inr ⟨_, rfl⟩
  · exact .inl rfl

theorem cloneThreadGroup_regrouped (s : State N) (parent child : TaskPtr) (flags : BitVec 64) :
    Regrouped s (cloneThreadGroup parent child flags s) := by
  obtain heq | ⟨leader, heq⟩ := cloneThreadGroup_cases parent child flags s
  · rw [heq]
    exact .refl s
  · rw [heq]
    exact joinThreadGroup_regrouped s child leader

def Equipped (t : TaskPtr) (s s' : State N) : Prop :=
  ∃ memory kernelStack pageTable,
    s' = State.modify { s with memory } t fun task => { task with kernelStack, pageTable }

namespace Equipped

theorem setMemory (t : TaskPtr) (s : State N) (memory : VirtualMemory.Memory) :
    Equipped t s { s with memory } := by
  refine ⟨memory, (s.tcb t).kernelStack, (s.tcb t).pageTable, ?_⟩
  simp [State.modify]

theorem trans {s'' : State N} (h : Equipped t s s') (h' : Equipped t s' s'') :
    Equipped t s s'' := by
  obtain ⟨_, _, _, rfl⟩ := h
  obtain ⟨memory, kernelStack, pageTable, rfl⟩ := h'
  refine ⟨memory, kernelStack, pageTable, ?_⟩
  simp [State.modify]

theorem inert (h : Equipped t s s') : Inert s s' := by
  obtain ⟨memory, _, _, rfl⟩ := h
  exact (Inert.setMemory s memory _).modify rfl

end Equipped

section

variable (A al) (flags : BitVec 64)

theorem cloneKernelStack_equipped (t : TaskPtr) (flags : BitVec 64)
    (s : State N) : Equipped t s (cloneKernelStack A al t flags s).2 := by
  unfold cloneKernelStack
  obtain ⟨stack, memory⟩ := s.memory.alignedAlloc al
  cases stack with
  | some stack => exact ⟨memory, some stack, (s.tcb t).pageTable, rfl⟩
  | none =>
    simp only
    split
    · split
      · exact .setMemory t s memory
      · exact ⟨_, (s.tcb t).kernelStack, none, rfl⟩
    · exact .setMemory t s memory

theorem cloneResources_equipped (c : N.Core) (parent t : TaskPtr)
    (pid : Pid) (flags : BitVec 64) (s : State N) :
    ∃ s₁, Equipped t s s₁ ∧ ((cloneResources A al c parent t pid flags s).2 = destroy A t s₁ ∨
      (cloneResources A al c parent t pid flags s).2 = addTask A c t s₁) := by
  unfold cloneResources
  obtain ⟨space, memory⟩ := cloneAddressSpace A al (s.tcb parent).pageTable flags s.memory
  cases space with
  | error e => exact ⟨_, .setMemory t s memory, .inl rfl⟩
  | ok pageTable =>
    simp only
    set s₁ := State.modify { s with memory } t fun task => { task with pageTable }
    have hspace : Equipped t s s₁ := ⟨memory, (s.tcb t).kernelStack, pageTable, rfl⟩
    have hstack := hspace.trans (cloneKernelStack_equipped A al t flags s₁)
    generalize cloneKernelStack A al t flags s₁ = result at hstack
    obtain ⟨_ | _, s₂⟩ := result
    · exact ⟨s₂, hstack, .inl rfl⟩
    · exact ⟨s₂, hstack, .inr rfl⟩

def State.withChild (s : State N) (parent : TaskPtr) (flags : BitVec 64) : State N :=
  cloneThreadGroup parent s.nextTask flags
    { (allocatePid s).2.create (cloneTask (s.tcb parent) s.pidAllocator flags) with
      family := Function.update s.family s.nextTask (s.family parent) }

theorem withChild_inert (s : State N) (parent : TaskPtr) (flags : BitVec 64) :
    Inert ((allocatePid s).2.create (cloneTask (s.tcb parent) s.pidAllocator flags))
      (s.withChild parent flags) := by
  refine Agree.trans ?_ (cloneThreadGroup_regrouped _ parent s.nextTask flags).inert
  exact ⟨fun _ => rfl, fun _ => rfl, rfl⟩

theorem clone_failed
    (h : s.currentTask c = none ∨ s.pidAllocator = 0) :
    ∃ pidAllocator, (clone A al c flags s).2 = { s with pidAllocator } := by
  unfold clone
  split
  · exact ⟨_, rfl⟩
  rename_i hcur
  have hpid : (allocatePid s).1 = 0 := h.resolve_left (by rw [hcur]; nofun)
  simp only [hpid, if_true]
  exact ⟨_, rfl⟩

theorem clone_eq (hcur : s.currentTask c = some parent) (hpid : s.pidAllocator ≠ 0) :
    clone A al c flags s =
      cloneWithPid A al c parent s.pidAllocator (completeFlags flags) (allocatePid s).2 := by
  rw [clone, hcur]
  exact if_neg hpid

theorem clone_equipped
    (hcur : s.currentTask c = some parent) (hpid : s.pidAllocator ≠ 0) :
    ∃ s₁, Equipped s.nextTask (s.withChild parent (completeFlags flags)) s₁ ∧
      ((clone A al c flags s).2 = destroy A s.nextTask s₁ ∨
        (clone A al c flags s).2 = addTask A c s.nextTask s₁) := by
  rw [clone_eq A al flags hcur hpid]
  exact cloneResources_equipped A al c parent s.nextTask s.pidAllocator _ _

theorem clone_cases (c : N.Core) (flags : BitVec 64) (s : State N) :
    (∃ pidAllocator, (clone A al c flags s).2 = { s with pidAllocator }) ∨
      ∃ parent, s.currentTask c = some parent ∧ s.pidAllocator ≠ 0 := by
  by_cases h : s.currentTask c = none ∨ s.pidAllocator = 0
  · exact .inl (clone_failed A al flags h)
  obtain ⟨hcur, hpid⟩ := not_or.mp h
  obtain ⟨parent, hcur⟩ := Option.ne_none_iff_exists'.mp hcur
  exact .inr ⟨parent, hcur, hpid⟩

theorem clone_admitted
    (hcur : s.currentTask c = some parent) (hpid : s.pidAllocator ≠ 0) :
    Admitted s (clone A al c flags s).2 s.pidAllocator (s.tcb parent).policy c := by
  obtain ⟨s₁, hs₁, hclone⟩ := clone_equipped A al flags hcur hpid
  have hinert : Inert _ _ := (withChild_inert s parent (completeFlags flags)).trans hs₁.inert
  have halloc : Silent s (allocatePid s).2 := ⟨fun _ => rfl, fun _ => rfl, rfl⟩
  refine .of_silent halloc ?_
  obtain hclone | hclone := hclone
  · rw [hclone]
    exact admitted_discard (hinert.trans (destroy_inert A s.nextTask s₁)) rfl _
  have hadd := admitted_addTask A c hinert rfl
  have hassigned : assignedPid s₁ (cloneTask (s.tcb parent) s.pidAllocator (completeFlags flags)) =
      s.pidAllocator := if_neg hpid
  rw [hassigned] at hadd
  rw [hclone]
  exact hadd

theorem clone_spec (c : N.Core) (flags : BitVec 64) (s : State N) :
    Silent s (clone A al c flags s).2 ∨ ∃ parent, s.currentTask c = some parent ∧
      Admitted s (clone A al c flags s).2 s.pidAllocator (s.tcb parent).policy c := by
  obtain ⟨_, hclone⟩ | ⟨parent, hcur, hpid⟩ := clone_cases A al c flags s
  · left
    rw [hclone]
    exact ⟨fun _ => rfl, fun _ => rfl, rfl⟩
  · exact .inr ⟨parent, hcur, clone_admitted A al flags hcur hpid⟩

end

/-! ## `InitCurrentCore` -/

theorem initCurrentCore_eq (hoff : (s.cpuSchedulers c).schedulers = none) :
    initCurrentCore c s =
      { s with
        tcb := Function.update (Function.update s.tcb s.nextTask
          { status := .running, policy := .idle }) (s.nextTask + 1)
          { status := .ready, policy := .idle }
        nextTask := s.nextTask + 2
        cpuSchedulers := Function.update s.cpuSchedulers c { s.cpuSchedulers c with
          schedulers := some { idle := ({} : IdleScheduler).enqueue (s.nextTask + 1) } }
        perCpu := Function.update s.perCpu c
          { runningTask := some s.nextTask, idleTask := some (s.nextTask + 1) } } := by
  simp [initCurrentCore, State.enqueue, State.setCpu, State.create, State.modify, hoff,
    Schedulers.enqueue]

theorem initCurrentCore_board (hoff : ¬ s.board.online c) :
    (initCurrentCore c s).board = s.board.start c := by
  have hnone : (s.cpuSchedulers c).schedulers = none := by simpa using hoff
  rw [initCurrentCore_eq hnone]
  have hself : ∀ k : Container N, k.core = c →
      k.contents { s.cpuSchedulers c with
        schedulers := some { idle := ({} : IdleScheduler).enqueue (s.nextTask + 1) } } =
      k.contents (s.cpuSchedulers c) := by
    intro k hk
    cases k with
    | ready i p => cases p <;> simp [Container.contents, hnone, Schedulers.readyQueue]
    | sleeping i => rfl
    | blocked i r => rfl
  refine Board.ext ?_ ?_ ?_ ?_ ?_ ?_ ?_ rfl
  iterate 3
    funext t
    by_cases ht₁ : t = s.nextTask + 1
    · simp [ht₁]
    by_cases ht₀ : t = s.nextTask
    · simp [ht₀]
    · simp [ht₀, ht₁]
  · funext k
    by_cases hk : k.core = c
    · simp [State.board, hk, hself]
    · simp [State.board, hk]
  iterate 3
    funext i
    by_cases hi : i = c
    · simp [State.currentTask, IdleScheduler.enqueue, hi]
    · simp [State.currentTask, hi]

theorem initCurrentCore_tasks (hoff : (s.cpuSchedulers c).schedulers = none) :
    (initCurrentCore c s).taskTable = s.taskTable ∧
      (initCurrentCore c s).nextTask = s.nextTask + 2 ∧
      (∀ t, t < s.nextTask ∨ s.nextTask + 2 ≤ t → (initCurrentCore c s).tcb t = s.tcb t) ∧
      ∀ t < s.nextTask + 2, s.nextTask ≤ t →
        (initCurrentCore c s).tcb t = { status := .running, policy := .idle } ∨
        (initCurrentCore c s).tcb t = { status := .ready, policy := .idle } := by
  rw [initCurrentCore_eq hoff]
  refine ⟨rfl, rfl, ?_, fun t ht hle => ?_⟩
  · rintro t (ht | ht)
    · simp [ht.ne, (Nat.lt_succ_of_lt ht).ne]
    · simp [Nat.ne_of_gt ht, Nat.ne_of_gt (Nat.lt_of_succ_lt ht)]
  · rcases Nat.lt_or_ge t (s.nextTask + 1) with hlt | hge
    · obtain rfl := Nat.le_antisymm (Nat.le_of_lt_succ hlt) hle
      exact .inl (by simp)
    · obtain rfl := Nat.le_antisymm (Nat.le_of_lt_succ ht) hge
      exact .inr (by simp)

end SimpleKernel.TaskManager
