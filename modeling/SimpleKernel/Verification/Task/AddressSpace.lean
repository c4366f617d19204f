import SimpleKernel.Verification.Task.Registry
import SimpleKernel.Verification.Task.Switching
import SimpleKernel.Verification.VirtualMemory.Estate

/-! The destructor of a task frees the tables of its page directory and, without `kVm`, the
pages that it maps. No page of another task is freed as long as no task is destroyed while a
relative of it, made by `Clone`, still has a page directory. -/

namespace SimpleKernel.TaskManager

open List Function VirtualMemory

variable {N : CoreCount} {A : CpuIo} {al : Allocator A} {tick : ℕ} {s s' : State N}
  {m m' : Machine N} {a : Action N} {c : N.Core} {t u parent : TaskPtr} {flags : BitVec 64}
  {e : Estate TaskPtr} {memory : Memory} {pageTable : Option Addr} {pid : Pid} {s₁ : State N}

def State.estate (s : State N) : Estate TaskPtr where
  memory := s.memory
  stack t := (s.tcb t).kernelStack
  space t := (s.tcb t).pageTable
  family := s.family

/-- The page-table pages and the mapped pages of a task. -/
def State.addressSpace (A : CpuIo) (s : State N) (t : TaskPtr) : List Addr := s.estate.blocks A t

/-! ## The conditions -/

/-- If the step destroys a child in `Wait`, the child has no page table, or no relative of it
in the task table has one. -/
def Machine.reapsAlone (m : Machine N) (a : Action N) : Bool :=
  match m.pc a.core with
  | .reap target =>
    let s := m.kernel
    (s.taskTable.lookup (s.tcb target).pid).all fun t => (s.tcb t).pageTable.isNone ||
      s.tasks.all fun u => u = t || s.family u ≠ s.family t || (s.tcb u).pageTable.isNone
  | _ => true

/-- If the step is a `Clone`, its pid is not in the table; and if the parent has a page table,
the table has room and a child that shares it gets a kernel stack. -/
def Machine.clonesWhole (al : Allocator A) (m : Machine N) (a : Action N) : Bool :=
  match a.call, m.kernel.currentTask a.core with
  | .clone flags, some parent =>
    let s := m.kernel
    (s.taskTable.lookup s.pidAllocator).isNone && ((s.tcb parent).pageTable.isNone ||
      (s.taskTable.keys.length < maxTasks &&
        (!hasFlag (completeFlags flags) cloneVm || (al.alignedAlloc s.memory.heap).isSome)))
  | _, _ => true

/-- If the step is an `AddTask`, its pid is not in the table, the table has room, and the task
comes with live blocks that no other task has. -/
def Machine.addsOwner (A : CpuIo) (m : Machine N) (a : Action N) : Bool :=
  match a.call with
  | .addTask task =>
    let s := m.kernel
    let tables := task.pageTable.elim [] (A.directory s.memory)
    let blocks := task.kernelStack.toList ++ task.pageTable.elim [] (A.blocks s.memory)
    (s.taskTable.lookup (assignedPid s task)).isNone && s.taskTable.keys.length < maxTasks &&
      decide blocks.Nodup && blocks.all s.memory.heap.live && tables.all (· ≠ 0) &&
      s.tasks.all fun u => ((s.tcb u).kernelStack.toList ++ s.addressSpace A u).all (· ∉ blocks)
  | _ => true

/-! ## What the operations do to the blocks -/

theorem Frame.estate_eq (h : Frame s s') : s'.estate = s.estate := by
  have hstack : ∀ t, (s'.tcb t).kernelStack = (s.tcb t).kernelStack :=
    fun t => congrArg (fun assets => assets.2.2.1) (h.assets t)
  have hspace : ∀ t, (s'.tcb t).pageTable = (s.tcb t).pageTable :=
    fun t => congrArg (fun assets => assets.2.2.2.1) (h.assets t)
  simp [State.estate, h.memory, h.family, hstack, hspace]

theorem estate_modify (s : State N) (t : TaskPtr) (f : TaskControlBlock → TaskControlBlock) :
    (s.modify t f).estate =
      { s.estate with
        stack := update s.estate.stack t (f (s.tcb t)).kernelStack
        space := update s.estate.space t (f (s.tcb t)).pageTable } :=
  congrArg₂ (fun stack space => { s.estate with stack, space })
    (comp_update TaskControlBlock.kernelStack s.tcb t _)
    (comp_update TaskControlBlock.pageTable s.tcb t _)

theorem estate_modify_of_eq {f : TaskControlBlock → TaskControlBlock}
    (hstack : s.estate.stack t = (f (s.tcb t)).kernelStack)
    (hspace : s.estate.space t = (f (s.tcb t)).pageTable) : (s.modify t f).estate = s.estate := by
  rw [estate_modify, ← hstack, ← hspace, update_eq_self, update_eq_self]

theorem destroy_estate (A : CpuIo) (t : TaskPtr) (s : State N) : ∃ freePages,
    (destroy A t s).estate = s.estate.release A t freePages := by
  refine ⟨!hasFlag (s.tcb t).aux.cloneFlags cloneVm, ?_⟩
  have hframe := (unlink_regrouped s t).silent.frame
  have hestate := hframe.estate_eq
  unfold destroy
  rw [estate_modify]
  simp only [State.estate, Estate.mk.injEq, funext_iff] at hestate
  obtain ⟨hmemory, hstack, hspace, hfamily⟩ := hestate
  simp [State.estate, Estate.release, hmemory, hstack, hspace, hframe.family]

theorem assignIds_estate (t : TaskPtr) (s : State N) : (assignIds t s).estate = s.estate := by
  obtain ⟨_, heq⟩ := assignIds_eq t s
  rw [heq]
  exact estate_modify_of_eq rfl rfl

theorem addTask_estate (A : CpuIo) (c : N.Core)
    (hfresh : s.taskTable.lookup (assignedPid s (s.tcb t)) = none) :
    ((addTask A c t s).estate = s.estate ∧
      (addTask A c t s).taskTable = s.taskTable.insert (assignedPid s (s.tcb t)) t) ∨
    (maxTasks ≤ s.taskTable.keys.length ∧ (addTask A c t s).taskTable = s.taskTable ∧
      ∃ freePages, (addTask A c t s).estate = s.estate.release A t freePages) := by
  obtain ⟨-, -, htable, hself, -⟩ := assignIds_spec t s
  have hestate := assignIds_estate t s
  rcases addTask_cases s t A c with ⟨hfull, heq⟩ | hstill
  · obtain ⟨freePages, hd⟩ := destroy_estate A t (assignIds t s)
    rw [htable] at hfull
    rw [heq]
    refine .inr ⟨hfull, (destroy_inert A t _).taskTable.trans htable, freePages, ?_⟩
    rw [hd, hestate]
  have hframe := hstill.kept.frame
  refine .inl ⟨hframe.estate_eq.trans (Eq.trans ?_ hestate), ?_⟩
  · unfold insertTask
    simp only
    rw [hself, htable, hfresh]
    rfl
  · rw [hframe.taskTable, (insertTask_spec A t _).2.2.1, htable, hself]

/-! ## The address space of a child -/

theorem cloneAddressSpace_spec {r : Except ErrorCode (Option Addr)}
    (h : e.Owned A) (hfamily : e.family t = e.family parent) (hnone : e.space t = none)
    (hr : cloneAddressSpace A al (e.space parent) flags e.memory = (r, memory)) :
    Keeps e.memory memory ∧ ∀ pageTable, r = .ok pageTable →
      Estate.Owned A { e with memory, space := update e.space t pageTable } ∧
      (e.space parent = none → pageTable = none) ∧
      (hasFlag flags cloneVm → memory = e.memory ∧ pageTable = e.space parent) ∧
      (¬ hasFlag flags cloneVm → ∀ root, pageTable = some root →
        A.IsPageTable memory (A.pageTableLevels - 1) root ∧
        ∀ x ∈ A.directory memory root, ¬ e.memory.Live x ∧ x ≠ 0) := by
  have hsame : update e.space t none = e.space := by
    rw [← hnone, update_eq_self]
  unfold cloneAddressSpace at hr
  split at hr
  · rename_i hvm
    cases hr
    refine ⟨.refl _, ?_⟩
    rintro _ ⟨⟩
    refine ⟨?_, fun h => h, fun _ => ⟨rfl, rfl⟩, fun h => absurd hvm h⟩
    cases hs : e.space parent with
    | none =>
      rw [hsame]
      exact h
    | some root => exact h.share hfamily hs
  rename_i hvm
  split at hr
  · rename_i hs
    cases hr
    refine ⟨.refl _, ?_⟩
    rintro _ ⟨⟩
    refine ⟨?_, fun _ => rfl, fun h => absurd h hvm, nofun⟩
    rw [hsame]
    exact h
  rename_i root hs
  generalize hclone : clonePageDirectory A al root true e.memory = result at hr
  obtain ⟨r, m₁⟩ := result
  obtain ⟨hkeeps, hok, -⟩ := clonePageDirectory_spec (h.tree hs) hclone
  cases r with
  | error e' =>
    cases hr
    exact ⟨hkeeps, nofun⟩
  | ok copy =>
    cases hr
    obtain ⟨htree, hfresh, -⟩ := hok copy rfl
    refine ⟨hkeeps, ?_⟩
    rintro _ ⟨⟩
    refine ⟨h.copy hfamily hs hclone, fun hn => ?_, fun h => absurd h hvm, ?_⟩
    · rw [hs] at hn
      cases hn
    · rintro _ root ⟨⟩
      exact ⟨htree, hfresh⟩

/-! ## `Clone` -/

/-- The task `t` has got an address space and a place in the table, or nothing has come of
it; all others hold what they held. -/
structure Housed (A : CpuIo) (t : TaskPtr) (pid : Pid) (s s' : State N) : Prop where
  owned : s'.estate.Owned A
  others : Estate.SameElse A t s.estate s'.estate
  table : s'.taskTable = s.taskTable.insert pid t ∨
    s'.taskTable = s.taskTable ∧ s'.estate.stack t = none ∧ s'.estate.space t = none

theorem Housed.discard (h : s.estate.Owned A)
    (hk : Keeps s.memory memory) (htable : s₁.taskTable = s.taskTable)
    (hestate : s₁.estate = { s.estate with memory }) (hstack : s.estate.stack t = none)
    (hspace : s.estate.space t = none) : Housed A t pid s (destroy A t s₁) := by
  obtain ⟨freePages, hd⟩ := destroy_estate A t s₁
  rw [Estate.release_of_none (hestate ▸ hstack) (hestate ▸ hspace), hestate] at hd
  refine ⟨?_, ?_, .inr ⟨(destroy_inert A t s₁).taskTable.trans htable, ?_, ?_⟩⟩
  all_goals rw [hd]
  · exact h.keeps hk
  · exact h.sameElse hk fun _ _ => ⟨rfl, rfl, rfl⟩
  · exact hstack
  · exact hspace

theorem addTask_housed (A : CpuIo) (c : N.Core) (h : s₁.estate.Owned A)
    (hothers : Estate.SameElse A t s.estate s₁.estate) (htable : s₁.taskTable = s.taskTable)
    (hpid : assignedPid s₁ (s₁.tcb t) = pid) (hfresh : s.taskTable.lookup pid = none)
    (hroom : s.taskTable.keys.length < maxTasks ∨ s₁.estate.space t = none) :
    Housed A t pid s (addTask A c t s₁) := by
  rcases addTask_estate A c (s := s₁) (t := t) (by rw [hpid, htable]; exact hfresh) with
    ⟨hestate, htable'⟩ | ⟨hfull, htable', freePages, hestate⟩
  · rw [hpid, htable] at htable'
    exact ⟨hestate ▸ h, hestate ▸ hothers, .inl htable'⟩
  rw [htable] at hfull
  have hspace : s₁.estate.space t = none := hroom.resolve_left (not_lt.mpr hfull)
  obtain ⟨howned, hsame⟩ := h.release freePages fun u _ _ => .inl hspace
  rw [← hestate] at howned hsame
  refine ⟨howned, hothers.trans hsame, .inr ⟨htable'.trans htable, ?_, ?_⟩⟩
  all_goals
    rw [hestate]
    exact update_self ..

theorem estate_giveBack {m₁ : Memory} (h : s₁.estate = { s.estate with
      memory := m₁, space := update s.estate.space t pageTable })
    (hspace : s.estate.space t = none) (m₂ : Memory) :
    (State.modify { s₁ with memory := m₂ } t fun task => { task with pageTable := none }).estate =
      { s.estate with memory := m₂ } := by
  have hsame : update s.estate.space t none = s.estate.space := by
    rw [← hspace, update_eq_self]
  rw [estate_modify]
  change Estate.mk m₂ (update s₁.estate.stack t (s₁.estate.stack t))
    (update s₁.estate.space t none) s₁.estate.family = _
  rw [update_eq_self, h]
  rw [update_idem, hsame]

theorem cloneResources_housed (al : Allocator A) (c : N.Core) (h : s.estate.Owned A)
    (hstack : s.estate.stack t = none) (hspace : s.estate.space t = none)
    (hfamily : s.family t = s.family parent) (hpid : (s.tcb t).pid = pid) (hpid0 : pid ≠ 0)
    (hfresh : s.taskTable.lookup pid = none)
    (hok : (s.tcb parent).pageTable = none ∨ (s.taskTable.keys.length < maxTasks ∧
      (hasFlag flags cloneVm → al.alignedAlloc s.memory.heap ≠ none))) :
    Housed A t pid s (cloneResources A al c parent t pid flags s).2 := by
  unfold cloneResources
  generalize hr : cloneAddressSpace A al (s.tcb parent).pageTable flags s.memory = result
  obtain ⟨r, memory⟩ := result
  obtain ⟨hkeeps, hspec⟩ := cloneAddressSpace_spec h hfamily hspace hr
  obtain _ | pageTable := r
  · exact .discard h hkeeps rfl rfl hstack hspace
  simp only
  obtain ⟨howned, hnone, hvm, hcopy⟩ := hspec pageTable rfl
  set s₁ := State.modify { s with memory } t fun task => { task with pageTable } with hs₁
  have hestate : s₁.estate =
      { s.estate with memory, space := update s.estate.space t pageTable } := by
    rw [hs₁, estate_modify]
    simp [State.estate]
  rw [← hestate] at howned
  have htable : s₁.taskTable = s.taskTable := rfl
  have hpid₁ : (s₁.tcb t).pid = pid := by
    rw [hs₁, modify_tcb_self]
    exact hpid
  have hspace₁ : (s₁.tcb t).pageTable = pageTable := by rw [hs₁, modify_tcb_self]
  unfold cloneKernelStack
  cases halloc : s₁.memory.alignedAlloc al with
  | mk found m₂ =>
    have hkeeps₂ : Keeps s.memory m₂ := hkeeps.trans (.alloc halloc)
    cases found with
    | some stack =>
      set s₂ := State.modify { s₁ with memory := m₂ } t
        fun task => { task with kernelStack := some stack } with hs₂
      have hestate₂ : s₂.estate = { s₁.estate with
          memory := m₂, stack := update s₁.estate.stack t (some stack) } := by
        rw [hs₂, estate_modify]
        simp [State.estate]
      have howned₂ : s₂.estate.Owned A := hestate₂ ▸ howned.takeStack halloc
      have hpid₂ : assignedPid s₂ (s₂.tcb t) = pid := by
        rw [assignedPid, hs₂, modify_tcb_self]
        exact (if_neg (hpid₁.symm ▸ hpid0)).trans hpid₁
      refine addTask_housed A c howned₂ (h.sameElse ?_ fun u hu => ?_) htable hpid₂ hfresh ?_
      · rw [hestate₂]
        exact hkeeps₂
      · rw [hestate₂, hestate]
        exact ⟨update_of_ne hu _ _, update_of_ne hu _ _, rfl⟩
      · rcases hok with hparent | ⟨hroom, -⟩
        · refine .inr ?_
          rw [hestate₂, hestate]
          exact (update_self ..).trans (hnone hparent)
        · exact .inl hroom
    | none =>
      simp only [hspace₁]
      cases hp : pageTable with
      | none =>
        have hestate₂ : State.estate { s₁ with memory := m₂ } = { s.estate with memory := m₂ } := by
          have hsame : update s.estate.space t pageTable = s.estate.space := by
            rw [hp, ← hspace, update_eq_self]
          change Estate.mk m₂ s₁.estate.stack s₁.estate.space s₁.estate.family = _
          rw [hestate, hsame]
        exact .discard h hkeeps₂ rfl hestate₂ hstack hspace
      | some root =>
        have hparent : (s.tcb parent).pageTable ≠ none := by
          intro hn
          rw [hnone hn] at hp
          cases hp
        by_cases hflag : hasFlag flags cloneVm
        · obtain ⟨hmemory, -⟩ := hvm hflag
          have hfail := (alignedAlloc_none halloc).1
          change al.alignedAlloc memory.heap = none at hfail
          rw [hmemory] at hfail
          exact absurd hfail ((hok.resolve_left hparent).2 hflag)
        simp only [hflag, Bool.false_eq_true, if_false]
        obtain ⟨htree, hnew⟩ := hcopy hflag root hp
        obtain ⟨-, hm₂⟩ := alignedAlloc_none halloc
        have hentry : m₂.entry = memory.entry := by
          rw [hm₂]
          rfl
        have hdir : A.directory m₂ root = A.directory memory root :=
          (blocks_congr fun x _ => by rw [hentry]).1
        have hdestroy : Keeps s.memory (destroyPageDirectory A root false m₂) := by
          refine (hkeeps₂.destroy (htree.congr (fun x _ => by rw [hentry]) fun x hx => ?_)
            (by rw [hdir]; exact hnew)).1
          rw [Memory.Live, hm₂]
          exact htree.live x hx
        have hestate₂ := estate_giveBack hestate hspace (destroyPageDirectory A root false m₂)
        exact .discard h hdestroy rfl hestate₂ hstack hspace

/-- The table finds the tasks by their pids, and only tasks in the table hold blocks. -/
structure State.Listed (s : State N) : Prop where
  filed : s.Filed
  holder : ∀ {t}, s.estate.stack t ≠ none ∨ s.estate.space t ≠ none → t ∈ s.tasks

theorem State.Listed.unborn (h : s.Listed) (ht : s.nextTask ≤ t) :
    s.estate.stack t = none ∧ s.estate.space t = none := by
  by_contra hn
  have hold : s.estate.stack t ≠ none ∨ s.estate.space t ≠ none := by
    by_cases hs : s.estate.stack t = none
    · exact .inr fun hp => hn ⟨hs, hp⟩
    · exact .inl hs
  exact absurd (h.filed.mem_tasks (h.holder hold)).1 (not_lt.mpr ht)

theorem cloneWithPid_housed (al : Allocator A) (c : N.Core) (hlisted : s.Listed) (h : s.estate.Owned A)
    (hpid0 : pid ≠ 0) (hfresh : s.taskTable.lookup pid = none)
    (hok : (s.tcb parent).pageTable = none ∨ (s.taskTable.keys.length < maxTasks ∧
      (hasFlag flags cloneVm → al.alignedAlloc s.memory.heap ≠ none))) :
    Housed A s.nextTask pid s (cloneWithPid A al c parent pid flags s).2 := by
  obtain ⟨hstack, hspace⟩ := hlisted.unborn le_rfl
  unfold cloneWithPid
  simp only
  set family := update s.family s.nextTask (s.family parent) with hf
  set s₁ : State N := { s.create (cloneTask (s.tcb parent) pid flags) with family } with hs₁
  have hestate₁ : s₁.estate = { s.estate with family } := by
    have hcreate : (s.create (cloneTask (s.tcb parent) pid flags)).estate = s.estate :=
      estate_modify_of_eq (f := fun _ => cloneTask (s.tcb parent) pid flags) hstack hspace
    exact congrArg (fun e : Estate TaskPtr => { e with family }) hcreate
  have hframe := (cloneThreadGroup_regrouped s₁ parent s.nextTask flags).silent.frame
  have hestate := hframe.estate_eq.trans hestate₁
  generalize cloneThreadGroup parent s.nextTask flags s₁ = s₂ at hframe hestate ⊢
  have howned : s₂.estate.Owned A := hestate ▸ h.setFamily hspace _
  have hsame : Estate.SameElse A s.nextTask s.estate s₂.estate := by
    rw [hestate]
    exact h.sameElse (.refl _) fun u hu => ⟨rfl, rfl, update_of_ne hu _ _⟩
  have hparent : (s₂.tcb parent).pageTable = (s.tcb parent).pageTable :=
    congrArg (fun e : Estate TaskPtr => e.space parent) hestate
  have hmemory : s₂.memory = s.memory := congrArg Estate.memory hestate
  have htable : s₂.taskTable = s.taskTable := hframe.taskTable
  have hpid : (s₂.tcb s.nextTask).pid = pid := by
    have hsame : (s₂.tcb s.nextTask).pid = (s₁.tcb s.nextTask).pid :=
      congrArg Prod.fst (hframe.assets s.nextTask)
    exact hsame.trans (congrArg TaskControlBlock.pid (create_tcb_self s _))
  have hfamily : s₂.family s.nextTask = s₂.family parent := by
    have hsame : s₂.family = family := congrArg Estate.family hestate
    rw [hsame, hf, update_self]
    by_cases hp : parent = s.nextTask
    · rw [hp, update_self]
    · rw [update_of_ne hp]
  have hhoused := cloneResources_housed al c howned (by rw [hestate]; exact hstack)
    (by rw [hestate]; exact hspace) hfamily hpid hpid0 (by rw [htable]; exact hfresh)
    (by rw [hparent, htable, hmemory]; exact hok)
  refine ⟨hhoused.owned, hsame.trans hhoused.others, ?_⟩
  rw [← htable]
  exact hhoused.table

/-! ## Runs -/

/-- What the tasks hold is theirs. -/
structure Machine.Housing (A : CpuIo) (m : Machine N) : Prop extends m.Safe where
  listed : m.kernel.Listed
  owned : m.kernel.estate.Owned A

namespace Machine.Housing

variable (h : m.Housing A)
include h

section

variable (hsafe : m'.Safe) (hfiled : m'.kernel.Filed)
include hsafe hfiled

theorem of_frame (hf : Frame m.kernel m'.kernel) : m'.Housing A := by
  have hestate := hf.estate_eq
  refine ⟨hsafe, ⟨hfiled, fun ht => ?_⟩, hestate ▸ h.owned⟩
  rw [hestate] at ht
  rw [State.tasks, hf.taskTable]
  exact h.listed.holder ht

theorem enter (hfresh : m.kernel.taskTable.lookup pid = none)
    (hh : Housed A u pid m.kernel m'.kernel) : m'.Housing A := by
  refine ⟨hsafe, ⟨hfiled, fun {t} ht => ?_⟩, hh.owned⟩
  by_cases hnew : t = u
  · subst hnew
    rcases hh.table with htable | ⟨-, hstack, hspace⟩
    · exact mem_tasks.mpr ⟨pid, by rw [htable, AList.lookup_insert]⟩
    · exact absurd ht (by simp [hstack, hspace])
  obtain ⟨hstack, hspace, -, -⟩ := hh.others t hnew
  rw [hstack, hspace] at ht
  have hold := h.listed.holder ht
  rcases hh.table with htable | ⟨htable, -, -⟩
  · exact (mem_tasks_insert htable hfresh hnew).mpr hold
  · rwa [State.tasks, htable]

end

theorem clone_housed (hok : m.clonesWhole al a) (hcall : a.call = .clone flags)
    (hcur : m.kernel.currentTask a.core = some parent) (hpid0 : m.kernel.pidAllocator ≠ 0) :
    m.kernel.taskTable.lookup m.kernel.pidAllocator = none ∧
      Housed A m.kernel.nextTask m.kernel.pidAllocator m.kernel
        (clone A al a.core flags m.kernel).2 := by
  simp only [Machine.clonesWhole, hcall, hcur, Bool.and_eq_true, Option.isNone_iff_eq_none,
    Bool.or_eq_true, decide_eq_true_eq, Bool.not_eq_true'] at hok
  obtain ⟨hfresh, hok⟩ := hok
  refine ⟨hfresh, ?_⟩
  set s₁ : State N := (allocatePid m.kernel).2 with hs₁
  have hlisted : s₁.Listed := ⟨h.listed.filed, h.listed.holder⟩
  have hwhole := cloneWithPid_housed al a.core hlisted h.owned hpid0 hfresh
    (hok.imp_right fun hok => And.intro hok.1 fun hvm : hasFlag (completeFlags flags) cloneVm =>
      Option.isSome_iff_ne_none.mp (hok.2.resolve_left (by simp [hvm])))
  rw [clone_eq A al flags hcur hpid0]
  exact ⟨hwhole.owned, hwhole.others, hwhole.table⟩

theorem reap (hsafe : m'.Safe) (hfiled : m'.kernel.Filed) (hok : m.reapsAlone a) {target : TaskPtr}
    (hpc : m.pc a.core = .reap target) (hk : m'.kernel = reap A target m.kernel) :
    m'.Housing A ∧ ∀ t ∈ m'.kernel.tasks,
      m'.kernel.addressSpace A t = m.kernel.addressSpace A t := by
  cases hu : m.kernel.taskTable.lookup (m.kernel.tcb target).pid with
  | none =>
    have hsame : m'.kernel = m.kernel := by rw [hk, TaskManager.reap, hu]
    refine ⟨h.of_frame hsafe hfiled (by rw [hsame]; exact .refl _), fun t _ => by rw [hsame]⟩
  | some u =>
    set s₁ : State N := { m.kernel with
      taskTable := m.kernel.taskTable.erase (m.kernel.tcb target).pid }
    have hreap : m'.kernel = destroy A u s₁ := by rw [hk, TaskManager.reap, hu]
    obtain ⟨freePages, hestate⟩ := destroy_estate A u s₁
    have hinert := destroy_inert A u s₁
    rw [← hreap] at hestate hinert
    change m'.kernel.estate = m.kernel.estate.release A u freePages at hestate
    have hsole : ∀ v, v ≠ u → m.kernel.estate.family v = m.kernel.estate.family u →
        m.kernel.estate.space u = none ∨ m.kernel.estate.space v = none := by
      intro v hv hf
      simp only [Machine.reapsAlone, hpc, hu, Option.all_some, Bool.or_eq_true,
        Option.isNone_iff_eq_none, all_eq_true, decide_eq_true_eq] at hok
      refine hok.imp_right fun hall => ?_
      by_contra hspace
      rcases hall v (h.listed.holder (.inr hspace)) with (hvu | hne) | hnone
      · exact hv hvu
      · exact hne hf
      · exact hspace hnone
    obtain ⟨howned, hothers⟩ := h.owned.release freePages hsole
    rw [← hestate] at howned hothers
    have htable : m'.kernel.taskTable = m.kernel.taskTable.erase (m.kernel.tcb target).pid :=
      hinert.taskTable
    refine ⟨⟨hsafe, ⟨hfiled, fun {t} ht => ?_⟩, howned⟩, fun t ht => ?_⟩
    · have hne : t ≠ u := by
        rintro rfl
        rw [hestate] at ht
        simp [Estate.release] at ht
      obtain ⟨hstack, hspace, -, -⟩ := hothers t hne
      rw [hstack, hspace] at ht
      obtain ⟨p, hp⟩ := mem_tasks.mp (h.listed.holder ht)
      have hkey : p ≠ (m.kernel.tcb target).pid := by
        rintro rfl
        rw [hu] at hp
        exact hne (Option.some.inj hp).symm
      exact mem_tasks.mpr ⟨p, by rw [htable, AList.lookup_erase_ne hkey, hp]⟩
    · have hne : t ≠ u := by
        rintro rfl
        have hpid : (m'.kernel.ids t).pid = (m.kernel.tcb target).pid :=
          (hinert.pid t).trans (h.listed.filed _ _ hu).2
        have hp := (hfiled.mem_tasks ht).2
        rw [htable, hpid, AList.lookup_erase] at hp
        cases hp
      exact (hothers t hne).2.2.2

theorem addTask_housed (hok : m.addsOwner A a) {task : TaskControlBlock}
    (hcall : a.call = .addTask task) :
    m.kernel.taskTable.lookup (assignedPid m.kernel task) = none ∧
      Housed A m.kernel.nextTask (assignedPid m.kernel task) m.kernel
        (addTask A a.core m.kernel.nextTask (m.kernel.create task)) := by
  simp only [Machine.addsOwner, hcall, Bool.and_eq_true, Option.isNone_iff_eq_none,
    decide_eq_true_eq, all_eq_true] at hok
  obtain ⟨⟨⟨⟨⟨hfresh, hroom⟩, hnodup⟩, hlive⟩, hnull⟩, hapart⟩ := hok
  refine ⟨hfresh, ?_⟩
  set e := m.kernel.estate with he
  set t := m.kernel.nextTask with ht
  obtain ⟨hstack, hspace⟩ := h.listed.unborn (t := t) le_rfl
  have hown : ∀ x ∈ task.kernelStack.toList ++ task.pageTable.elim [] (A.blocks m.kernel.memory),
      (∀ u, e.stack u ≠ some x) ∧ ∀ u, x ∉ e.blocks A u := by
    intro x hx
    refine ⟨fun u hu => ?_, fun u hu => ?_⟩
    · have hmem : u ∈ m.kernel.tasks :=
        h.listed.holder (.inl (by rw [← he, hu]; exact Option.some_ne_none x))
      exact hapart u hmem x (mem_append_left _ (by simpa [he, State.estate] using hu)) hx
    · have hmem : u ∈ m.kernel.tasks := by
        refine h.listed.holder (.inr fun hn => ?_)
        rw [Estate.blocks_of_none hn] at hu
        cases hu
      exact hapart u hmem x (mem_append_right _ hu) hx
  have howned₁ : Estate.Owned A { e with stack := update e.stack t task.kernelStack } := by
    cases hk : task.kernelStack with
    | none =>
      rw [← hstack, update_eq_self]
      exact h.owned
    | some k =>
      have hmem : k ∈ task.kernelStack.toList ++
          task.pageTable.elim [] (A.blocks m.kernel.memory) := by simp [hk]
      exact h.owned.adoptStack (hlive k hmem) (hown k hmem).1 (hown k hmem).2
  have hcreate : (m.kernel.create task).estate = { e with
      stack := update e.stack t task.kernelStack
      space := update e.space t task.pageTable } := estate_modify m.kernel t fun _ => task
  have howned₂ : (m.kernel.create task).estate.Owned A := by
    rw [hcreate]
    cases hp : task.pageTable with
    | none =>
      rw [← hspace, update_eq_self]
      exact howned₁
    | some root =>
      rw [hp] at hnodup hlive hnull hown
      have hright : ∀ {x}, x ∈ A.blocks m.kernel.memory root →
          x ∈ task.kernelStack.toList ++ A.blocks m.kernel.memory root :=
        fun hx => mem_append_right _ hx
      refine howned₁.adopt (nodup_append.mp hnodup).2.1 (fun x hx => hlive x (hright hx))
        hnull (fun u hu x hx => (hown x (hright hx)).2 u) fun {u k} hk hx => ?_
      change update e.stack t task.kernelStack u = some k at hk
      by_cases hut : u = t
      · subst hut
        rw [update_self] at hk
        exact (nodup_append.mp hnodup).2.2 k (by simp [hk]) k hx rfl
      · rw [update_of_ne hut] at hk
        exact (hown k (hright hx)).1 u hk
  refine TaskManager.addTask_housed A a.core howned₂ ?_ rfl ?_ hfresh (.inl hroom)
  · refine h.owned.sameElse ?_ fun u hu => ?_
    · rw [hcreate]
      exact .refl _
    · rw [hcreate]
      exact ⟨update_of_ne hu _ _, update_of_ne hu _ _, rfl⟩
  · rw [create_tcb_self]
    rfl

theorem init (hsafe : m'.Safe) (hfiled : m'.kernel.Filed) (hpc : m.pc a.core = .off)
    (hk : m'.kernel = initCurrentCore a.core m.kernel) :
    m'.Housing A ∧ m'.kernel.estate = m.kernel.estate := by
  have hnone := h.schedulers_eq_none hpc
  have htable := (initCurrentCore_tasks hnone).1
  rw [← hk] at htable
  have hestate : m'.kernel.estate = m.kernel.estate := by
    obtain ⟨hstack, hspace⟩ := h.listed.unborn le_rfl
    obtain ⟨hstack₁, hspace₁⟩ := h.listed.unborn (t := m.kernel.nextTask + 1) (Nat.le_succ _)
    rw [hk, initCurrentCore_eq hnone]
    refine (estate_modify (m.kernel.modify _ fun _ => _) _ fun _ => _).trans ?_
    rw [estate_modify_of_eq hstack hspace, update_eq_self_iff.mpr hstack₁.symm,
      update_eq_self_iff.mpr hspace₁.symm]
  refine ⟨⟨hsafe, ⟨hfiled, fun ht => ?_⟩, hestate ▸ h.owned⟩, hestate⟩
  rw [hestate] at ht
  rw [State.tasks, htable]
  exact h.listed.holder ht

theorem step (hadd : m.addsOwner A a) (hreap : m.reapsAlone a)
    (hclone : m.clonesWhole al a) (hs : next A al tick m a = some m') :
    m'.Housing A ∧ ∀ t ∈ m.kernel.tasks, t ∈ m'.kernel.tasks →
      m'.kernel.addressSpace A t = m.kernel.addressSpace A t := by
  have hstep := next_step h.toSafe hs
  have hsafe := h.toSafe.step hstep
  have hfiled := ((next_exec hs).files h.toSafe).filed h.listed.filed
  have hframe : Frame m.kernel m'.kernel → m'.Housing A ∧ ∀ t ∈ m.kernel.tasks,
      t ∈ m'.kernel.tasks → m'.kernel.addressSpace A t = m.kernel.addressSpace A t := by
    intro hf
    refine ⟨h.of_frame hsafe hfiled hf, fun t _ _ => ?_⟩
    rw [State.addressSpace, hf.estate_eq]
    rfl
  have henter : ∀ {pid}, m.kernel.taskTable.lookup pid = none ∧
      Housed A m.kernel.nextTask pid m.kernel m'.kernel → m'.Housing A ∧ ∀ t ∈ m.kernel.tasks,
      t ∈ m'.kernel.tasks → m'.kernel.addressSpace A t = m.kernel.addressSpace A t := by
    rintro pid ⟨hfresh, hh⟩
    exact ⟨h.enter hsafe hfiled hfresh hh, fun t ht _ =>
      (hh.others t (h.listed.filed.mem_tasks ht).1.ne).2.2.2⟩
  cases hstep with
  | plain hp => exact hframe hp.change.frame
  | schedule hs => exact hframe hs.effect.frame
  | switchTo _ _ _ hk _ _ => exact hframe (by rw [hk]; exact .refl _)
  | @balance source needPreempt hpc => exact hframe (balance_still m.kernel a.core source).kept.frame
  | select => exact hframe (.refl _)
  | reap hpc hk hx hpc' =>
    obtain ⟨hhousing, hsame⟩ := h.reap hsafe hfiled hreap hpc hk
    exact ⟨hhousing, fun t _ ht => hsame t ht⟩
  | enter ha =>
    rcases ha.origin with ⟨task, hcall, hk⟩ | ⟨flags, hcall, hk⟩
    · exact henter (hk ▸ h.addTask_housed hadd hcall)
    have hnew := ha.newTask
    simp only [Machine.newTask, hcall] at hnew
    obtain ⟨parent, hcur, -⟩ := Option.map_eq_some_iff.mp hnew
    by_cases hpid0 : m.kernel.pidAllocator = 0
    · obtain ⟨_, hsame⟩ := clone_failed A al flags (c := a.core) (.inr hpid0)
      exact hframe (by rw [hk, hsame]; exact ⟨rfl, rfl, rfl, rfl, fun _ => rfl⟩)
    · exact henter (hk ▸ h.clone_housed hclone hcall hcur hpid0)
  | init hpc hk hx hpc' =>
    obtain ⟨hhousing, hestate⟩ := h.init hsafe hfiled hpc hk
    refine ⟨hhousing, fun t _ _ => ?_⟩
    rw [State.addressSpace, hestate]
    rfl

end Machine.Housing

variable (A al tick) in
def bootSystem : Transition (Machine N) (Action N) :=
  { system A al tick with
    init := fun m => m.Initial ∧ m.kernel.memory.heap.doubleFree = false }

theorem Machine.Initial.housing (h : m.Initial) (hfree : m.kernel.memory.heap.doubleFree = false) :
    m.Housing A := by
  have hsafe := h.safe
  obtain ⟨memory, rfl⟩ := h
  refine ⟨hsafe, ⟨fun p t ht => ?_, fun ht => ?_⟩, ⟨hfree, fun t => nodup_nil, nofun, nofun,
    fun _ _ _ => disjoint_nil_left _, nofun, nofun, nofun⟩⟩
  · simp at ht
  · exact absurd ht (by simp [State.estate])

/-- In a run that meets the three conditions no step frees a page-table page or a mapped page
of a task that stays in the table, and none is freed twice. -/
theorem pages_not_freed (A : CpuIo) (al : Allocator A) (tick : ℕ) {m m' : Machine N} {a : Action N}
    (h : (bootSystem A al tick).ReachableBy
      (fun m a => m.addsOwner A a ∧ m.reapsAlone a ∧ m.clonesWhole al a) m)
    (hok : m.addsOwner A a ∧ m.reapsAlone a ∧ m.clonesWhole al a)
    (hstep : next A al tick m a = some m') :
    m'.kernel.memory.heap.doubleFree = false ∧
      ∀ t ∈ m.kernel.tasks, t ∈ m'.kernel.tasks → ∀ b ∈ m.kernel.addressSpace A t,
        m'.kernel.memory.heap.live b = true := by
  have hm : m.Housing A := h.invariant (P := Machine.Housing A)
    (fun m (hm : m.Initial ∧ m.kernel.memory.heap.doubleFree = false) => hm.1.housing hm.2)
    fun _ _ _ hm hok hs => (hm.step hok.1 hok.2.1 hok.2.2 hs).1
  obtain ⟨hm', hsame⟩ := hm.step hok.1 hok.2.1 hok.2.2 hstep
  refine ⟨hm'.owned.doubleFree, fun t ht ht' b hb => ?_⟩
  rw [← hsame t ht ht'] at hb
  exact hm'.owned.live t b hb

def twoByTwo : CpuIo :=
  { sv39 with
    pageTableLevels := 2
    entriesPerTable := 2
    getVirtualPageNumber := fun va level => va / 2 ^ (12 + level) % 2
    levels_pos := by decide
    vpn_lt := fun va level => Nat.mod_lt _ (by decide) }

def twoByTwoBump (base : ℕ) : Allocator twoByTwo where
  alignedAlloc := (bump base).alignedAlloc
  fresh := (bump base).fresh
  isFrame := (bump base).isFrame
  ne_null := (bump base).ne_null

def twoDirectories : Machine dualCore :=
  { kernel := { memory :=
      { entry := fun table i =>
          if i = 0 then
            if table = 1 * 4096 then 2 * 1024 + 1
            else if table = 2 * 4096 then 3 * 1024 + 7
            else if table = 4 * 4096 then 5 * 1024 + 1
            else if table = 5 * 4096 then 6 * 1024 + 7
            else 0
          else 0
        heap := { live := fun a => a % 4096 = 0 ∧ 0 < a ∧ a ≤ 6 * 4096 } } } }

theorem twoDirectories_init : (bootSystem twoByTwo (twoByTwoBump 16) 1000).init twoDirectories :=
  ⟨⟨twoDirectories.kernel.memory, rfl⟩, rfl⟩

def firstTask : List (Action dualCore) :=
  bootBoth ++ [⟨cpu0, .addTask { pageTable := some (1 * 4096) }⟩, ⟨cpu0, .schedule⟩, goOn cpu0, goOn cpu0]

def exitAndWait : List (Action dualCore) :=
  [⟨cpu0, .schedule⟩, goOn cpu0, goOn cpu0, ⟨cpu0, .exit 0⟩] ++ replicate 5 (goOn cpu0) ++
    [⟨cpu0, .wait { pid := 2 }⟩, ⟨cpu0, .step [4, 5]⟩]

/-- The child was added with the second directory; its destructor leaves the page of the
parent alone. -/
theorem pages_not_freed_unrelated : ∃ m m' : Machine dualCore,
    next twoByTwo (twoByTwoBump 16) 1000 m (goOn cpu0) = some m' ∧
      5 ∈ m.kernel.tasks ∧ 5 ∉ m'.kernel.tasks ∧ m'.kernel.memory.heap.live (3 * 4096) = true ∧
      m'.kernel.memory.heap.doubleFree = false := by
  obtain ⟨m, hm, ⟨hadd, hreap, hclone⟩, h4, h5, hmem, m', hstep, h4', h5'⟩ :=
    (bootSystem twoByTwo (twoByTwoBump 16) 1000).exists_of_run
    (fun m a => m.addsOwner twoByTwo a ∧ m.reapsAlone a ∧ m.clonesWhole (twoByTwoBump 16) a)
    (firstTask ++ [⟨cpu0, .addTask { pageTable := some (4 * 4096), aux := { parentPid := 1 } }⟩] ++
      exitAndWait)
    (fun m => (m.addsOwner twoByTwo (goOn cpu0) ∧ m.reapsAlone (goOn cpu0) ∧
        m.clonesWhole (twoByTwoBump 16) (goOn cpu0)) ∧ 4 ∈ m.kernel.tasks ∧ 5 ∈ m.kernel.tasks ∧
      3 * 4096 ∈ m.kernel.addressSpace twoByTwo 4 ∧
      ∃ m' ∈ next twoByTwo (twoByTwoBump 16) 1000 m (goOn cpu0),
        4 ∈ m'.kernel.tasks ∧ 5 ∉ m'.kernel.tasks)
    twoDirectories_init (by decide +kernel)
  obtain ⟨hfree, hlive⟩ := pages_not_freed twoByTwo (twoByTwoBump 16) 1000 hm
    ⟨hadd, hreap, hclone⟩ hstep
  exact ⟨m, m', hstep, h5, h5', hlive 4 h4 h4' _ hmem, hfree⟩

/-- The child was made by `Clone` without `kVm`; its destructor frees the page that its
running parent still maps. -/
theorem reaped_child_frees_page : ¬ ∀ (m m' : Machine dualCore) (a : Action dualCore),
    (bootSystem twoByTwo (twoByTwoBump 16) 1000).ReachableBy (fun m a => m.addsOwner twoByTwo a) m →
      m.addsOwner twoByTwo a → next twoByTwo (twoByTwoBump 16) 1000 m a = some m' →
      m'.kernel.memory.heap.doubleFree = false ∧
        ∀ t ∈ m.kernel.tasks, t ∈ m'.kernel.tasks → ¬ isDead (m'.kernel.tcb t).status →
          ∀ b ∈ m.kernel.addressSpace twoByTwo t, m'.kernel.memory.heap.live b = true := by
  intro hall
  obtain ⟨m, hm, hadd, h4, hmem, m', hstep, h4', halive, hdead⟩ :=
    (bootSystem twoByTwo (twoByTwoBump 16) 1000).exists_of_run (fun m a => m.addsOwner twoByTwo a)
    (firstTask ++ [⟨cpu0, .clone 0⟩] ++ exitAndWait)
    (fun m => m.addsOwner twoByTwo (goOn cpu0) ∧ 4 ∈ m.kernel.tasks ∧
      3 * 4096 ∈ m.kernel.addressSpace twoByTwo 4 ∧
      ∃ m' ∈ next twoByTwo (twoByTwoBump 16) 1000 m (goOn cpu0),
        4 ∈ m'.kernel.tasks ∧ ¬ isDead (m'.kernel.tcb 4).status ∧
          m'.kernel.memory.heap.live (3 * 4096) = false)
    twoDirectories_init (by decide +kernel)
  have hlive := (hall m m' (goOn cpu0) hm hadd hstep).2 4 h4 h4' halive _ hmem
  rw [hdead] at hlive
  cases hlive

end SimpleKernel.TaskManager
