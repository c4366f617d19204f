import SimpleKernel.Verification.Task.Reaping

/-! The lists of the thread groups. They hold the live threads of each group as long as the
groups with new threads have a live leader. -/

namespace SimpleKernel.TaskManager

open List Function
open VirtualMemory (CpuIo Allocator sv39 bump)

variable {N : CoreCount} {A : CpuIo} {al : Allocator A} {tick : ℕ} {m m' : Machine N}
  {a : Action N} {s s' : State N} {c : N.Core} {t u : TaskPtr} {pid : Pid}

/-! ## The links -/

theorem links_of_kin_eq (h : s'.kin = s.kin) : s'.links = s.links := by
  have hprevious := fun t => congrArg Kin.previous (congrFun h t)
  have hnext := fun t => congrArg Kin.next (congrFun h t)
  exact congrArg₂ Links.mk (funext hprevious) (funext hnext)

theorem links_modify (s : State N) (t : TaskPtr) (f : TaskControlBlock → TaskControlBlock) :
    (s.modify t f).links =
      ⟨update s.links.previous t (f (s.tcb t)).previous,
        update s.links.next t (f (s.tcb t)).next⟩ := by
  ext u : 2
  all_goals
    by_cases hu : u = t
    · subst hu
      simp [State.links]
    · simp [State.links, modify_tcb_of_ne s t f hu, hu]

theorem links_modify_of_eq {f : TaskControlBlock → TaskControlBlock}
    (hp : (f (s.tcb t)).previous = (s.tcb t).previous) (hn : (f (s.tcb t)).next = (s.tcb t).next) :
    (s.modify t f).links = s.links := by
  rw [links_modify, hp, hn]
  exact congrArg₂ Links.mk (update_eq_self t _) (update_eq_self t _)

theorem links_setPrevious (s : State N) (t : TaskPtr) (p : Option TaskPtr) :
    (s.modify t fun u => { u with previous := p }).links =
      { s.links with previous := update s.links.previous t p } := by
  rw [links_modify]
  exact congrArg (Links.mk _) (update_eq_self t _)

theorem links_setNext (s : State N) (t : TaskPtr) (n : Option TaskPtr) :
    (s.modify t fun u => { u with next := n }).links =
      { s.links with next := update s.links.next t n } := by
  rw [links_modify]
  exact congrArg (Links.mk · _) (update_eq_self t _)

section Functions

variable (s : State N) (t : TaskPtr)

theorem unlink_links : (unlink t s).links = s.links.unlink t := by
  have hp : s.links.previous t = (s.tcb t).previous := rfl
  have hn : s.links.next t = (s.tcb t).next := rfl
  unfold unlink
  simp only [links_modify]
  cases hprevious : (s.tcb t).previous with
  | none =>
    cases hnext : (s.tcb t).next with
    | none => ext u v : 3 <;> simp [Links.unlink, hp, hn, hprevious, hnext, update_apply]
    | some n =>
      simp only [links_setPrevious]
      ext u v : 3 <;> simp [Links.unlink, hp, hn, hprevious, hnext, update_apply, eq_comm]
  | some p =>
    cases hnext : (s.tcb t).next with
    | none =>
      simp only [links_setNext]
      ext u v : 3 <;> simp [Links.unlink, hp, hn, hprevious, hnext, update_apply, eq_comm]
    | some n =>
      simp only [links_setPrevious, links_setNext]
      ext u v : 3 <;> simp [Links.unlink, hp, hn, hprevious, hnext, update_apply, eq_comm]

theorem joinThreadGroup_links (leader : TaskPtr) (h : leader ≠ t) :
    (joinThreadGroup t leader s).links = s.links.insertAfter leader t := by
  have hn : s.links.next leader = (s.tcb leader).next := rfl
  rw [joinThreadGroup, if_neg h]
  simp only [links_setNext]
  cases ha : (s.tcb leader).next with
  | none =>
    simp only [links_modify]
    ext u v : 3 <;> simp [Links.insertAfter, hn, ha, update_apply]
  | some after =>
    simp only [links_setPrevious]
    rw [links_modify]
    ext u v : 3 <;> simp [Links.insertAfter, hn, ha, update_apply, eq_comm]

theorem destroy_links (A : CpuIo) : (destroy A t s).links = s.links.unlink t := by
  unfold destroy
  rw [links_modify_of_eq rfl rfl]
  exact unlink_links s t

theorem reap_links (A : CpuIo) : (reap A t s).links =
    (s.taskTable.lookup (s.tcb t).pid).elim s.links s.links.unlink := by
  unfold reap
  simp only
  cases s.taskTable.lookup (s.tcb t).pid with
  | none => rfl
  | some u => exact destroy_links _ u A

theorem exit_links (code : ℤ) : (exit t code s).2.links = s.links.unlink t := by
  have hunlink : (unlink t (s.modify t fun task =>
      { task with aux := { task.aux with exitCode := code } })).links = s.links.unlink t := by
    rw [unlink_links, links_modify_of_eq rfl rfl]
  have hreparent : ∀ s : State N, (reparentChildren t s).links = s.links := by
    intro s
    unfold reparentChildren
    ext u v : 3
    all_goals
      simp only [State.links]
      split <;> rfl
  unfold exit
  simp only
  split
  · rw [hreparent, links_modify_of_eq rfl rfl, hunlink]
  · rw [links_modify_of_eq rfl rfl, hunlink]

/-! ## New tasks -/

/-- The new task `t` gets into the table and into a group, with the links `k`. If that fails,
its links are removed. -/
inductive Enrolled (s s' : State N) (t : TaskPtr) (pid g : Pid) (k : Links TaskPtr) : Prop where
  | entered : s'.taskTable = s.taskTable.insert pid t → s'.links = k → (s'.ids t).tgid = g →
      Enrolled s s' t pid g k
  | dropped : s'.taskTable = s.taskTable → s'.links = k.unlink t → Enrolled s s' t pid g k

theorem assignIds_group : (assignIds t s).links = s.links ∧
    ((assignIds t s).tcb t).aux.tgid = assignedTgid s (s.tcb t) := by
  obtain ⟨_, heq⟩ := assignIds_eq t s
  rw [heq, modify_tcb_self]
  exact ⟨links_modify_of_eq rfl rfl, rfl⟩

theorem addTask_enrolled (A : CpuIo) (c : N.Core)
    (hnew : s.taskTable.lookup (assignedPid s (s.tcb t)) = none) :
    Enrolled s (addTask A c t s) t (assignedPid s (s.tcb t)) (assignedTgid s (s.tcb t)) s.links := by
  obtain ⟨-, -, htable, hpid, -⟩ := assignIds_spec t s
  obtain ⟨hlinks, htgid⟩ := assignIds_group s t
  rcases addTask_cases s t A c with ⟨-, heq⟩ | hstill
  · rw [heq]
    refine .dropped ((destroy_inert A t _).taskTable.trans htable) ?_
    rw [destroy_links, hlinks]
  have hkin : (addTask A c t s).kin = (assignIds t s).kin := by
    rw [hstill.kept.kin]
    unfold insertTask
    simp only
    rw [hpid, htable, hnew]
    rfl
  refine .entered ?_ ((links_of_kin_eq hkin).trans hlinks) ?_
  · rw [hstill.kept.frame.taskTable, (insertTask_spec A t _).2.2.1, htable, hpid]
  · rw [ids_of_kin_eq hkin]
    exact htgid

theorem create_links (task : TaskControlBlock) (hnew : task.previous = none ∧ task.next = none)
    (halone : s.links.previous s.nextTask = none ∧ s.links.next s.nextTask = none) :
    (s.create task).links = s.links :=
  links_modify_of_eq (f := fun _ => task) (hnew.1.trans halone.1.symm) (hnew.2.trans halone.2.symm)

theorem hasFlag_completeFlags (flags : BitVec 64) :
    hasFlag (completeFlags flags) cloneThread = hasFlag flags cloneThread := by
  unfold completeFlags
  split
  · have hmask : cloneThread &&& (cloneVm ||| cloneFiles ||| cloneSighand) = 0 := by decide
    have hor : (flags ||| (cloneVm ||| cloneFiles ||| cloneSighand)) &&& cloneThread =
        flags &&& cloneThread := by
      rw [BitVec.and_comm, BitVec.and_or_distrib_left, hmask, BitVec.and_comm]
      exact BitVec.or_zero
    rw [hasFlag, hasFlag, hor]
  · rfl

theorem joinThreadGroup_tgid (leader : TaskPtr) (h : leader ≠ t) :
    ((joinThreadGroup t leader s).ids t).tgid = (s.tcb leader).aux.tgid := by
  rw [joinThreadGroup, if_neg h]
  rw [ids_modify_of_eq rfl]
  split
  · rw [ids_modify_self]
    rfl
  · rw [ids_modify_of_eq rfl, ids_modify_self]
    rfl

end Functions

section Clone

variable (A : CpuIo) (al : Allocator A) {parent leader : TaskPtr} {flags : BitVec 64}
  (hcur : s.currentTask c = some parent) (h0 : s.pidAllocator ≠ 0)
  (hnew : s.taskTable.lookup s.pidAllocator = none)
  (halone : s.links.previous s.nextTask = none ∧ s.links.next s.nextTask = none)

include hcur h0 hnew halone

theorem clone_enrolled {g : Pid} {k : Links TaskPtr} (hg : g ≠ 0)
    (hgroup : ∀ s₁ : State N, s₁.links = s.links → s₁.taskTable = s.taskTable →
      s₁.tcb = update s.tcb s.nextTask
        (cloneTask (s.tcb parent) s.pidAllocator (completeFlags flags)) →
      (cloneThreadGroup parent s.nextTask (completeFlags flags) s₁).links = k ∧
        ((cloneThreadGroup parent s.nextTask (completeFlags flags) s₁).ids s.nextTask).tgid = g) :
    Enrolled s (clone A al c flags s).2 s.nextTask s.pidAllocator g k := by
  obtain ⟨hlinks, htgid⟩ := hgroup { (allocatePid s).2.create
    (cloneTask (s.tcb parent) s.pidAllocator (completeFlags flags)) with
      family := update s.family s.nextTask (s.family parent) }
    (create_links (allocatePid s).2 _ ⟨rfl, rfl⟩ halone) rfl rfl
  obtain ⟨s₁, hs₁, hclone⟩ := clone_equipped A al flags hcur h0
  have hinert : Inert _ _ := (withChild_inert s parent (completeFlags flags)).trans hs₁.inert
  have htable : s₁.taskTable = s.taskTable := hinert.taskTable
  have hlinks₁ : s₁.links = k := (links_of_kin_eq hs₁.kin).trans hlinks
  obtain hclone | hclone := hclone
  · rw [hclone]
    refine .dropped ((destroy_inert A s.nextTask s₁).taskTable.trans htable) ?_
    rw [destroy_links, hlinks₁]
  have hpid : (s₁.tcb s.nextTask).pid = s.pidAllocator :=
    (hinert.pid _).trans (congrArg TaskControlBlock.pid (create_tcb_self (allocatePid s).2 _))
  have htgid₁ : (s₁.tcb s.nextTask).aux.tgid = g :=
    (congrArg (fun kin : Kin => kin.tgid) (congrFun hs₁.kin s.nextTask)).trans htgid
  have hassigned : assignedPid s₁ (s₁.tcb s.nextTask) = s.pidAllocator := by
    rw [assignedPid, hpid, if_neg h0]
  have henrolled := addTask_enrolled s₁ s.nextTask A c (by rw [hassigned, htable]; exact hnew)
  rw [assignedTgid, htgid₁, if_neg hg, hassigned, hlinks₁] at henrolled
  rw [hclone]
  cases henrolled with
  | entered ht hl hg => exact .entered (htable ▸ ht) hl hg
  | dropped ht hl => exact .dropped (ht.trans htable) hl

theorem clone_enrolled_process (hflag : hasFlag flags cloneThread = false) :
    Enrolled s (clone A al c flags s).2 s.nextTask s.pidAllocator s.pidAllocator s.links := by
  rw [← hasFlag_completeFlags] at hflag
  refine clone_enrolled A al hcur h0 hnew halone h0 fun s₁ hlinks _ htcb => ?_
  rw [cloneThreadGroup, if_neg (by rw [hflag]; nofun)]
  refine ⟨hlinks, ?_⟩
  change (s₁.tcb s.nextTask).aux.tgid = _
  rw [htcb, update_self]
  simp [cloneTask, hflag]

theorem clone_enrolled_thread (hflag : hasFlag flags cloneThread = true)
    (hparent : parent < s.nextTask) (hlt : leader < s.nextTask)
    (hleader : s.taskTable.lookup (s.tcb parent).aux.tgid = some leader)
    (hself : (s.tcb parent).isThreadGroupLeader → leader = parent)
    (hg : (s.tcb leader).aux.tgid ≠ 0) :
    Enrolled s (clone A al c flags s).2 s.nextTask s.pidAllocator (s.tcb leader).aux.tgid
      (s.links.insertAfter leader s.nextTask) := by
  rw [← hasFlag_completeFlags] at hflag
  refine clone_enrolled A al hcur h0 hnew halone hg fun s₁ hlinks htable htcb => ?_
  have hold : ∀ {u}, u < s.nextTask → s₁.tcb u = s.tcb u := by
    intro u hu
    rw [htcb, update_of_ne (Nat.ne_of_lt hu)]
  have hjoin : cloneThreadGroup parent s.nextTask (completeFlags flags) s₁ =
      joinThreadGroup s.nextTask leader s₁ := by
    rw [cloneThreadGroup, if_pos hflag, hold hparent, htable]
    split
    · rename_i hl
      rw [hself hl]
    · rw [hleader]
  have hne : leader ≠ s.nextTask := Nat.ne_of_lt hlt
  rw [hjoin, joinThreadGroup_links _ _ _ hne, joinThreadGroup_tgid _ _ _ hne, hlinks, hold hlt]
  exact ⟨rfl, rfl⟩

end Clone

/-! ## Live threads -/

/-- The task is in the table and has not ended. -/
def State.Live (s : State N) (t : TaskPtr) : Prop :=
  t ∈ s.tasks ∧ isDead (s.tcb t).status = false

instance (s : State N) (t : TaskPtr) : Decidable (s.Live t) := inferInstanceAs (Decidable (_ ∧ _))

def State.groupOf (s : State N) (t : TaskPtr) : Option Pid :=
  if s.Live t then some (s.tcb t).aux.tgid else none

theorem live_iff : s.Live t ↔ t ∈ s.tasks ∧ (s.ids t).fate = none := by
  rw [State.Live, isDead_eq_fate, Option.isSome_eq_false_iff, Option.isNone_iff_eq_none]

theorem groupOf_of_live (h : s.Live t) : s.groupOf t = some (s.ids t).tgid := if_pos h

theorem groupOf_of_not_live (h : ¬ s.Live t) : s.groupOf t = none := if_neg h

theorem groupOf_of_ended (h : (s.ids t).fate.isSome) : s.groupOf t = none := by
  refine groupOf_of_not_live fun hlive => ?_
  rw [(live_iff.mp hlive).2] at h
  cases h

theorem State.Filed.groupOf_new (h : s.Filed) (ht : s.nextTask ≤ t) : s.groupOf t = none :=
  groupOf_of_not_live fun hlive => Nat.not_lt.mpr ht (h.mem_tasks hlive.1).1

theorem live_of_groupOf {g : Pid} (h : s.groupOf t = some g) : s.Live t ∧ (s.ids t).tgid = g := by
  unfold State.groupOf at h
  split at h
  · rename_i hlive
    exact ⟨hlive, Option.some.inj h⟩
  · cases h

theorem groupOf_congr (hmem : t ∈ s'.tasks ↔ t ∈ s.tasks)
    (hids : t ∈ s.tasks → (s'.ids t).fate = (s.ids t).fate ∧ (s'.ids t).tgid = (s.ids t).tgid) :
    s'.groupOf t = s.groupOf t := by
  by_cases ht : t ∈ s.tasks
  · obtain ⟨hfate, htgid⟩ := hids ht
    have hlive : s'.Live t ↔ s.Live t := by rw [live_iff, live_iff, hmem, hfate]
    by_cases h : s.Live t
    · rw [groupOf_of_live h, groupOf_of_live (hlive.mpr h), htgid]
    · rw [groupOf_of_not_live h, groupOf_of_not_live (mt hlive.mp h)]
  · rw [groupOf_of_not_live fun h => ht h.1, groupOf_of_not_live fun h => ht (hmem.mp h.1)]

theorem groupOf_congr_ids (hmem : t ∈ s'.tasks ↔ t ∈ s.tasks)
    (hids : t ∈ s.tasks → s'.ids t = s.ids t) : s'.groupOf t = s.groupOf t := by
  refine groupOf_congr hmem fun ht => ?_
  rw [hids ht]
  exact ⟨rfl, rfl⟩

/-! ## The steps -/

/-- A new thread gets a live leader, and a task that is added is not in a group yet. -/
def Machine.joinsLeader (m : Machine N) (a : Action N) : Bool :=
  match a.call, m.kernel.currentTask a.core with
  | .addTask task, _ => task.aux.tgid = 0 && task.previous = none && task.next = none
  | .clone flags, some parent => !hasFlag flags cloneThread ||
      (m.kernel.taskTable.lookup (m.kernel.tcb parent).aux.tgid).any fun leader =>
        !isDead (m.kernel.tcb leader).status
  | _, _ => true

/-- The lists are those of the live threads of each group, and the groups are named after the
pids of tasks. -/
structure Machine.Threaded (m : Machine N) : Prop extends m.Unique where
  lists : m.kernel.links.Grouped m.kernel.groupOf
  named : ∀ {t}, t ∈ m.kernel.tasks →
    (m.kernel.ids t).tgid ≠ 0 ∧ ∃ u < m.kernel.nextTask, (m.kernel.ids u).pid = (m.kernel.ids t).tgid

theorem next_addTask {task : TaskControlBlock} (hcall : a.call = .addTask task)
    (hs : next A al tick m a = some m') :
    m'.kernel = addTask A a.core m.kernel.nextTask (m.kernel.create task) := by
  simp only [next, hcall, callStep, Option.ite_none_right_eq_some, Option.some.injEq] at hs
  obtain ⟨-, -, rfl⟩ := hs
  rfl

theorem next_clone {flags : BitVec 64} (hcall : a.call = .clone flags)
    (hs : next A al tick m a = some m') : m'.kernel = (clone A al a.core flags m.kernel).2 := by
  simp only [next, hcall, callStep, Option.ite_none_right_eq_some, Option.some.injEq] at hs
  obtain ⟨-, rfl⟩ := hs
  rfl

theorem Enrolled.grouped {g : Pid} {k : Links TaskPtr} (h : Enrolled s s' s.nextTask pid g k)
    {policy : SchedPolicy} (he : Enters s s' pid policy) (hfiled : s.Filed)
    (hnew : s.taskTable.lookup pid = none)
    (hk : k.Grouped (update s.groupOf s.nextTask (some g))) : s'.links.Grouped s'.groupOf := by
  have hids : ∀ {t}, t ∈ s.tasks → s'.ids t = s.ids t :=
    fun ht => he.ids _ (hfiled.mem_tasks ht).1
  cases h with
  | entered htable hlinks htgid =>
    rw [hlinks]
    refine hk.congr fun t => ?_
    by_cases ht : t = s.nextTask
    · subst ht
      have hlive : s'.Live s.nextTask := by
        refine live_iff.mpr ⟨mem_tasks.mpr ⟨pid, ?_⟩, he.alive⟩
        rw [htable, AList.lookup_insert]
      rw [update_self, groupOf_of_live hlive, htgid]
    · rw [update_of_ne ht]
      exact groupOf_congr_ids (mem_tasks_insert htable hnew ht) hids
  | dropped htable hlinks =>
    have hmem : ∀ t, t ∈ s'.tasks ↔ t ∈ s.tasks := fun t => by rw [State.tasks, htable, State.tasks]
    rw [hlinks]
    refine (hk.unlink s.nextTask).congr fun t => ?_
    by_cases ht : t = s.nextTask
    · subst ht
      rw [update_self]
      refine groupOf_of_not_live fun hlive => ?_
      exact absurd (hfiled.mem_tasks ((hmem _).mp hlive.1)).1 (Nat.lt_irrefl _)
    · rw [update_of_ne ht, update_of_ne ht]
      exact groupOf_congr_ids (hmem t) hids

namespace Machine.Threaded

variable (h : m.Threaded)
include h

theorem groupOf_ne
    (hpid : ∀ t < m.kernel.nextTask, (m.kernel.ids t).pid ≠ pid) (t : TaskPtr) :
    m.kernel.groupOf t ≠ some pid := by
  intro ht
  obtain ⟨hlive, rfl⟩ := live_of_groupOf ht
  obtain ⟨-, u, hu, hpidu⟩ := h.named hlive.1
  exact hpid u hu hpidu

theorem lookup_new (hpid : ∀ t < m.kernel.nextTask, (m.kernel.ids t).pid ≠ pid) :
    m.kernel.taskTable.lookup pid = none := by
  by_contra hne
  obtain ⟨t, ht⟩ := Option.ne_none_iff_exists'.mp hne
  exact hpid t (h.filed _ _ ht).1 (h.filed _ _ ht).2

theorem enrolled (hfresh : m.freshPid a) (hok : m.joinsLeader a) {policy : SchedPolicy}
    {target : N.Core} (hnew : m.newTask a = some (pid, policy, target))
    (he : Enters m.kernel m'.kernel pid policy) (hs : next A al tick m a = some m') :
    ∃ g k, Enrolled m.kernel m'.kernel m.kernel.nextTask pid g k ∧
      k.Grouped (update m.kernel.groupOf m.kernel.nextTask (some g)) ∧ g ≠ 0 ∧
      (g = pid ∨ ∃ u < m.kernel.nextTask, (m.kernel.ids u).pid = g) := by
  obtain ⟨h0, hpids⟩ := Machine.Unique.fresh hfresh hnew
  have hlookup := h.lookup_new hpids
  have hnone := h.filed.groupOf_new le_rfl
  have halone := h.lists.alone _ hnone
  have hfound := h.lists.found hnone (h.groupOf_ne hpids)
  cases hcall : a.call with
  | addTask task =>
    simp only [Machine.newTask, hcall, Option.some.injEq, Prod.mk.injEq] at hnew
    obtain ⟨rfl, -, -⟩ := hnew
    simp only [Machine.joinsLeader, hcall, Bool.and_eq_true, decide_eq_true_eq] at hok
    obtain ⟨⟨htgid, hprevious⟩, hnext⟩ := hok
    have henrolled := addTask_enrolled (m.kernel.create task) m.kernel.nextTask A a.core
    rw [create_tcb_self, create_links _ _ ⟨hprevious, hnext⟩ halone, assignedTgid, if_pos htgid,
      ← next_addTask hcall hs] at henrolled
    refine ⟨_, _, ?_, hfound, h0, .inl rfl⟩
    cases henrolled hlookup with
    | entered ht hl hg => exact .entered ht hl hg
    | dropped ht hl => exact .dropped ht hl
  | clone flags =>
    cases hcur : m.kernel.currentTask a.core with
    | none => simp [Machine.newTask, hcall, hcur] at hnew
    | some parent =>
      simp only [Machine.newTask, hcall, hcur, Option.map_some, Option.some.injEq,
        Prod.mk.injEq] at hnew
      obtain ⟨rfl, -, -⟩ := hnew
      rw [next_clone hcall hs]
      cases hflag : hasFlag flags cloneThread with
      | false =>
        exact ⟨_, _, clone_enrolled_process A al hcur h0 hlookup halone hflag, hfound, h0, .inl rfl⟩
      | true =>
        simp only [Machine.joinsLeader, hcall, hcur, hflag, Bool.not_true, Bool.false_or,
          Option.any_eq_true, Bool.not_eq_true'] at hok
        obtain ⟨leader, hleader, halive⟩ := hok
        have hlive : m.kernel.Live leader := ⟨mem_tasks.mpr ⟨_, hleader⟩, halive⟩
        have hparent : parent < m.kernel.nextTask := h.inv.created (.inl hcur)
        obtain ⟨hg, u, hu, hpid⟩ := h.named hlive.1
        refine ⟨_, _, clone_enrolled_thread A al hcur h0 hlookup halone hflag hparent
          (h.filed _ _ hleader).1 hleader (fun hl => ?_) hg,
          h.lists.insertAfter (groupOf_of_live hlive) hnone, hg, .inr ⟨u, hu, hpid⟩⟩
        refine h.eq_of_lookup hparent ?_
        rw [← hleader]
        exact congrArg m.kernel.taskTable.lookup (eq_of_beq hl)
  | _ => simp [Machine.newTask, hcall] at hnew

theorem exit {code : ℤ} {kernel : State N} (hsame : SameKin m.kernel kernel)
    (hrun : (kernel.tcb t).status = .running) (hk : m'.kernel = (TaskManager.exit t code kernel).2) :
    m'.kernel.links.Grouped m'.kernel.groupOf := by
  have hids : m'.kernel.ids = m.kernel.exitIds t code := by
    rw [hk, exit_ids kernel t hrun, hsame.exitIds]
  have htable : m'.kernel.taskTable = m.kernel.taskTable := by
    rw [hk, (exit_frame kernel t code).1, hsame.table]
  have hlinks : m'.kernel.links = m.kernel.links.unlink t := by
    rw [hk, exit_links, links_of_kin_eq hsame.kin]
  rw [hlinks]
  refine (h.lists.unlink t).congr fun u => ?_
  by_cases hu : u = t
  · subst hu
    rw [update_self]
    apply groupOf_of_ended
    rw [hids, State.exitIds, State.endedIds, if_pos rfl]
    rfl
  rw [update_of_ne hu]
  refine groupOf_congr (by rw [State.tasks, htable, State.tasks]) fun _ => ?_
  rw [hids, State.exitIds, State.endedIds, if_neg hu]
  exact ⟨rfl, rfl⟩

theorem reap (hpc : m.pc c = .reap t) (hk : m'.kernel = TaskManager.reap A t m.kernel) :
    m'.kernel.links.Grouped m'.kernel.groupOf := by
  obtain ⟨hlt, hended, -⟩ := h.selected hpc
  have hids : m'.kernel.ids = m.kernel.ids := by rw [hk, reap_ids]
  have hlookup : ∀ p, m'.kernel.taskTable.lookup p =
      if p = (m.kernel.ids t).pid then none else m.kernel.taskTable.lookup p := by
    rw [hk]
    exact reap_lookup m.kernel t A
  have hgroup : ∀ u, m'.kernel.groupOf u = m.kernel.groupOf u := by
    intro u
    by_cases hu : u = t
    · subst hu
      rw [groupOf_of_ended hended, groupOf_of_ended (hids ▸ hended)]
    refine groupOf_congr_ids ?_ fun _ => congrFun hids u
    simp only [mem_tasks, hlookup]
    refine exists_congr fun p => ?_
    split
    · rename_i hp
      subst hp
      refine iff_of_false nofun fun hlook => hu (h.eq_of_lookup hlt hlook)
    · rfl
  have hlinks : m'.kernel.links = (m.kernel.taskTable.lookup (m.kernel.ids t).pid).elim
      m.kernel.links m.kernel.links.unlink := by
    rw [hk]
    exact reap_links m.kernel t A
  cases hu : m.kernel.taskTable.lookup (m.kernel.ids t).pid with
  | none =>
    rw [hlinks, hu]
    exact h.lists.congr hgroup
  | some u =>
    obtain rfl := h.eq_of_lookup hlt hu
    rw [hlinks, hu]
    refine (h.lists.unlink u).congr fun v => ?_
    rw [hgroup, ← groupOf_of_ended hended, update_eq_self]

theorem boot (hb : Boots m.kernel m'.kernel) : m'.kernel.links.Grouped m'.kernel.groupOf := by
  have hkin : ∀ u, m'.kernel.links.previous u = m.kernel.links.previous u ∧
      m'.kernel.links.next u = m.kernel.links.next u := by
    intro u
    by_cases hold : u < m.kernel.nextTask
    · exact ⟨congrArg Kin.previous (hb.kin u hold), congrArg Kin.next (hb.kin u hold)⟩
    by_cases hnew : u < m'.kernel.nextTask
    · have hfresh := (hb.fresh u hnew (Nat.not_lt.mp hold)).1
      obtain ⟨hp, hn⟩ := h.lists.alone u (h.filed.groupOf_new (Nat.not_lt.mp hold))
      rw [hp, hn]
      exact ⟨congrArg Kin.previous hfresh, congrArg Kin.next hfresh⟩
    · have hrest := hb.rest u (Nat.not_lt.mp hnew)
      exact ⟨congrArg Kin.previous hrest, congrArg Kin.next hrest⟩
  have hlinks : m'.kernel.links = m.kernel.links :=
    Links.ext (funext fun u => (hkin u).1) (funext fun u => (hkin u).2)
  rw [hlinks]
  refine h.lists.congr fun u =>
    groupOf_congr_ids (by rw [State.tasks, hb.table, State.tasks]) fun hu => ?_
  exact congrArg Kin.toIdentity (hb.kin u (h.filed.mem_tasks hu).1)

theorem step (hfresh : m.freshPid a) (hok : m.joinsLeader a)
    (hs : next A al tick m a = some m') : m'.Threaded := by
  have hf := (next_exec hs).files h.toSafe
  have hle := hf.created_le
  have hpid : ∀ {u}, u < m.kernel.nextTask → (m'.kernel.ids u).pid = (m.kernel.ids u).pid :=
    fun hu => (hf.kept hu).1
  have hnamed : ∀ {t}, t ∈ m.kernel.tasks → (m'.kernel.ids t).tgid ≠ 0 ∧
      ∃ u < m'.kernel.nextTask, (m'.kernel.ids u).pid = (m'.kernel.ids t).tgid := by
    intro t ht
    obtain ⟨h0, u, hu, hname⟩ := h.named ht
    rw [(hf.kept (h.filed.mem_tasks ht).1).2]
    exact ⟨h0, u, Nat.lt_of_lt_of_le hu hle, (hpid hu).trans hname⟩
  refine ⟨h.toUnique.step hfresh hs, ?_, fun {t} ht => ?_⟩
  · cases hf with
    | same hsame =>
      rw [links_of_kin_eq hsame.kin]
      refine h.lists.congr fun t => groupOf_congr_ids (by rw [hsame.tasks]) fun _ => ?_
      rw [hsame.ids]
    | exit hsame _ hrun hk => exact h.exit hsame hrun hk
    | reap hpc hk => exact h.reap hpc hk
    | enter hnew he =>
      obtain ⟨g, k, henrolled, hk, -⟩ := h.enrolled hfresh hok hnew he hs
      exact henrolled.grouped he h.filed (h.lookup_new (Machine.Unique.fresh hfresh hnew).2) hk
    | boot hb => exact h.boot hb
  · obtain ⟨p, hp⟩ := mem_tasks.mp ht
    rcases hf.lookup_cases hp with hold | ⟨rfl, policy, target, hnew, he⟩
    · exact hnamed (mem_tasks.mpr ⟨p, hold⟩)
    obtain ⟨g, k, henrolled, -, h0, hg⟩ := h.enrolled hfresh hok hnew he hs
    cases henrolled with
    | dropped htable =>
      rw [htable] at hp
      exact absurd (h.filed _ _ hp).1 (Nat.lt_irrefl _)
    | entered _ _ hgroup =>
      rw [hgroup]
      refine ⟨h0, ?_⟩
      rcases hg with rfl | ⟨u, hu, hname⟩
      · exact ⟨_, he.created ▸ Nat.lt_succ_self _, he.newPid⟩
      · exact ⟨u, Nat.lt_of_lt_of_le hu hle, (hpid hu).trans hname⟩

end Machine.Threaded

theorem State.Filed.nodup (h : s.Filed) : s.tasks.Nodup := by
  have hentries := nodupKeys_iff_pairwise.mp s.taskTable.nodupKeys
  refine List.Nodup.map_on ?_ (hentries.imp fun hne heq => hne (congrArg Sigma.fst heq))
  rintro ⟨p, t⟩ hp ⟨q, u⟩ hq rfl
  have hpid := (h _ _ (AList.mem_lookup_iff.mpr hp)).2
  have hqid := (h _ _ (AList.mem_lookup_iff.mpr hq)).2
  rw [← hpid, ← hqid]

theorem Machine.Initial.threaded (h : m.Initial) : m.Threaded := by
  have hunique := h.unique
  obtain ⟨memory, rfl⟩ := h
  have hempty : ∀ t, t ∉ (State.tasks { memory : State N }) := by
    intro t ht
    obtain ⟨p, hp⟩ := mem_tasks.mp ht
    simp at hp
  refine ⟨hunique, ⟨fun g => ⟨[], .nil, fun t => ?_⟩, fun _ _ => ⟨rfl, rfl⟩⟩,
    fun {t} ht => absurd ht (hempty t)⟩
  exact iff_of_false not_mem_nil nofun

/-! ## Every run -/

/-- The lists of the thread groups agree with the ids of the groups. -/
structure State.GroupsAgree (s : State N) : Prop where
  together : ∀ t u, s.Live t → s.Live u → (s.tcb t).aux.tgid = (s.tcb u).aux.tgid →
    s.links.Together t u
  alive : ∀ t u, s.Live t → s.links.Together t u → isDead (s.tcb u).status = false
  size : ∀ t, s.Live t → ∀ fuel ≥ s.tasks.length, getThreadGroupSize fuel t s =
    some (s.tasks.countP fun u => s.Live u ∧ (s.tcb u).aux.tgid = (s.tcb t).aux.tgid)

theorem Machine.Threaded.groupsAgree (h : m.Threaded) : m.kernel.GroupsAgree := by
  have hlist : ∀ t, m.kernel.Live t → ∃ l, m.kernel.links.IsList l ∧ t ∈ l ∧
      ∀ u, u ∈ l ↔ m.kernel.Live u ∧ (m.kernel.tcb u).aux.tgid = (m.kernel.tcb t).aux.tgid := by
    intro t ht
    obtain ⟨l, hl, hmem⟩ := h.lists.list (m.kernel.tcb t).aux.tgid
    refine ⟨l, hl, (hmem t).mpr (groupOf_of_live ht), fun u => (hmem u).trans ⟨live_of_groupOf, ?_⟩⟩
    rintro ⟨hu, htgid⟩
    rw [groupOf_of_live hu]
    exact congrArg some htgid
  refine ⟨fun t u ht hu htgid => ?_, fun t u ht htu => ?_, fun t ht fuel hfuel => ?_⟩
  · obtain ⟨l, hl, htl, hmem⟩ := hlist t ht
    exact hl.together htl ((hmem u).mpr ⟨hu, htgid.symm⟩)
  · obtain ⟨l, hl, htl, hmem⟩ := hlist t ht
    exact ((hmem u).mp (hl.mem_of_together htl htu)).1.2
  · obtain ⟨l, hl, htl, hmem⟩ := hlist t ht
    have hperm : l.Perm (m.kernel.tasks.filter fun u =>
        m.kernel.Live u ∧ (m.kernel.tcb u).aux.tgid = (m.kernel.tcb t).aux.tgid) := by
      refine (perm_ext_iff_of_nodup hl.nodup (h.filed.nodup.filter _)).mpr fun u => ?_
      simp only [hmem, mem_filter, decide_eq_true_eq]
      exact ⟨fun hu => ⟨hu.1.1, hu⟩, fun hu => hu.2⟩
    have hlen : l.length ≤ fuel := hperm.length_eq ▸ (length_filter_le _ _).trans hfuel
    rw [countP_eq_length_filter, ← hperm.length_eq]
    obtain ⟨p, q, rfl⟩ := append_of_mem htl
    rw [length_append, length_cons] at hlen ⊢
    have hprevious : Links.count m.kernel.links.previous fuel (m.kernel.tcb t).previous 1 =
        some (1 + p.length) := hl.count_previous (by omega) 1
    have hnext : Links.count m.kernel.links.next fuel (m.kernel.tcb t).next (1 + p.length) =
        some (1 + p.length + q.length) := hl.count_next (by omega) (1 + p.length)
    have htgid : (m.kernel.tcb t).aux.tgid ≠ 0 := (h.named ht.1).1
    rw [getThreadGroupSize, if_neg htgid, hprevious, Option.bind_some, hnext]
    exact congrArg some (by omega)

/-- In every run in which new tasks get new pids and new threads get a live leader, the lists
of the thread groups agree with the ids of the groups. -/
theorem threadGroups_agree (A : CpuIo) (al : Allocator A) (tick : ℕ) {m : Machine N}
    (h : (system A al tick).ReachableBy (fun m a => m.freshPid a ∧ m.joinsLeader a) m) :
    m.kernel.GroupsAgree :=
  (h.invariant (P := Machine.Threaded) (fun _ hm => Machine.Initial.threaded hm)
    fun _ _ _ hm hok hs => hm.step hok.1 hok.2 hs).groupsAgree

/-- Task 4 has a second thread, task 5. -/
theorem threadGroups_agree_two : ∃ m : Machine dualCore,
    (system sv39 (bump 5) 1000).ReachableBy (fun m a => m.freshPid a ∧ m.joinsLeader a) m ∧
      m.kernel.links.Together 4 5 ∧ getThreadGroupSize 2 4 m.kernel = some 2 := by
  obtain ⟨m, hm, h4, h5, htgid, hlen, hcount⟩ := dualCore_reaches
    (fun m a => m.freshPid a ∧ m.joinsLeader a)
    (bootBoth ++ [⟨cpu0, .addTask {}⟩, ⟨cpu0, .schedule⟩, goOn cpu0, goOn cpu0,
      ⟨cpu0, .clone cloneThread⟩])
    (fun m => m.kernel.Live 4 ∧ m.kernel.Live 5 ∧
      (m.kernel.tcb 4).aux.tgid = (m.kernel.tcb 5).aux.tgid ∧ m.kernel.tasks.length = 2 ∧
      m.kernel.tasks.countP (fun u => m.kernel.Live u ∧
        (m.kernel.tcb u).aux.tgid = (m.kernel.tcb 4).aux.tgid) = 2) (by decide)
  have hagree := threadGroups_agree sv39 (bump 5) 1000 hm
  refine ⟨m, hm, hagree.together 4 5 h4 h5 htgid, ?_⟩
  rw [hagree.size 4 h4 2 hlen.le]
  exact congrArg some hcount

/-- Task 4 has ended when its second thread, task 5, starts a third one, task 6, which gets into
the list of task 4. -/
theorem threadGroup_split : ¬ ∀ m : Machine dualCore,
    (system sv39 (bump 5) 1000).Reachable m → m.kernel.GroupsAgree := by
  intro hall
  obtain ⟨m, hm, h6, hlink, hexited⟩ := dualCore_reaches (fun _ _ => True)
    (bootBoth ++ [⟨cpu0, .addTask {}⟩, ⟨cpu0, .schedule⟩, goOn cpu0, goOn cpu0,
      ⟨cpu0, .clone cloneThread⟩, ⟨cpu0, .exit 0⟩, goOn cpu0, goOn cpu0, ⟨cpu0, .clone cloneThread⟩])
    (fun m => m.kernel.Live 6 ∧ m.kernel.links.previous 6 = some 4 ∧
      (m.kernel.tcb 4).status = .exited) (by decide)
  have halive := (hall m hm).alive 6 4 h6 (.single (.inr hlink))
  rw [hexited] at halive
  cases halive

end SimpleKernel.TaskManager
