import SimpleKernel.Verification.Task.Reaping

/-! A terminated task in the table has a parent that can reap it, provided that every `Exit`
leaves the task and its terminated children to a live parent. -/

namespace SimpleKernel.TaskManager

open VirtualMemory (CpuIo Allocator sv39 bump)

variable {N : CoreCount} {A : CpuIo} {al : Allocator A} {tick : ℕ} {m m' : Machine N}
  {a : Action N} {s : State N} {t u z : TaskPtr}

def State.HasLive (s : State N) (pid : Pid) : Prop :=
  ∃ q, s.taskTable.lookup pid = some q ∧ (s.ids q).fate = none

def State.hasOther (s : State N) (pid : Pid) (t : TaskPtr) : Bool :=
  (s.taskTable.lookup pid).any fun q => q ≠ t && !isDead (s.tcb q).status

/-- The task may exit: the table has a live parent for it, and its terminated children are
handed over to a live init process. -/
def State.leavesParents (s : State N) (t : TaskPtr) : Bool :=
  (t ∉ s.tasks || s.hasOther (s.tcb t).aux.parentPid t) &&
    s.tasks.all fun z => !(isDead (s.tcb z).status && (s.tcb z).aux.parentPid = (s.tcb t).pid) ||
      ((s.tcb t).isThreadGroupLeader && s.hasOther 1 t)

def Machine.leavesParents (m : Machine N) (a : Action N) : Bool :=
  (m.exiting a).all m.kernel.leavesParents

/-- Every task in the table that has ended has a live parent there. -/
structure Machine.Parented (m : Machine N) : Prop extends m.Unique where
  parent : ∀ {t}, t ∈ m.kernel.tasks → (m.kernel.ids t).fate.isSome →
    m.kernel.HasLive (m.kernel.ids t).parentPid

theorem hasOther_iff {pid : Pid} : s.hasOther pid t ↔
    ∃ q, s.taskTable.lookup pid = some q ∧ q ≠ t ∧ (s.ids q).fate = none := by
  have hlive : ∀ q, isDead (s.tcb q).status = false ↔ (s.ids q).fate = none := by
    intro q
    rw [isDead_eq_fate, Option.isSome_eq_false_iff, Option.isNone_iff_eq_none]
  unfold State.hasOther
  cases s.taskTable.lookup pid with
  | none => simp
  | some q => simp [hlive]

namespace Machine.Parented

theorem exit {code : ℤ} (h : m.Parented) (hok : m.leavesParents a) (he : Ends m a m' t code)
    (hz : z ∈ m.kernel.tasks) (hdead : (m'.kernel.ids z).fate.isSome) :
    m'.kernel.HasLive (m'.kernel.ids z).parentPid := by
  have hlive : ∀ {pid q}, m.kernel.taskTable.lookup pid = some q → q ≠ t →
      (m.kernel.ids q).fate = none → m'.kernel.HasLive pid := by
    intro pid q hq hqt hfate
    exact ⟨q, he.table ▸ hq, (he.other hqt).1.trans hfate⟩
  have hbefore : z ≠ t → (m.kernel.ids z).fate.isSome := fun hzt => (he.other hzt).1 ▸ hdead
  simp only [Machine.leavesParents, he.exiting, Option.all_some, State.leavesParents, Bool.and_eq_true,
    Bool.or_eq_true, List.all_eq_true, decide_eq_true_eq] at hok
  obtain ⟨hself, hchildren⟩ := hok
  have hchild : z ≠ t → (m.kernel.ids z).parentPid = (m.kernel.ids t).pid →
      (m.kernel.tcb t).isThreadGroupLeader ∧ m'.kernel.HasLive 1 := by
    intro hzt hzp
    have hz' := (hchildren z hz).resolve_left (by
      have hd : isDead (m.kernel.tcb z).status = true := by
        rw [isDead_eq_fate]
        exact hbefore hzt
      simp [hd, show (m.kernel.tcb z).aux.parentPid = (m.kernel.tcb t).pid from hzp])
    obtain ⟨q, hq, hqt, hfate⟩ := hasOther_iff.mp hz'.2
    exact ⟨hz'.1, hlive hq hqt hfate⟩
  have hparent : z = t → ∃ q, m.kernel.taskTable.lookup (m.kernel.ids t).parentPid = some q ∧
      q ≠ t ∧ (m.kernel.ids q).fate = none := by
    rintro rfl
    exact hasOther_iff.mp (hself.resolve_left (not_not.mpr hz))
  by_cases hgiven : (m.kernel.tcb t).isThreadGroupLeader ∧ z ∈ m.kernel.tasks ∧
      (m.kernel.ids z).parentPid = (m.kernel.ids t).pid
  · rw [he.ids, State.exitIds, if_pos hgiven]
    by_cases hzt : z = t
    · -- `t` is not its own parent
      subst hzt
      obtain ⟨q, hq, hqt, -⟩ := hparent rfl
      rw [hgiven.2.2] at hq
      exact absurd (h.eq_of_lookup (h.filed.mem_tasks hz).1 hq) hqt
    · exact (hchild hzt hgiven.2.2).2
  rw [he.ids, State.exitIds, if_neg hgiven]
  by_cases hzt : z = t
  · obtain ⟨q, hq, hqt, hfate⟩ := hparent hzt
    rw [hzt]
    exact hlive hq hqt hfate
  obtain ⟨q, hq, hfate⟩ := h.parent hz (hbefore hzt)
  refine hlive hq ?_ hfate
  rintro rfl
  have hzp := (h.filed _ _ hq).2.symm
  exact hgiven ⟨(hchild hzt hzp).1, hz, hzp⟩

theorem step (h : m.Parented) (hfresh : m.freshPid a) (hok : m.leavesParents a)
    (hs : next A al tick m a = some m') : m'.Parented := by
  have hf := (next_exec hs).files h.toSafe
  refine ⟨h.toUnique.step hfresh hs, fun {z} hz hdead => ?_⟩
  have hz := hf.mem_tasks_of_ended hz hdead
  rcases hf.ends_or with hids | ⟨t, code, he⟩
  · rw [hids z (h.filed.mem_tasks hz).1] at hdead ⊢
    obtain ⟨q, hq, hfate⟩ := h.parent hz hdead
    obtain ⟨hlt, hpid⟩ := h.filed _ _ hq
    refine ⟨q, ?_, by rw [hids q hlt, hfate]⟩
    rcases Machine.Unique.lookup_kept hfresh hf hlt hpid with ⟨u, hpc, hpu⟩ | hkept
    · -- the parent is alive, the task that is reaped is not
      obtain ⟨hult, hended, -⟩ := h.selected hpc
      rw [hpu] at hq
      rw [h.eq_of_lookup hult hq] at hfate
      rw [hfate] at hended
      cases hended
    · rw [hkept, hq]
  · exact h.exit hok he hz hdead

end Machine.Parented

theorem Machine.Initial.parented (h : m.Initial) : m.Parented := by
  refine ⟨h.unique, fun {t} ht => ?_⟩
  obtain ⟨memory, rfl⟩ := h
  obtain ⟨p, hp⟩ := mem_tasks.mp ht
  simp at hp

/-- In every run in which new tasks get new pids and every `Exit` leaves the task and its
terminated children to live parents, a terminated task in the table has a live parent there. -/
theorem terminated_has_parent (A : CpuIo) (al : Allocator A) (tick : ℕ) {m : Machine N}
    (h : (system A al tick).ReachableBy (fun m a => m.freshPid a ∧ m.leavesParents a) m) :
    ∀ t ∈ m.kernel.tasks, isDead (m.kernel.tcb t).status →
      ∃ q, m.kernel.taskTable.lookup (m.kernel.tcb t).aux.parentPid = some q ∧
        isDead (m.kernel.tcb q).status = false := by
  have hm : m.Parented := h.invariant (P := Machine.Parented)
    (fun _ hm => Machine.Initial.parented hm) fun _ _ _ hm hok hs => hm.step hok.1 hok.2 hs
  intro t ht hdead
  rw [isDead_eq_fate] at hdead
  obtain ⟨q, hq, hfate⟩ := hm.parent ht hdead
  exact ⟨q, hq, by rw [isDead_eq_fate, hfate]; rfl⟩

/-- Task 5 has ended and is a zombie of task 4. -/
theorem terminated_has_parent_child : ∃ m : Machine dualCore,
    (system sv39 (bump 5) 1000).ReachableBy (fun m a => m.freshPid a ∧ m.leavesParents a) m ∧
      (m.kernel.tcb 5).status = .zombie ∧
      ∃ q, m.kernel.taskTable.lookup (m.kernel.tcb 5).aux.parentPid = some q ∧
        isDead (m.kernel.tcb q).status = false := by
  obtain ⟨m, hm, hmem, hzombie⟩ := dualCore_reaches (fun m a => m.freshPid a ∧ m.leavesParents a)
    (parentAndChild ++ [⟨cpu1, .exit 3⟩])
    (fun m => 5 ∈ m.kernel.tasks ∧ (m.kernel.tcb 5).status = .zombie) (by decide)
  exact ⟨m, hm, hzombie, terminated_has_parent sv39 (bump 5) 1000 hm 5 hmem (by rw [hzombie]; rfl)⟩

/-- Task 4, a kernel thread without a parent, has ended and stays in the table. -/
theorem terminated_without_parent : ¬ ∀ m : Machine dualCore,
    (system sv39 (bump 5) 1000).Reachable m →
    ∀ t ∈ m.kernel.tasks, isDead (m.kernel.tcb t).status →
      ∃ q, m.kernel.taskTable.lookup (m.kernel.tcb t).aux.parentPid = some q ∧
        isDead (m.kernel.tcb q).status = false := by
  intro hall
  obtain ⟨m, hm, hmem, hexited, hnone⟩ := dualCore_reaches (fun _ _ => True)
    (bootBoth ++ [⟨cpu0, .addTask {}⟩, ⟨cpu0, .schedule⟩, goOn cpu0, goOn cpu0, ⟨cpu0, .exit 0⟩])
    (fun m => 4 ∈ m.kernel.tasks ∧ (m.kernel.tcb 4).status = .exited ∧
      m.kernel.taskTable.lookup (m.kernel.tcb 4).aux.parentPid = none) (by decide)
  obtain ⟨q, hq, -⟩ := hall m hm 4 hmem (by rw [hexited]; rfl)
  rw [hnone] at hq
  cases hq

end SimpleKernel.TaskManager
