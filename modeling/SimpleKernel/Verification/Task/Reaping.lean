import SimpleKernel.Verification.Task.Pids
import SimpleKernel.Verification.Task.Switching

/-! `Wait` destroys a task after its core has left it, provided that this holds of the
terminated children already when `Wait` looks for one, and that pids are not used again. -/

namespace SimpleKernel.TaskManager

open Function
open VirtualMemory (CpuIo Allocator sv39 bump)

variable {N : CoreCount} {A : CpuIo} {al : Allocator A} {tick : ℕ} {m m' : Machine N}
  {a : Action N} {t u : TaskPtr}

def Machine.left (m : Machine N) (t : TaskPtr) : Bool :=
  decide (∀ i, m.kernel.currentTask i ≠ some t ∧ m.executing i ≠ some t ∧
    (m.kernel.cpuSchedulers i).idleSlot ≠ some t)

/-- If the step is a scan of `Wait`, the cores have left all terminated children that it is
about. -/
def Machine.childrenLeft (m : Machine N) (a : Action N) : Bool :=
  match m.pc a.core, m.kernel.currentTask a.core with
  | .wait args, some current => m.kernel.tasks.all fun t =>
    !(pidMatch (m.kernel.tcb current) (m.kernel.tcb t) args.pid && isDead (m.kernel.tcb t).status)
      || m.left t
  | _, _ => true

/-! ## Tasks that are gone -/

/-- No core knows the task or executes it any more. -/
structure Machine.Gone (m : Machine N) (t : TaskPtr) : Prop where
  created : t < m.kernel.nextTask
  near : ∀ i, ¬ m.kernel.board.Near i t
  executing : ∀ i, m.executing i ≠ some t

theorem Machine.Safe.gone (h : m.Safe) (ht : t < m.kernel.nextTask) (hl : m.left t)
    (hd : isDead (m.kernel.tcb t).status) : m.Gone t := by
  have hleft : ∀ i, m.kernel.currentTask i ≠ some t ∧ m.executing i ≠ some t ∧
    (m.kernel.cpuSchedulers i).idleSlot ≠ some t := of_decide_eq_true hl
  refine ⟨ht, fun i hn => ?_, fun i => (hleft i).2.1⟩
  rcases hn with hn | hn | ⟨k, -, hk⟩
  · exact (hleft i).1 hn
  · exact (hleft i).2.2 hn
  have hs : (m.kernel.tcb t).status = k.status := h.inv.status hk
  rw [hs] at hd
  cases k <;> cases hd

theorem Machine.Gone.step (h : m.Gone t) (hsafe : m.Safe)
    (hs : next A al tick m a = some m') : m'.Gone t := by
  have hstep := next_step hsafe hs
  have hfar : ∀ i, ¬ m'.kernel.board.Near i t := by
    intro i hn
    obtain ⟨j, hj⟩ := hstep.near_of_lt hsafe h.created hn
    exact h.near j hj
  refine ⟨h.created.trans_le ((next_exec hs).files hsafe).created_le, hfar, fun i => ?_⟩
  intro hx
  rcases hstep.executing_cases hsafe hx with hx | hn
  · exact h.executing i hx
  · exact hfar i hn

/-! ## Runs -/

/-- The task that a core is about to reap is gone. -/
def Machine.Reaps (m : Machine N) : Prop := ∀ c t, m.pc c = .reap t → m.Gone t

theorem Machine.Unique.gone_of_select {args : WaitArgs} {current : TaskPtr} (h : m.Unique)
    (hok : m.childrenLeft a) (hpc : m.pc a.core = .wait args)
    (hcur : m.kernel.currentTask a.core = some current) (hmem : t ∈ m.kernel.tasks)
    (hmatch : pidMatch (m.kernel.tcb current) (m.kernel.tcb t) args.pid)
    (hdead : isDead (m.kernel.tcb t).status) : m.Gone t := by
  have hleft : m.left t := by
    simp only [Machine.childrenLeft, hpc, hcur, List.all_eq_true] at hok
    simpa [hmatch, hdead] using hok t hmem
  exact h.toSafe.gone (h.filed.mem_tasks hmem).1 hleft hdead

theorem Machine.Reaps.step (h : m.Reaps) (hunique : m.Unique) (hok : m.childrenLeft a)
    (hs : next A al tick m a = some m') : m'.Reaps := by
  intro c t hc
  rcases (next_exec hs).pc_reap hc with ⟨hc, -⟩ | ⟨rfl, -, args, current, order, hscan, htarget⟩
  · exact (h c t hc).step hunique.toSafe hs
  · obtain ⟨hmem, hmatch, hdead⟩ := waitScan_target htarget
    exact (hunique.gone_of_select hok hscan.pc hscan.current (hscan.order.mem_iff.mp hmem) hmatch
      hdead).step hunique.toSafe hs

/-- What `task_table_.erase` destroys in the last step of `Wait` is not executed by any core. -/
theorem reap_not_executing (A : CpuIo) (al : Allocator A) (tick : ℕ) {m : Machine N}
    (h : (system A al tick).ReachableBy (fun m a => m.childrenLeft a ∧ m.freshPid a) m) :
    ∀ c t, m.pc c = .reap t → ∀ u,
      m.kernel.taskTable.lookup (m.kernel.tcb t).pid = some u →
      ∀ i, m.kernel.currentTask i ≠ some u ∧ m.executing i ≠ some u := by
  obtain ⟨hm, hreaps⟩ := h.invariant (P := fun m => m.Unique ∧ m.Reaps)
    (fun _ hm => ⟨Machine.Initial.unique hm, by obtain ⟨_, rfl⟩ := hm; nofun⟩)
    fun _ _ _ hm hok hs => ⟨hm.1.step hok.2 hs, hm.2.step hm.1 hok.1 hs⟩
  intro c t hpc u hu i
  have hgone := hreaps c t hpc
  obtain rfl := hm.eq_of_lookup hgone.created hu
  exact ⟨fun hr => hgone.near i (.inl hr), hgone.executing i⟩

def parentAndChild : List (Action dualCore) :=
  bootBoth ++ [⟨cpu0, .addTask {}⟩, ⟨cpu0, .addTask { aux := { parentPid := 1, cpuAffinity := 2 } }⟩,
    ⟨cpu0, .schedule⟩, goOn cpu0, goOn cpu0, ⟨cpu1, .schedule⟩, goOn cpu1, goOn cpu1]

/-- The child exits, and core 1 switches to its idle task. -/
theorem reap_not_executing_left : ∃ m : Machine dualCore,
    (system sv39 (bump 5) 1000).ReachableBy (fun m a => m.childrenLeft a ∧ m.freshPid a) m ∧
      m.pc cpu0 = .reap 5 ∧ m.executing cpu1 ≠ some 5 := by
  obtain ⟨m, hm, hp⟩ := dualCore_reaches (fun m a => m.childrenLeft a ∧ m.freshPid a)
    (parentAndChild ++ [⟨cpu1, .exit 3⟩] ++ List.replicate 5 (goOn cpu1) ++
      [⟨cpu0, .wait { pid := 2 }⟩, ⟨cpu0, .step [4, 5]⟩])
    (fun m => m.pc cpu0 = .reap 5 ∧ m.kernel.taskTable.lookup (m.kernel.tcb 5).pid = some 5)
    (by decide)
  have hreap := reap_not_executing sv39 (bump 5) 1000 hm cpu0 5 hp.1 5 hp.2 cpu1
  exact ⟨m, hm, hp.1, hreap.2⟩

/-- The child has published its end and is on its way to the last `Schedule`, when its parent
is about to destroy it. -/
theorem reaped_while_executing : ¬ ∀ m : Machine dualCore,
    (system sv39 (bump 5) 1000).Reachable m → ∀ c t, m.pc c = .reap t → ∀ u,
      m.kernel.taskTable.lookup (m.kernel.tcb t).pid = some u →
      ∀ i, m.kernel.currentTask i ≠ some u ∧ m.executing i ≠ some u := by
  intro hall
  obtain ⟨m, hm, hpc, htable, hexec⟩ := dualCore_reaches (fun _ _ => True)
    (parentAndChild ++ [⟨cpu1, .exit 3⟩, ⟨cpu0, .wait { pid := 2 }⟩, ⟨cpu0, .step [4, 5]⟩])
    (fun m => m.pc cpu0 = .reap 5 ∧ m.kernel.taskTable.lookup (m.kernel.tcb 5).pid = some 5 ∧
      m.executing cpu1 = some 5) (by decide)
  exact (hall m hm cpu0 5 hpc 5 htable cpu1).2 hexec

end SimpleKernel.TaskManager
