import SimpleKernel.Verification.Task.Registry

/-! Tasks with different pids. What has ended stays so. -/

namespace SimpleKernel.TaskManager

open VirtualMemory (CpuIo Allocator)

variable {N : CoreCount} {A : CpuIo} {al : Allocator A} {tick : ℕ} {m m' : Machine N}
  {a : Action N} {t u : TaskPtr} {f : TaskStatus}

/-- The pid of a new task is not that of an earlier one. -/
def Machine.freshPid (m : Machine N) (a : Action N) : Bool :=
  (m.newTask a).all fun (pid, _, _) => pid ≠ 0 &&
    (List.range m.kernel.nextTask).all fun t => (m.kernel.tcb t).pid ≠ pid

/-! ## Tasks that have ended -/

section

variable (h : Files A m a m')
include h

theorem Files.ended (ht : t < m.kernel.nextTask)
    (hf : (m.kernel.ids t).fate = some f) : (m'.kernel.ids t).fate = some f ∧
      (m'.kernel.ids t).exitCode = (m.kernel.ids t).exitCode := by
  rcases h.ends_or with hids | ⟨u, code, he⟩
  · rw [hids t ht]
    exact ⟨hf, rfl⟩
  · have hne : t ≠ u := by
      rintro rfl
      rw [he.alive] at hf
      cases hf
    exact ⟨(he.other hne).1.trans hf, (he.other hne).2⟩

theorem Files.not_ended (ht : t < m.kernel.nextTask)
    (hf : (m.kernel.ids t).fate = none) (hne : m.exiting a ≠ some t) :
    (m'.kernel.ids t).fate = none := by
  rcases h.ends_or with hids | ⟨u, code, he⟩
  · rw [hids t ht, hf]
  · have hut : t ≠ u := by
      rintro rfl
      exact hne he.exiting
    exact (he.other hut).1.trans hf

theorem Files.new_cases (hle : m.kernel.nextTask ≤ t) (ht : t < m'.kernel.nextTask) :
    (t = m.kernel.nextTask ∧ ∃ pid policy target, m.newTask a = some (pid, policy, target) ∧
      Enters m.kernel m'.kernel pid policy) ∨ Boots m.kernel m'.kernel := by
  have hold := Nat.not_lt.mpr hle
  cases h with
  | same hs => exact absurd (hs.created ▸ ht) hold
  | @exit u code kernel hs _ _ hk =>
    rw [hk, (exit_frame kernel u code).2.1, hs.created] at ht
    exact absurd ht hold
  | @reap u _ hk =>
    rw [hk] at ht
    exact absurd (ht.trans_eq (congrArg Board.created (reap_spec A u m.kernel).1)) hold
  | enter hnew he =>
    rw [he.created] at ht
    exact .inl ⟨Nat.le_antisymm (Nat.le_of_lt_succ ht) hle, _, _, _, hnew, he⟩
  | boot hb => exact .inr hb

theorem Files.new_alive (hle : m.kernel.nextTask ≤ t)
    (ht : t < m'.kernel.nextTask) : (m'.kernel.ids t).fate = none := by
  rcases h.new_cases hle ht with ⟨rfl, _, _, _, -, he⟩ | hb
  · exact he.alive
  · exact congrArg (fun kin : Kin => kin.fate) (hb.fresh t ht hle).1

theorem Files.lookup_kept {p : Pid}
    (hp : ∀ {pid policy target}, m.newTask a = some (pid, policy, target) → p ≠ pid) :
    (∃ u, m.pc a.core = .reap u ∧ p = (m.kernel.ids u).pid) ∨
      m'.kernel.taskTable.lookup p = m.kernel.taskTable.lookup p := by
  cases h with
  | same hsame => exact .inr (by rw [hsame.table])
  | @exit u code kernel hsame _ _ hk =>
    exact .inr (by rw [hk, (exit_frame kernel u code).1, hsame.table])
  | @reap u hpc hk =>
    by_cases hpu : p = (m.kernel.ids u).pid
    · exact .inl ⟨u, hpc, hpu⟩
    right
    rw [hk, reap_lookup]
    exact if_neg hpu
  | enter hnew he =>
    right
    rcases he.table with htable | htable
    · rw [htable]
    · rw [htable, AList.lookup_insert_ne (hp hnew)]
  | boot hb => exact .inr (by rw [hb.table])

end

/-! ## The task that `Wait` has selected -/

theorem Exec.pc_reap (h : Exec A al tick m a m') {c : N.Core} (hc : m'.pc c = .reap t) :
    (m.pc c = .reap t ∧ c ≠ a.core) ∨ (c = a.core ∧ m'.kernel = m.kernel ∧
      ∃ args current order, Scans m a args current order ∧
        waitScan m.kernel (m.kernel.tcb current) args order false = .target t) := by
  by_cases hcore : c = a.core
  · subst hcore
    right
    have hgoes : ∀ {q : Pc N}, Goes m a m' q → q = .reap t := by
      intro q hg
      rwa [hg.pc, Function.update_self] at hc
    cases h with
    | @pass q _ hq hg =>
      rw [hgoes hg] at hq
      cases hq
    | select hs hscan hk hg =>
      cases hgoes hg
      exact ⟨rfl, hk, _, _, _, hs, hscan⟩
    | addTask _ _ _ _ hg | clone _ _ _ hg | tickUpdate _ _ _ hg | block _ _ _ _ hg
    | waitReturn _ _ _ hg | waitBlock _ _ _ _ _ hg | reap _ _ hg | signal _ _ _ hg
    | wakeup _ _ _ hg | balance _ _ hg => cases hgoes hg
    | sleep _ _ _ _ hg | wakeupOne _ _ _ hg =>
      have hq := hgoes hg
      split at hq <;> cases hq
    | @exit u code kernel _ _ _ hg =>
      have hq := hgoes hg
      cases hr : (TaskManager.exit u code kernel).1 <;> rw [hr] at hq <;> cases hq
    | sendSignal _ _ _ hq _ hg =>
      rw [hgoes hg] at hq
      cases hq
    | @schedule k _ _ hg =>
      have hq := hgoes hg
      cases hr : (TaskManager.schedule a.core m.kernel).1 <;> rw [hr] at hq
      · cases k <;> cases hq
      · cases hq
    | @switchTo current next k _ _ _ _ hpc =>
      rw [hpc, Function.update_self] at hc
      cases hk : Function.update m.context current k next <;> rw [hk] at hc <;> cases hc
    | init _ _ _ _ _ hpc =>
      rw [hpc, Function.update_self] at hc
      cases hc
  · exact .inl ⟨(h.pc_of_ne hcore).symm.trans hc, hcore⟩

/-! ## Different pids -/

/-- The tasks in the table have different pids other than 0, and a task that `Wait` has selected
has ended. -/
structure Machine.Unique (m : Machine N) : Prop extends m.Safe where
  filed : m.kernel.Filed
  nonzero : ∀ {p t}, m.kernel.taskTable.lookup p = some t → p ≠ 0
  distinct : ∀ {t u}, t < m.kernel.nextTask → u < m.kernel.nextTask →
    (m.kernel.ids t).pid = (m.kernel.ids u).pid → (m.kernel.ids t).pid ≠ 0 → t = u
  selected : ∀ {c t}, m.pc c = .reap t →
    t < m.kernel.nextTask ∧ (m.kernel.ids t).fate.isSome ∧ (m.kernel.ids t).pid ≠ 0

namespace Machine.Unique

theorem pid_ne_zero (h : m.Unique) (ht : t ∈ m.kernel.tasks) : (m.kernel.ids t).pid ≠ 0 :=
  h.nonzero (h.filed.mem_tasks ht).2

theorem eq_of_lookup (h : m.Unique) (ht : t < m.kernel.nextTask)
    (hu : m.kernel.taskTable.lookup (m.kernel.ids t).pid = some u) : u = t := by
  obtain ⟨hlt, hpid⟩ := h.filed _ _ hu
  exact (h.distinct ht hlt hpid.symm (h.nonzero hu)).symm

theorem fresh (hok : m.freshPid a) {pid : Pid} {policy : SchedPolicy} {target : N.Core}
    (hnew : m.newTask a = some (pid, policy, target)) :
    pid ≠ 0 ∧ ∀ t < m.kernel.nextTask, (m.kernel.ids t).pid ≠ pid := by
  simp only [Machine.freshPid, hnew, Option.all_some, Bool.and_eq_true, decide_eq_true_eq,
    List.all_eq_true, List.mem_range] at hok
  exact hok

theorem lookup_kept (hok : m.freshPid a) (hf : Files A m a m') {p : Pid}
    (ht : t < m.kernel.nextTask) (hp : (m.kernel.ids t).pid = p) :
    (∃ u, m.pc a.core = .reap u ∧ p = (m.kernel.ids u).pid) ∨
      m'.kernel.taskTable.lookup p = m.kernel.taskTable.lookup p :=
  hf.lookup_kept fun hnew => hp ▸ (fresh hok hnew).2 t ht

theorem pid_cases (hok : m.freshPid a) (hf : Files A m a m') (ht : t < m'.kernel.nextTask)
    (h0 : (m'.kernel.ids t).pid ≠ 0) :
    (t < m.kernel.nextTask ∧ (m'.kernel.ids t).pid = (m.kernel.ids t).pid) ∨
      (t = m.kernel.nextTask ∧
        ∀ u < m.kernel.nextTask, (m.kernel.ids u).pid ≠ (m'.kernel.ids t).pid) := by
  by_cases hold : t < m.kernel.nextTask
  · exact .inl ⟨hold, (hf.kept hold).1⟩
  right
  have hle := Nat.le_of_not_lt hold
  rcases hf.new_cases hle ht with ⟨rfl, _, _, _, hnew, he⟩ | hb
  · refine ⟨rfl, ?_⟩
    rw [he.newPid]
    exact (fresh hok hnew).2
  · exact absurd (congrArg (fun kin : Kin => kin.pid) (hb.fresh t ht hle).1) h0

theorem step (h : m.Unique) (hok : m.freshPid a) (hs : next A al tick m a = some m') :
    m'.Unique := by
  have hexec := next_exec hs
  have hf := hexec.files h.toSafe
  refine ⟨h.toSafe.step (next_step h.toSafe hs), hf.filed h.filed, fun {p t} ht => ?_,
    fun {t u} ht hu hp h0 => ?_, fun {c t} hc => ?_⟩
  · rcases hf.lookup_cases ht with hold | ⟨-, _, _, hnew, -⟩
    · exact h.nonzero hold
    · exact (fresh hok hnew).1
  · rcases pid_cases hok hf ht h0 with ⟨htold, htpid⟩ | ⟨rfl, htnew⟩
    · rcases pid_cases hok hf hu (hp ▸ h0) with ⟨huold, hupid⟩ | ⟨rfl, hunew⟩
      · exact h.distinct htold huold (htpid ▸ hupid ▸ hp) (htpid ▸ h0)
      · exact absurd (htpid.symm.trans hp) (hunew t htold)
    rcases pid_cases hok hf hu (hp ▸ h0) with ⟨huold, hupid⟩ | ⟨rfl, -⟩
    · exact absurd (hupid.symm.trans hp.symm) (htnew u huold)
    · rfl
  · rcases hexec.pc_reap hc with ⟨hc, -⟩ | ⟨rfl, hk, args, current, order, hscan, htarget⟩
    · obtain ⟨hlt, hdead, hpid⟩ := h.selected hc
      obtain ⟨f, hfate⟩ := Option.isSome_iff_exists.mp hdead
      refine ⟨?_, by rw [(hf.ended hlt hfate).1]; rfl, by rwa [(hf.kept hlt).1]⟩
      exact Nat.lt_of_lt_of_le hlt hf.created_le
    obtain ⟨hmem, -, hdead⟩ := waitScan_target htarget
    have htask := hscan.order.mem_iff.mp hmem
    rw [hk]
    exact ⟨(h.filed.mem_tasks htask).1, by rwa [← isDead_eq_fate], h.pid_ne_zero htask⟩

end Machine.Unique

theorem Machine.Initial.unique (h : m.Initial) : m.Unique := by
  have hsafe := h.safe
  obtain ⟨memory, rfl⟩ := h
  refine ⟨hsafe, fun p t ht => ?_, fun ht => ?_, fun ht => absurd ht (Nat.not_lt_zero _), nofun⟩
  · simp at ht
  · simp at ht

end SimpleKernel.TaskManager
