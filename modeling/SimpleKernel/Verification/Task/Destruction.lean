import SimpleKernel.Verification.Task.Pids
import SimpleKernel.Verification.Task.Switching

/-! `AddTask` destroys the task whose pid the new one has got, and `Wait` the task that it finds in
the table under the pid of the selected child. While pids in use are not given again, no task that
runs or is kept by a core has been destroyed. -/

namespace SimpleKernel.TaskManager

open VirtualMemory (CpuIo Allocator)

variable {N : CoreCount} {A : CpuIo} {al : Allocator A} {tick : ℕ} {m m' : Machine N}
  {a : Action N} {t : TaskPtr} {k : Container N}

def Pc.selected : Pc N → Option TaskPtr
  | .reap t => some t
  | _ => none

/-- The pid of a new task is neither in the table nor that of a child which a `Wait` is about to
remove. -/
def Machine.freePid (m : Machine N) (a : Action N) : Bool :=
  (m.newTask a).all fun (pid, _, _) => decide (pid ∉ m.kernel.taskTable ∧
    ∀ c, (m.pc c).selected.all fun t => (m.kernel.tcb t).pid ≠ pid)

/-- The control block has not been destroyed, and its owner is the table, except for the boot task
and the idle task of a core. -/
def State.Lives (s : State N) (t : TaskPtr) : Prop :=
  t ∉ s.destroyed ∧ (t ∈ s.tasks ∨ (s.tcb t).pid = 0 ∧ (s.tcb t).policy = .idle)

theorem Machine.freePid_spec {pid : Pid} {policy : SchedPolicy} {target : N.Core}
    (hok : m.freePid a) (hnew : m.newTask a = some (pid, policy, target)) :
    m.kernel.taskTable.lookup pid = none ∧
      ∀ {c t}, m.pc c = .reap t → (m.kernel.ids t).pid ≠ pid := by
  simp only [Machine.freePid, hnew, Option.all_some, decide_eq_true_eq] at hok
  refine ⟨AList.lookup_eq_none.mpr hok.1, fun {c t} hc => ?_⟩
  have hfree := hok.2 c
  rw [hc] at hfree
  exact of_decide_eq_true hfree

theorem Files.destroyed_cases (h : Files A m a m') (ht : t ∈ m'.kernel.destroyed) :
    t ∈ m.kernel.destroyed ∨ (t = m.kernel.nextTask ∧ t < m'.kernel.nextTask) ∨
      (∃ u, m.pc a.core = .reap u ∧ m.kernel.taskTable.lookup (m.kernel.ids u).pid = some t) ∨
      ∃ pid policy target, m.newTask a = some (pid, policy, target) ∧
        m.kernel.taskTable.lookup pid = some t := by
  cases h with
  | same hs => exact .inl (hs.destroyed ▸ ht)
  | @exit u code kernel hs _ _ hk =>
    rw [hk, (exit_frame kernel u code).2.2, hs.destroyed] at ht
    exact .inl ht
  | @reap u hpc hk =>
    rw [hk, reap_destroyed, List.mem_append, Option.mem_toList] at ht
    exact ht.symm.imp_right fun hu => .inr (.inl ⟨u, hpc, hu⟩)
  | enter hnew he =>
    rcases he.entry with ⟨-, hd, -⟩ | ⟨-, hd⟩
    · rw [hd, List.mem_cons] at ht
      exact ht.symm.imp_right fun hself => .inl ⟨hself, hself ▸ he.created ▸ Nat.lt_succ_self _⟩
    · rw [hd, List.mem_append, Option.mem_toList] at ht
      exact ht.symm.imp_right fun hu => .inr (.inr ⟨_, _, _, hnew, hu⟩)
  | boot hb => exact .inl (hb.destroyed ▸ ht)

/-- What a core knows and has not ended lives, and a `Wait` removes the child that it has selected
or nothing. -/
structure Machine.Alive (m : Machine N) : Prop extends m.Safe where
  filed : m.kernel.Filed
  old : ∀ {t}, t ∈ m.kernel.destroyed → t < m.kernel.nextTask
  lives : ∀ {c t}, m.kernel.board.Near c t → (m.kernel.ids t).fate = none → m.kernel.Lives t
  selected : ∀ {c t}, m.pc c = .reap t →
    t < m.kernel.nextTask ∧ (m.kernel.ids t).fate.isSome ∧
      ∀ {u}, m.kernel.taskTable.lookup (m.kernel.ids t).pid = some u → u = t

namespace Machine.Alive

theorem not_reaped (h : m.Alive) {c : N.Core} {u : TaskPtr} (hc : m.pc c = .reap u)
    (hfate : (m.kernel.ids t).fate = none) :
    m.kernel.taskTable.lookup (m.kernel.ids u).pid ≠ some t := by
  intro hl
  obtain ⟨-, hdead, hself⟩ := h.selected hc
  rw [hself hl] at hfate
  rw [hfate] at hdead
  cases hdead

theorem lives_of_lt (h : m.Alive) (hok : m.freePid a) (hf : Files A m a m')
    (hstep : Step A al m a m') (ht : t < m.kernel.nextTask) (hfate : (m.kernel.ids t).fate = none)
    (hlives : m.kernel.Lives t) : m'.kernel.Lives t := by
  obtain ⟨hsafe, howner⟩ := hlives
  have hpid : (m'.kernel.tcb t).pid = (m.kernel.tcb t).pid := (hf.kept ht).1
  have hpolicy : (m'.kernel.tcb t).policy = (m.kernel.tcb t).policy := hstep.policy_eq h.toSafe ht
  refine ⟨fun hd => ?_, howner.imp (fun hmem => ?_) fun hboot => by rwa [hpid, hpolicy]⟩
  · rcases hf.destroyed_cases hd with hd | ⟨rfl, -⟩ | ⟨u, hpc, hu⟩ | ⟨_, _, _, hnew, hu⟩
    · exact hsafe hd
    · exact Nat.lt_irrefl _ ht
    · exact h.not_reaped hpc hfate hu
    · rw [(freePid_spec hok hnew).1] at hu
      cases hu
  · have hl := (h.filed.mem_tasks hmem).2
    have hkept := hf.lookup_kept (p := (m.kernel.ids t).pid) fun hnew hp => by
      rw [hp, (freePid_spec hok hnew).1] at hl
      cases hl
    rcases hkept with ⟨u, hpc, hu⟩ | hkept
    · exact absurd (hu ▸ hl) (h.not_reaped hpc hfate)
    · exact mem_tasks.mpr ⟨_, hkept.trans hl⟩

theorem lives_of_new (h : m.Alive) (hok : m.freePid a) (hf : Files A m a m') {c : N.Core}
    (hle : m.kernel.nextTask ≤ t) (ht : t < m'.kernel.nextTask) (hn : m'.kernel.board.Near c t) :
    m'.kernel.Lives t := by
  have hold : t ∉ m.kernel.destroyed := fun hd => Nat.not_lt.mpr hle (h.old hd)
  rcases hf.new_cases hle ht with ⟨rfl, pid, _, _, hnew, he⟩ | hb
  · rcases he.entry with ⟨-, -, hstatus⟩ | ⟨htable, hd⟩
    · exact absurd (h.inv.created (he.discarded hstatus hn)) (Nat.lt_irrefl _)
    · rw [(freePid_spec hok hnew).1] at hd
      refine ⟨hd ▸ hold, .inl (mem_tasks.mpr ⟨pid, ?_⟩)⟩
      rw [htable, AList.lookup_insert]
  · obtain ⟨hkin, hpolicy⟩ := hb.fresh t ht hle
    exact ⟨hb.destroyed ▸ hold, .inr ⟨congrArg (fun kin : Kin => kin.pid) hkin, hpolicy⟩⟩

theorem step (h : m.Alive) (hok : m.freePid a) (hs : next A al tick m a = some m') : m'.Alive := by
  have hexec := next_exec hs
  have hstep := next_step h.toSafe hs
  have hf := hexec.files h.toSafe
  have hsafe := h.toSafe.step hstep
  refine ⟨hsafe, hf.filed h.filed, fun {t} hd => ?_, fun {c t} hn hfate => ?_,
    fun {c t} hc => ?_⟩
  · rcases hf.destroyed_cases hd with hd | ⟨-, hlt⟩ | ⟨_, -, hl⟩ | ⟨_, _, _, -, hl⟩
    · exact (h.old hd).trans_le hf.created_le
    · exact hlt
    all_goals exact (h.filed _ _ hl).1.trans_le hf.created_le
  · rcases Nat.lt_or_ge t m.kernel.nextTask with hlt | hle
    · obtain ⟨i, hi⟩ := hstep.near_of_lt h.toSafe hlt hn
      have hbefore : (m.kernel.ids t).fate = none := by
        cases hended : (m.kernel.ids t).fate with
        | none => rfl
        | some f => exact absurd ((hf.ended hlt hended).1.symm.trans hfate) nofun
      exact h.lives_of_lt hok hf hstep hlt hbefore (h.lives hi hbefore)
    · exact h.lives_of_new hok hf hle (hsafe.inv.created hn) hn
  · rcases hexec.pc_reap hc with ⟨hc, -⟩ | ⟨rfl, hk, args, current, order, hscan, htarget⟩
    · obtain ⟨hlt, hdead, hself⟩ := h.selected hc
      obtain ⟨f, hended⟩ := Option.isSome_iff_exists.mp hdead
      refine ⟨hlt.trans_le hf.created_le, by rw [(hf.ended hlt hended).1]; rfl, fun {u} hl => ?_⟩
      rw [(hf.kept hlt).1] at hl
      rcases hf.lookup_cases hl with hl | ⟨-, _, _, hnew, -⟩
      · exact hself hl
      · exact absurd rfl ((freePid_spec hok hnew).2 hc)
    · obtain ⟨hmem, -, hdead⟩ := waitScan_target htarget
      obtain ⟨hlt, hl⟩ := h.filed.mem_tasks (hscan.order.mem_iff.mp hmem)
      rw [hk]
      refine ⟨hlt, by rwa [← isDead_eq_fate], fun {u} hu => ?_⟩
      exact Option.some.inj (hu.symm.trans hl)

theorem lives_of_mem (h : m.Alive) (ht : t ∈ m.kernel.board.holds k) : m.kernel.Lives t := by
  refine h.lives (Board.near_of_mem ht) ?_
  have hs : (m.kernel.tcb t).status = k.status := h.inv.status ht
  change fate (m.kernel.tcb t).status = none
  rw [hs]
  cases k <;> rfl

theorem lives_of_running (h : m.Alive) (ht : (m.kernel.tcb t).status = .running) :
    m.kernel.Lives t := by
  obtain ⟨c, hc⟩ := h.inv.running ht
  exact h.lives (.inl hc) (fate_of_running ht)

end Machine.Alive

theorem Machine.Initial.alive (h : m.Initial) : m.Alive := by
  have hsafe := h.safe
  obtain ⟨memory, rfl⟩ := h
  refine ⟨hsafe, fun p t ht => ?_, nofun, fun hn => ?_, nofun⟩
  · simp at ht
  · exact absurd (hsafe.inv.created hn) (Nat.not_lt_zero _)

end SimpleKernel.TaskManager
