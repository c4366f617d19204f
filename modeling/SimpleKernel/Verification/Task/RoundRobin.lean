import SimpleKernel.Verification.Task.Interrupts
import SimpleKernel.Verification.Task.Slices

/-! Round-robin scheduling without starvation: a task waits for the time slices of the tasks before
it, unless the core runs a task of its idle slot that has given it up. -/

namespace SimpleKernel.TaskManager

open List
open VirtualMemory (CpuIo Allocator sv39 bump)

variable {N : CoreCount} {A : CpuIo} {al : Allocator A} {tick : ℕ} {m m' : Machine N}
  {a : Action N} {s s₁ : State N} {c i : N.Core} {t u current : TaskPtr} {rest : List TaskPtr}
  {source : N.Core} {slice budget : ℕ}

/-! ## `Schedule` takes the first task of the queue -/

section

variable (s c current)

theorem yielded_inLine : InLine (· = current) s (yielded c current s) :=
  ((InLine.refl _ s).setCpu (fun _ => rfl) prefix_rfl).trans (yieldCurrent_inLine _ c current rfl)

theorem pickNext_yielded_slices :
    Slices (· = current) s (pickNext c (yielded c current s)).2 ∧
      ∀ i, i ≠ c → s.normalQueue i <+: (pickNext c (yielded c current s)).2.normalQueue i := by
  have hyield := yielded_inLine s c current
  generalize yielded c current s = s₂ at hyield ⊢
  refine ⟨hyield.toSlices.trans (pickNext_slices s₂ c _), fun i hi => ?_⟩
  have hother : (pickNext c s₂).2.normalQueue i = s₂.normalQueue i := by
    unfold pickNext State.normalQueue
    split
    · rfl
    · dsimp only
      rw [setCpu_cpuSchedulers_of_ne s₂ c _ hi]
  rw [hother]
  exact hyield.queue i

end

theorem pickNext_normal (hrealTime : (s.cpuSchedulers c).readyQueue .realTime = [])
    (hqueue : s.normalQueue c = u :: rest) :
    ∃ s₁, pickNext c s = (some u, s₁) ∧ s₁.normalQueue c = rest := by
  unfold State.normalQueue CpuSchedData.readyQueue at hqueue
  unfold CpuSchedData.readyQueue at hrealTime
  unfold pickNext
  cases hd : (s.cpuSchedulers c).schedulers with
  | none =>
    rw [hd] at hqueue
    cases hqueue
  | some schedulers =>
    rw [hd] at hqueue hrealTime
    dsimp only [Option.elim_some, Schedulers.readyQueue] at hqueue hrealTime
    dsimp [Schedulers.pickNext, FifoScheduler.pickNext, RoundRobinScheduler.pickNext]
    rw [hrealTime, hqueue]
    refine ⟨_, rfl, ?_⟩
    unfold State.normalQueue
    rw [setCpu_cpuSchedulers_self]
    rfl

section

variable (hinv : s.board.Inv) (hnormal : ∀ t < s.nextTask, (s.tcb t).policy ≠ .realTime)
include hinv hnormal

theorem realTime_empty : (s.cpuSchedulers c).readyQueue .realTime = [] := by
  apply eq_nil_iff_forall_not_mem.mpr
  intro t ht
  have hmem : t ∈ s.board.holds (.ready c .realTime) := Multiset.mem_coe.mpr ht
  exact hnormal t (hinv.created (Board.near_of_mem hmem)) (hinv.policy hmem).2

theorem pickNext_yielded_normal
    (hcur : s.currentTask c = some current) (hqueue : s.normalQueue c = u :: rest) :
    ∃ s₁, pickNext c (yielded c current s) = (some u, s₁) ∧ rest <+: s₁.normalQueue c := by
  have hyield := (yielded_effect hcur).1
  have hrealTime : ((yielded c current s).cpuSchedulers c).readyQueue .realTime = [] := by
    refine realTime_empty (hinv.moves hyield.moves) ?_
    intro t ht
    rw [hyield.frame.nextTask] at ht
    have hpolicy : ((yielded c current s).tcb t).policy = (s.tcb t).policy :=
      hyield.moves.policy_eq ht
    rw [hpolicy]
    exact hnormal t ht
  obtain ⟨added, hadded⟩ := (yielded_inLine s c current).queue c
  rw [hqueue, cons_append] at hadded
  obtain ⟨s₁, hpick, hrest⟩ := pickNext_normal hrealTime hadded.symm
  refine ⟨s₁, hpick, ?_⟩
  rw [hrest]
  exact prefix_append _ _

end

/-! ## `TickUpdate` charges the current task -/

theorem tickUpdate_current (hinv : s.board.Inv) (hcur : s.currentTask c = some u)
    (hrun : (s.tcb u).status = .running) :
    ((tickUpdate c s).2.tcb u).schedInfo.timeSliceRemaining =
        (s.tcb u).schedInfo.timeSliceRemaining - 1 ∧
      (tickUpdate c s).1 = decide ((s.tcb u).schedInfo.timeSliceRemaining - 1 = 0) := by
  rw [tickUpdate_eq]
  have htcb : (s.advanceTick c).tcb = s.tcb := rfl
  have hcur₀ : (s.advanceTick c).currentTask c = some u := hcur
  rw [← board_advanceTick s c] at hinv
  rw [← htcb] at hrun ⊢
  generalize s.advanceTick c = s₀ at hinv hrun hcur₀ ⊢
  have hquiet := wakeSleepers_quiet c (s₀.cpuSchedulers c).sleepingTasks.size s₀
  have hslices : InLine (· ∈ (s₀.cpuSchedulers c).sleepingTasks) s₀
      (wakeSleepers c (s₀.cpuSchedulers c).sleepingTasks.size s₀) :=
    wakeSleepers_inLine s₀ c _ fun _ => id
  generalize wakeSleepers c (s₀.cpuSchedulers c).sleepingTasks.size s₀ = s₂ at hquiet hslices ⊢
  have hremaining := hslices.untouched u (hinv.created (.inl hcur₀)) fun hmem =>
    hinv.free_of_running hrun _ (mem_sleeping.mpr hmem)
  have hrun₂ : (s₂.tcb u).status = .running := hquiet.arrivals.status_running hinv hrun
  have hcur₂ : s₂.currentTask c = some u := (congrFun hquiet.running c).trans hcur₀
  unfold chargeCurrent
  rw [hcur₂]
  dsimp only
  rw [if_pos hrun₂, ← hremaining]
  rw [modify_tcb_self]
  exact ⟨rfl, rfl⟩

/-! ## Steps -/

def Call.isTick : Call → Bool
  | .tickUpdate => true
  | _ => false

/-- A task that the step creates is not of policy `kRealTime`, and a `Balance` moves no task. -/
def Machine.roundRobin (m : Machine N) (a : Action N) : Bool :=
  ((m.newTask a).all fun (_, policy, _) => policy ≠ .realTime) &&
  match m.pc a.core with
  | .balance source _ => normalLoad m.kernel source ≤ normalLoad m.kernel a.core + 1
  | _ => true

theorem balance_eq_self (h : normalLoad s source ≤ normalLoad s c + 1) :
    balance c source s = s := by
  unfold balance
  split
  · rw [if_pos h]
  · rfl

theorem normalLoad_of_roundRobin {needPreempt : Bool} (h : m.roundRobin a)
    (hpc : m.pc a.core = .balance source needPreempt) :
    normalLoad m.kernel source ≤ normalLoad m.kernel a.core + 1 := by
  unfold Machine.roundRobin at h
  rw [hpc, Bool.and_eq_true, decide_eq_true_eq] at h
  exact h.2

theorem stealsSwitched_of_roundRobin (h : m.roundRobin a) : m.stealsSwitched a := by
  unfold Machine.stealsSwitched
  split
  · rename_i source needPreempt hpc
    unfold stolen
    rw [if_pos (normalLoad_of_roundRobin h hpc)]
    rfl
  · rfl

theorem initCurrentCore_inLine (hoff : (s.cpuSchedulers c).schedulers = none)
    (touched : TaskPtr → Prop) : InLine touched s (initCurrentCore c s) := by
  obtain ⟨-, hnext, hold, -⟩ := initCurrentCore_tasks hoff
  refine ⟨⟨?_, ?_, ?_, ?_⟩, ?_⟩
  · rw [hnext]
    exact Nat.le_add_right _ 2
  · intro i hi
    rw [initCurrentCore_eq hoff]
    by_cases hic : i = c
    · subst hic
      simpa using hi
    · simpa [hic] using hi
  · intro t ht
    rw [hold t (.inl ht)]
    exact .refl _
  · intro t ht _
    rw [hold t (.inl ht)]
  · intro i
    unfold State.normalQueue
    by_cases hic : i = c
    · subst hic
      unfold CpuSchedData.readyQueue
      rw [hoff]
      exact nil_prefix
    · rw [initCurrentCore_eq hoff]
      simp [hic]

def Machine.recharges (m : Machine N) (a : Action N) (t : TaskPtr) : Prop :=
  (m.kernel.tcb t).status ≠ .running ∨ a.call.isTick = true ∧ m.kernel.currentTask a.core = some t

theorem status_ne_of_mem {k : Container N} (hinv : s.board.Inv) (ht : t ∈ s.board.holds k) :
    (s.tcb t).status ≠ .running := by
  intro hrun
  exact hinv.free_of_running hrun k ht

theorem Exec.inLine (h : Exec A al tick m a m') (hsafe : m.Safe) (hok : m.roundRobin a)
    (hpc : ∀ k, m.pc a.core ≠ .schedule k) : InLine (m.recharges a) m.kernel m'.kernel := by
  cases h with
  | pass _ _ _ hk | waitReturn _ _ hk | select _ _ hk | switchTo _ hk =>
    rw [hk]
    exact .refl _ _
  | addTask _ _ _ hk =>
    rw [hk]
    exact (addTask_arrives m.kernel A a.core _).inLine _
  | clone _ _ hk =>
    rw [hk]
    exact (clone_arrives m.kernel A al a.core _).inLine _
  | tickUpdate hcall _ hk =>
    rw [hk]
    apply tickUpdate_inLine
    · intro t ht
      exact .inl (status_ne_of_mem hsafe.inv (mem_sleeping.mpr ht))
    · intro t ht
      refine .inr ⟨?_, ht⟩
      rw [hcall]
      rfl
  | sleep _ _ _ hk =>
    rw [hk]
    exact sleep_inLine _ _ _ _ _ _
  | block _ _ _ hk | waitBlock _ _ _ _ hk =>
    rw [hk]
    exact block_inLine _ _ _ _ _
  | reap _ hk =>
    rw [hk]
    exact (reap_aside m.kernel _ A).inLine _
  | @exit t code kernel hkernel _ hk =>
    rw [hk]
    exact Aside.inLine ((polled_of_exit hkernel).aside.trans (exit_aside kernel t code)) _
  | signal _ hr hk =>
    rw [hk]
    exact (checkPendingSignals_polled hr).aside.inLine _
  | sendSignal _ _ hk =>
    rw [hk]
    exact sendSignal_inLine _ _ _ _
  | schedule hsched => exact absurd hsched (hpc _)
  | @wakeup r j _ hj _ hk =>
    rw [hk]
    apply wakeup_inLine
    intro t ht
    have hmem : t ∈ m.kernel.board.holds (.blocked ⟨j, hj⟩ r) := Multiset.mem_coe.mpr ht
    exact .inl (status_ne_of_mem hsafe.inv hmem)
  | @wakeupOne r j hj _ hk =>
    rw [hk]
    apply wakeupOne_inLine
    intro t ht
    have hmem : t ∈ m.kernel.board.holds (.blocked ⟨j, hj⟩ r) := Multiset.mem_coe.mpr ht
    exact .inl (status_ne_of_mem hsafe.inv hmem)
  | balance hbalance hk =>
    rw [hk, balance_eq_self (normalLoad_of_roundRobin hok hbalance)]
    exact .refl _ _
  | init _ hoff hk =>
    have hnone := hsafe.schedulers_eq_none hoff
    rw [hk]
    exact initCurrentCore_inLine hnone _

theorem kernel_of_off (hpc : m.pc a.core = .off) (hs : next A al tick m a = some m') :
    m'.kernel = initCurrentCore a.core m.kernel := by
  cases hcall : a.call with
  | initCurrentCore =>
    simp only [next, hcall, hpc, if_true] at hs
    cases hs
    rfl
  | step order =>
    simp only [next, hcall, hpc, pcStep] at hs
    cases hs
  | _ => simp [next, hcall, hpc] at hs

/-- `Schedule` makes a running task of the one that it has chosen, with its whole time slice. -/
structure Dispatches (m : Machine N) (a : Action N) (m' : Machine N) (next : TaskPtr) : Prop where
  current : m'.kernel.currentTask a.core = some next
  running : (m'.kernel.tcb next).status = .running
  timeSlice : (m'.kernel.tcb next).schedInfo.timeSliceRemaining =
    (m'.kernel.tcb next).schedInfo.timeSliceDefault
  slices : Slices (fun u => m.kernel.currentTask a.core = some u ∨ u = next) m.kernel m'.kernel
  others : ∀ i, i ≠ a.core → m.kernel.normalQueue i <+: m'.kernel.normalQueue i

theorem Machine.Steady.dispatches (h : m.Steady) {k : Resume} (hpc : m.pc a.core = .schedule k)
    (hs : next A al tick m a = some m') : ∃ current next s₁,
      m.kernel.currentTask a.core = some current ∧
      pickNext a.core (yielded a.core current m.kernel) = (some next, s₁) ∧
      m'.kernel = dispatch a.core next s₁ ∧ Dispatches m a m' next := by
  obtain ⟨current, hcur⟩ := h.current hpc
  obtain ⟨next, s₁, hpick, hdispatch, hready, -, -⟩ := chosen_spec h.inv h.idle hcur
  have hk : m'.kernel = dispatch a.core next s₁ := (next_schedule hpc hs).trans hdispatch
  obtain ⟨hslices, hothers⟩ := pickNext_yielded_slices m.kernel a.core current
  rw [hpick] at hslices hothers
  obtain ⟨hrunning, hcurrent⟩ := dispatch_running (c := a.core) hready
  refine ⟨current, next, s₁, hcur, hpick, hk, ?_⟩
  rw [← hk] at hrunning hcurrent
  refine ⟨hcurrent, hrunning, ?_, ?_, ?_⟩
  · rw [hk]
    unfold dispatch
    simp [TaskControlBlock.resetTimeSlice]
  · rw [hk]
    have hbefore : Slices (fun u => m.kernel.currentTask a.core = some u ∨ u = next) m.kernel s₁ :=
      hslices.mono fun u _ hu => .inl (hu ▸ hcur)
    exact hbefore.trans (dispatch_slices s₁ a.core next (.inr rfl))
  · intro i hi
    rw [hk, dispatch_normalQueue]
    exact hothers i hi

/-! ## Runs without real-time tasks -/

/-- No task is of policy `kRealTime`, and the running tasks have at most a whole time slice left. -/
structure Machine.Rotating (m : Machine N) : Prop extends m.Steady where
  normal : ∀ t < m.kernel.nextTask, (m.kernel.tcb t).policy ≠ .realTime
  sliced : ∀ {c t}, m.kernel.currentTask c = some t →
    (m.kernel.tcb t).schedInfo.timeSliceRemaining ≤ (m.kernel.tcb t).schedInfo.timeSliceDefault

namespace Machine.Rotating

section

variable (h : m.Rotating) (hok : m.roundRobin a)
include h hok

theorem normal_step (hs : next A al tick m a = some m') (t : TaskPtr)
    (ht : t < m'.kernel.nextTask) : m'.kernel.board.policy t ≠ .realTime := by
  rcases Nat.lt_or_ge t m.kernel.nextTask with hold | hle
  · rw [(next_step h.toSafe hs).policy_eq h.toSafe hold]
    exact h.normal t hold
  rcases ((next_exec hs).files h.toSafe).new_cases hle ht with ⟨rfl, _, _, _, hnew, he⟩ | hb
  · unfold Machine.roundRobin at hok
    rw [hnew, Option.all_some, Bool.and_eq_true, decide_eq_true_eq] at hok
    rw [he.policy]
    exact hok.1
  · have hidle : m'.kernel.board.policy t = .idle := (hb.fresh t ht hle).2
    rw [hidle]
    nofun

theorem sliced_step (hs : next A al tick m a = some m') (ht : m'.kernel.currentTask c = some t) :
    (m'.kernel.tcb t).schedInfo.timeSliceRemaining ≤
      (m'.kernel.tcb t).schedInfo.timeSliceDefault := by
  have hstep := next_step h.toSafe hs
  have hkept : m'.kernel.currentTask c = m.kernel.currentTask c →
      (∀ u < m.kernel.nextTask, Recharged (m.kernel.tcb u).schedInfo (m'.kernel.tcb u).schedInfo) →
      (m'.kernel.tcb t).schedInfo.timeSliceRemaining ≤
        (m'.kernel.tcb t).schedInfo.timeSliceDefault := by
    intro hcur hrecharged
    rw [hcur] at ht
    exact (hrecharged t (h.inv.created (.inl ht))).bounded (h.sliced ht)
  by_cases hsched : ∃ k, m.pc a.core = .schedule k
  · obtain ⟨k, hpc⟩ := hsched
    obtain ⟨-, next, s₁, -, -, -, hd⟩ := h.toSteady.dispatches hpc hs
    by_cases hcore : c = a.core
    · subst hcore
      cases hd.current.symm.trans ht
      exact hd.timeSlice.le
    · refine hkept (hstep.currentTask_eq h.toSafe ?_) hd.slices.recharged
      exact fun heq => absurd heq hcore
  have hinLine := (next_exec hs).inLine h.toSafe hok fun k hk => hsched ⟨k, hk⟩
  by_cases hoff : c = a.core ∧ m.pc c = .off
  · obtain ⟨rfl, hoff⟩ := hoff
    have hnone := h.schedulers_eq_none hoff
    rw [kernel_of_off hoff hs, initCurrentCore_eq hnone] at ht ⊢
    have hboot : t = m.kernel.nextTask := by
      simpa [State.currentTask, eq_comm] using ht
    simp [hboot]
  refine hkept (hstep.currentTask_eq h.toSafe ?_) hinLine.recharged
  intro hcore
  subst hcore
  exact ⟨fun k hk => hsched ⟨k, hk⟩, fun hpc => hoff ⟨rfl, hpc⟩⟩

theorem step (hslot : m.leavesSlot a) (hs : next A al tick m a = some m') : m'.Rotating := by
  refine ⟨h.toSteady.step (stealsSwitched_of_roundRobin hok) hslot hs, ?_, ?_⟩
  · exact h.normal_step hok hs
  · exact fun ht => h.sliced_step hok hs ht

end

end Machine.Rotating

theorem Machine.Initial.rotating (h : m.Initial) : m.Rotating := by
  refine ⟨h.steady, ?_, ?_⟩
  · obtain ⟨memory, rfl⟩ := h
    exact fun t ht => absurd ht (Nat.not_lt_zero t)
  · obtain ⟨memory, rfl⟩ := h
    intro c t ht
    cases ht

/-! ## The budget of a waiting task -/

def Pc.isCommitted : Pc N → Bool
  | .schedule _ | .wakeup _ _ true => true
  | .tickTail needPreempt | .balanceScan _ _ _ _ needPreempt | .balance _ needPreempt
  | .preempt needPreempt => needPreempt
  | _ => false

theorem Pc.isSettled_of_isCommitted {p : Pc N} (h : p.isCommitted = false) : p.isSettled = true := by
  cases p with
  | schedule k => cases h
  | wakeup r i exiting =>
    cases exiting with
    | true => cases h
    | false => rfl
  | _ => rfl

theorem isCommitted_step (hpc : (m.pc a.core).isCommitted)
    (hstarted : (m.kernel.cpuSchedulers a.core).schedulerStarted = true)
    (hsched : ∀ k, m.pc a.core ≠ .schedule k) (hs : next A al tick m a = some m') :
    (m'.pc a.core).isCommitted := by
  have hgoto : ∀ {m₁ : Machine N} {p : Pc N}, p.isCommitted →
      ((m₁.goto a.core p).pc a.core).isCommitted := by
    intro m₁ p hp
    unfold Machine.goto
    dsimp only
    rw [Function.update_self]
    exact hp
  obtain ⟨order, hs⟩ := next_pcStep hs rfl (fun hoff => by rw [hoff] at hpc; cases hpc)
    fun htask => by rw [htask] at hpc; cases hpc
  cases hp : m.pc a.core with
  | schedule k => exact absurd hp (hsched k)
  | wakeup r i exiting =>
    rw [hp] at hpc hs
    cases exiting with
    | false => cases hpc
    | true =>
      simp only [pcStep] at hs
      split at hs
      all_goals
        cases hs
        exact hgoto rfl
  | tickTail needPreempt =>
    rw [hp] at hpc hs
    simp only [pcStep] at hs
    split at hs
    all_goals
      cases hs
      exact hgoto hpc
  | balanceScan i currentLoad maxLoad maxCore needPreempt =>
    rw [hp] at hpc hs
    simp only [pcStep, Option.some.injEq] at hs
    subst hs
    unfold balanceScanStep
    split
    · dsimp only
      split
      all_goals exact hgoto hpc
    · split
      all_goals exact hgoto hpc
  | balance source needPreempt =>
    rw [hp] at hpc hs
    cases hs
    exact hgoto hpc
  | preempt needPreempt =>
    rw [hp] at hpc hs
    cases hs
    have hpreempt : needPreempt = true := hpc
    rw [if_pos ⟨hpreempt, hstarted⟩]
    exact hgoto rfl
  | _ =>
    rw [hp] at hpc
    cases hpc

def Machine.due (m : Machine N) (c : N.Core) (slice : ℕ) : ℕ :=
  if (m.pc c).isCommitted then 0
  else min slice (max 1 ((m.kernel.currentTask c).elim 0 fun t =>
    (m.kernel.tcb t).schedInfo.timeSliceRemaining))

/-- The task is in the queue of the core, and runs after `budget` ticks at the latest. -/
structure Machine.Waits (m : Machine N) (c : N.Core) (t : TaskPtr) (slice budget : ℕ) : Prop where
  started : (m.kernel.cpuSchedulers c).schedulerStarted = true
  place : ∃ k, (m.kernel.normalQueue c)[k]? = some t ∧ k * slice + m.due c slice ≤ budget

/-- The time slice of the task that the core runs is not longer than `slice`. -/
def Machine.slicesWithin (m : Machine N) (c : N.Core) (slice : ℕ) : Bool :=
  (m.kernel.currentTask c).all fun t => max 1 (m.kernel.tcb t).schedInfo.timeSliceDefault ≤ slice

def Machine.Runs (m : Machine N) (c : N.Core) (t : TaskPtr) : Prop :=
  m.kernel.currentTask c = some t ∧ (m.kernel.tcb t).status = .running

def Action.ticks (c : N.Core) (a : Action N) : Bool := a.core = c && a.call.isTick

namespace Machine.Waits

variable {slice budget : ℕ}

theorem due_le (m : Machine N) (c : N.Core) (slice : ℕ) : m.due c slice ≤ slice := by
  unfold Machine.due
  split
  · exact Nat.zero_le _
  · exact min_le_left _ _

theorem schedule (h : m.Waits c t slice budget) (hm : m.Rotating) {k : Resume} (hcore : a.core = c)
    (hpc : m.pc c = .schedule k) (hs : next A al tick m a = some m') :
    m'.Runs c t ∨ m'.Waits c t slice budget := by
  subst hcore
  obtain ⟨current, next, s₁, hcur, hpick, hk, hd⟩ := hm.toSteady.dispatches hpc hs
  obtain ⟨i, hi, hle⟩ := h.place
  cases hqueue : m.kernel.normalQueue a.core with
  | nil =>
    rw [hqueue] at hi
    cases hi
  | cons u rest =>
    obtain ⟨s₂, hfirst, hrest⟩ := pickNext_yielded_normal hm.inv hm.normal hcur hqueue
    rw [hpick] at hfirst
    obtain ⟨⟨⟩, rfl⟩ := Prod.mk.inj hfirst
    rw [hqueue] at hi
    cases i with
    | zero =>
      obtain rfl : next = t := Option.some.inj hi
      exact .inl ⟨hd.current, hd.running⟩
    | succ i =>
      refine .inr ⟨hd.slices.started _ h.started, i, ?_, ?_⟩
      · rw [hk, dispatch_normalQueue]
        obtain ⟨added, hadded⟩ := hrest
        have hi : rest[i]? = some t := hi
        rw [← hadded, getElem?_append_left (List.getElem?_eq_some_iff.mp hi).1]
        exact hi
      · have hdue := due_le m' a.core slice
        rw [Nat.succ_mul] at hle
        omega

theorem of_prefix (h : m.Waits c t slice budget) {budget' : ℕ}
    (hstarted : (m'.kernel.cpuSchedulers c).schedulerStarted = true)
    (hqueue : m.kernel.normalQueue c <+: m'.kernel.normalQueue c)
    (hdue : m'.due c slice + budget ≤ m.due c slice + budget') : m'.Waits c t slice budget' := by
  obtain ⟨i, hi, hle⟩ := h.place
  refine ⟨hstarted, i, ?_, by omega⟩
  obtain ⟨added, hadded⟩ := hqueue
  rw [← hadded, getElem?_append_left (List.getElem?_eq_some_iff.mp hi).1]
  exact hi

end Machine.Waits

theorem pc_of_isTick (htick : a.call.isTick = true) (hs : next A al tick m a = some m') :
    a.call = .tickUpdate ∧ m.pc a.core = .task := by
  cases hcall : a.call with
  | tickUpdate =>
    refine ⟨rfl, ?_⟩
    simp only [next, hcall] at hs
    split at hs
    · assumption
    · cases hs
  | _ =>
    rw [hcall] at htick
    cases htick

theorem remaining_eq (hm : m.Rotating) (hm' : m'.Steady) (hok : m.roundRobin a)
    (hset : (m.pc c).isSettled) (hcur : m.kernel.currentTask c = some u)
    (hcur' : m'.kernel.currentTask c = some u) (htick : a.ticks c = false)
    (hs : next A al tick m a = some m') :
    (m'.kernel.tcb u).schedInfo.timeSliceRemaining =
      (m.kernel.tcb u).schedInfo.timeSliceRemaining := by
  have hlt : u < m.kernel.nextTask := hm.inv.created (.inl hcur)
  have hrun : (m.kernel.tcb u).status = .running := hm.runs hset hcur
  by_cases hsched : ∃ k, m.pc a.core = .schedule k
  · obtain ⟨k, hpc⟩ := hsched
    have hcore : c ≠ a.core := by
      rintro rfl
      rw [hpc] at hset
      cases hset
    obtain ⟨-, next, s₁, -, -, -, hd⟩ := hm.toSteady.dispatches hpc hs
    apply hd.slices.untouched u hlt
    rintro (hother | rfl)
    · exact hcore (hm.homed.one (.inl (.inl hcur)) (.inl (.inl hother)))
    · exact hcore (hm'.homed.one (.inl (.inl hcur')) (.inl (.inl hd.current)))
  have hinLine := (next_exec hs).inLine hm.toSafe hok fun k hk => hsched ⟨k, hk⟩
  apply hinLine.untouched u hlt
  rintro (hstatus | ⟨hcall, hother⟩)
  · exact hstatus hrun
  · obtain rfl : c = a.core := hm.homed.one (.inl (.inl hcur)) (.inl (.inl hother))
    unfold Action.ticks at htick
    rw [hcall, decide_eq_true rfl] at htick
    cases htick

theorem due_tick (hm : m.Rotating) (hslice : m.slicesWithin a.core slice)
    (hcur : m.kernel.currentTask a.core = some u) (hpc : m.pc a.core = .task)
    (hcall : a.call = .tickUpdate) (hs : next A al tick m a = some m') :
    m'.due a.core slice + 1 ≤ m.due a.core slice := by
  have hrun : (m.kernel.tcb u).status = .running := hm.runs (by rw [hpc]; rfl) hcur
  obtain ⟨hremaining, hpreempt⟩ := tickUpdate_current hm.inv hcur hrun
  have hsliced := hm.sliced hcur
  unfold Machine.slicesWithin at hslice
  rw [hcur, Option.all_some, decide_eq_true_eq] at hslice
  obtain ⟨hk', hpc'⟩ : m'.kernel = (tickUpdate a.core m.kernel).2 ∧
      m'.pc a.core = .tickTail (tickUpdate a.core m.kernel).1 := by
    simp only [next, hcall, hpc, if_true, callStep, Option.some.injEq] at hs
    rw [← hs]
    exact ⟨rfl, Function.update_self ..⟩
  have hcur' : (tickUpdate a.core m.kernel).2.currentTask a.core = some u :=
    (congrFun (tickUpdate_quiet a.core m.kernel).running a.core).trans hcur
  have hdue : m.due a.core slice = min slice (max 1 (m.kernel.tcb u).schedInfo.timeSliceRemaining) := by
    unfold Machine.due
    rw [hpc, hcur]
    rfl
  have hdue' : m'.due a.core slice = if (m.kernel.tcb u).schedInfo.timeSliceRemaining - 1 = 0 then 0
      else min slice (max 1 ((m.kernel.tcb u).schedInfo.timeSliceRemaining - 1)) := by
    unfold Machine.due
    rw [hpc', hk', hcur', Option.elim_some, hremaining, hpreempt]
    dsimp [Pc.isCommitted]
    simp
  rw [hdue, hdue']
  split
  · omega
  · omega

theorem Machine.Waits.step (h : m.Waits c t slice budget) (hm : m.Rotating)
    (hok : m.roundRobin a) (hslot : m.leavesSlot a) (hslice : m.slicesWithin c slice)
    (hs : next A al tick m a = some m') :
    m'.Runs c t ∨ ∃ rest, rest + (if a.ticks c then 1 else 0) = budget ∧ m'.Waits c t slice rest := by
  have hm' := hm.step hok hslot hs
  have hstep := next_step hm.toSafe hs
  have hexec := next_exec hs
  obtain ⟨i, hi, hle⟩ := h.place
  have hmem : t ∈ m.kernel.board.holds (.ready c .normal) :=
    Multiset.mem_coe.mpr (mem_of_getElem? hi)
  have honline := hm.inv.online (Board.near_of_mem hmem)
  have hoff : m.pc c ≠ .off := fun hoff => (hm.off c).mp hoff honline
  by_cases hsched : a.core = c ∧ ∃ k, m.pc c = .schedule k
  · obtain ⟨hcore, k, hpc⟩ := hsched
    refine (h.schedule hm hcore hpc hs).imp_right fun hw => ⟨budget, ?_, hw⟩
    have hno : a.ticks c = false := by
      unfold Action.ticks
      cases htick : a.call.isTick with
      | false => exact Bool.and_false _
      | true =>
        have htask := (pc_of_isTick htick hs).2
        rw [hcore, hpc] at htask
        cases htask
    rw [hno]
    rfl
  have hpc : c = a.core → (∀ k, m.pc c ≠ .schedule k) ∧ m.pc c ≠ .off :=
    fun hcore => ⟨fun k hk => hsched ⟨hcore.symm, k, hk⟩, hoff⟩
  have hqueue : m.kernel.normalQueue c <+: m'.kernel.normalQueue c ∧
      (m'.kernel.cpuSchedulers c).schedulerStarted = true := by
    by_cases hother : ∃ k, m.pc a.core = .schedule k
    · obtain ⟨k, hk⟩ := hother
      obtain ⟨-, next, s₁, -, -, -, hd⟩ := hm.toSteady.dispatches hk hs
      refine ⟨hd.others c ?_, hd.slices.started c h.started⟩
      rintro rfl
      exact (hpc rfl).1 k hk
    · have hinLine := hexec.inLine hm.toSafe hok fun k hk => hother ⟨k, hk⟩
      exact ⟨hinLine.queue c, hinLine.started c h.started⟩
  obtain ⟨u, hcur⟩ := Option.isSome_iff_exists.mp (hm.inv.staffed honline).2
  have hcur : m.kernel.currentTask c = some u := hcur
  have hcur' := (hstep.currentTask_eq hm.toSafe hpc).trans hcur
  by_cases htick : a.ticks c = true
  · obtain ⟨hcore, hcall⟩ := Bool.and_eq_true_iff.mp htick
    obtain rfl : a.core = c := of_decide_eq_true hcore
    obtain ⟨hcall, htask⟩ := pc_of_isTick hcall hs
    have hdue := due_tick hm hslice hcur htask hcall hs
    refine .inr ⟨budget - 1, ?_, h.of_prefix hqueue.2 hqueue.1 ?_⟩
    · rw [if_pos htick]
      omega
    · omega
  rw [Bool.not_eq_true] at htick
  refine .inr ⟨budget, ?_, h.of_prefix hqueue.2 hqueue.1 (Nat.add_le_add_right ?_ _)⟩
  · rw [htick]
    rfl
  · cases hcommitted : (m.pc c).isCommitted with
    | true =>
      have hcommitted' : (m'.pc c).isCommitted = true := by
        by_cases hcore : c = a.core
        · subst hcore
          exact isCommitted_step hcommitted h.started (hpc rfl).1 hs
        · rw [hexec.pc_of_ne hcore]
          exact hcommitted
      unfold Machine.due
      rw [hcommitted', if_pos rfl]
      exact Nat.zero_le _
    | false =>
      have hremaining := remaining_eq hm hm'.toSteady hok
        (Pc.isSettled_of_isCommitted hcommitted) hcur hcur' htick hs
      unfold Machine.due
      rw [hcommitted, hcur, hcur', Option.elim_some, Option.elim_some, hremaining]
      split
      · exact Nat.zero_le _
      · exact le_rfl

/-! ## Runs -/

/-- At some time in the run the task becomes the running task of the core. -/
def Machine.GetsCore (A : CpuIo) (al : Allocator A) (tick : ℕ) (ok : Machine N → Action N → Bool)
    (m : Machine N) (acts : List (Action N)) (c : N.Core) (t : TaskPtr) : Prop :=
  ∃ done m', done <+: acts ∧ (system A al tick).run (fun m a => ok m a) m done = some m' ∧ m'.Runs c t

theorem Machine.Waits.run (acts : List (Action N)) {ok : Machine N → Action N → Bool}
    (hok : ∀ m a, ok m a → m.roundRobin a ∧ m.leavesSlot a ∧ m.slicesWithin c slice)
    (h : m.Waits c t slice budget) (hm : m.Rotating)
    (hrun : (system A al tick).run (fun m a => ok m a) m acts = some m') :
    m.GetsCore A al tick ok acts c t ∨
      ∃ rest, rest + acts.countP (Action.ticks c) = budget ∧ m'.Waits c t slice rest := by
  induction acts generalizing m budget with
  | nil =>
    simp only [Transition.run, Option.some.injEq] at hrun
    subst hrun
    exact .inr ⟨budget, rfl, h⟩
  | cons a acts ih =>
    obtain ⟨ha, hrun⟩ := Option.ite_none_right_eq_some.mp hrun
    obtain ⟨m₁, hs, hrest⟩ := Option.bind_eq_some_iff.mp hrun
    obtain ⟨hrr, hslot, hslice⟩ := hok m a ha
    have hcons : ∀ done, (system A al tick).run (fun m a => ok m a) m (a :: done) =
        (system A al tick).run (fun m a => ok m a) m₁ done := by
      intro done
      rw [Transition.run, if_pos ha, hs, Option.bind_some]
    obtain hruns | ⟨rest, hbudget, hwaits⟩ := h.step hm hrr hslot hslice hs
    · refine .inl ⟨[a], m₁, prefix_append [a] acts, ?_, hruns⟩
      rw [hcons, Transition.run]
    obtain ⟨done, m₂, hdone, hrun₂, hruns⟩ | ⟨last, hlast, hwaits'⟩ :=
      ih hwaits (hm.step hrr hslot hs) hrest
    · exact .inl ⟨a :: done, m₂, cons_prefix_cons.mpr ⟨rfl, hdone⟩, (hcons done).trans hrun₂, hruns⟩
    refine .inr ⟨last, ?_, hwaits'⟩
    rw [countP_cons]
    omega

/-- In a run without real-time tasks, in which `Balance` moves no task and the task in a core's idle
slot does not give up the core, a task at position `k` of the queue of a core gets the core after at
most `(k + 1) * slice` ticks of it, where no time slice of a task that the core runs is longer than
`slice`. The last `TickUpdate` of the run is over, with the `Schedule` that it asks for. For the
source this supposes that no control block reuses an address and that `AddTask` gets no pid of the
table. -/
theorem roundRobin_bounded_waiting (A : CpuIo) (al : Allocator A) (tick : ℕ) {m m' : Machine N}
    {c : N.Core} {t : TaskPtr} {k slice : ℕ} {acts : List (Action N)}
    (h : (system A al tick).ReachableBy (fun m a => m.roundRobin a && m.leavesSlot a) m)
    (hstarted : (m.kernel.cpuSchedulers c).schedulerStarted = true)
    (hk : (m.kernel.normalQueue c)[k]? = some t) (hslice : 0 < slice)
    (hrun : (system A al tick).run
      (fun m a => m.roundRobin a && m.leavesSlot a && m.slicesWithin c slice) m acts = some m')
    (hticks : (k + 1) * slice ≤ acts.countP (Action.ticks c))
    (hover : (m'.pc c).isCommitted = false) :
    m.GetsCore A al tick (fun m a => m.roundRobin a && m.leavesSlot a && m.slicesWithin c slice)
      acts c t := by
  have hm : m.Rotating := by
    refine h.invariant (P := Machine.Rotating) (fun _ hm => Machine.Initial.rotating hm) ?_
    intro m a m' hm hok hs
    obtain ⟨hrr, hslot⟩ := Bool.and_eq_true_iff.mp hok
    exact hm.step hrr hslot hs
  have hwaits : m.Waits c t slice ((k + 1) * slice) := by
    refine ⟨hstarted, k, hk, ?_⟩
    rw [Nat.succ_mul]
    exact Nat.add_le_add_left (Machine.Waits.due_le m c slice) _
  have hok : ∀ (m : Machine N) (a : Action N),
      (m.roundRobin a && m.leavesSlot a && m.slicesWithin c slice) = true →
        m.roundRobin a ∧ m.leavesSlot a ∧ m.slicesWithin c slice := by
    intro m a ha
    simpa only [Bool.and_eq_true, and_assoc] using ha
  obtain hruns | ⟨rest, hrest, hwaits'⟩ := hwaits.run acts hok hm hrun
  · exact hruns
  obtain ⟨i, -, hle⟩ := hwaits'.place
  have hdue : 0 < m'.due c slice := by
    unfold Machine.due
    rw [hover]
    exact lt_min hslice (Nat.lt_of_lt_of_le Nat.one_pos (le_max_left _ _))
  omega

/-! ### Two cores -/

/-- Ten ticks of core 0, each with the rest of `TickUpdate`. -/
def tenTicks : List (Action dualCore) :=
  (replicate 10 [⟨cpu0, .tickUpdate⟩, goOn cpu0, goOn cpu0]).flatten

/-- Core 0 runs its idle task when task 4 arrives. -/
theorem roundRobin_bounded_waiting_arrival : ∃ m m' : Machine dualCore,
    (system sv39 (bump 5) 1000).ReachableBy (fun m a => m.roundRobin a && m.leavesSlot a) m ∧
      (m.kernel.normalQueue cpu0)[0]? = some 4 ∧
      (system sv39 (bump 5) 1000).run
        (fun m a => m.roundRobin a && m.leavesSlot a && m.slicesWithin cpu0 10) m
        (tenTicks ++ [goOn cpu0]) = some m' ∧
      m.GetsCore sv39 (bump 5) 1000
        (fun m a => m.roundRobin a && m.leavesSlot a && m.slicesWithin cpu0 10)
        (tenTicks ++ [goOn cpu0]) cpu0 4 := by
  obtain ⟨m, hm, hstarted, hqueue, m', hrun, hover⟩ := dualCore_reaches
    (fun m a => m.roundRobin a && m.leavesSlot a)
    (bootBoth ++ [⟨cpu0, .schedule⟩, goOn cpu0, goOn cpu0, ⟨cpu0, .addTask {}⟩])
    (fun m => (m.kernel.cpuSchedulers cpu0).schedulerStarted ∧
      (m.kernel.normalQueue cpu0)[0]? = some 4 ∧
      ∃ m' ∈ (system sv39 (bump 5) 1000).run
        (fun m a => m.roundRobin a && m.leavesSlot a && m.slicesWithin cpu0 10) m
        (tenTicks ++ [goOn cpu0]), (m'.pc cpu0).isCommitted = false) (by decide +kernel)
  refine ⟨m, m', hm, hqueue, hrun, ?_⟩
  exact roundRobin_bounded_waiting sv39 (bump 5) 1000 hm hstarted hqueue (by decide) hrun
    (by decide) hover

/-- The operations that a waiting task may meet. -/
def Call.isRotating : Call → Bool
  | .initCurrentCore | .addTask _ | .schedule | .tickUpdate | .sleep _ | .block _ | .wakeup _
  | .step _ => true
  | _ => false

/-- A task of policy `kIdle` runs on core 0 and blocks. It is resumed from the slot of the idle
scheduler, blocked as it is, and no tick is charged to it: task 5 waits. -/
theorem blocked_idle_task_keeps_core : ¬ ∀ (m m' : Machine dualCore) (c : dualCore.Core)
    (t : TaskPtr) (k slice : ℕ) (acts : List (Action dualCore)),
    (system sv39 (bump 5) 1000).ReachableBy (fun m a => m.roundRobin a && a.call.isRotating) m →
      (m.kernel.cpuSchedulers c).schedulerStarted = true →
      (m.kernel.normalQueue c)[k]? = some t → 0 < slice →
      (system sv39 (bump 5) 1000).run
        (fun m a => m.roundRobin a && a.call.isRotating && m.slicesWithin c slice) m acts = some m' →
      (k + 1) * slice ≤ acts.countP (Action.ticks c) → (m'.pc c).isCommitted = false →
      m.GetsCore sv39 (bump 5) 1000
        (fun m a => m.roundRobin a && a.call.isRotating && m.slicesWithin c slice) acts c t := by
  intro hall
  obtain ⟨m, hm, hstarted, hqueue, ⟨m', hrun, hover⟩, hnever⟩ := dualCore_reaches
    (fun m a => m.roundRobin a && a.call.isRotating)
    (bootBoth ++ [⟨cpu0, .addTask { policy := .idle }⟩, ⟨cpu0, .schedule⟩, goOn cpu0, goOn cpu0,
      ⟨cpu0, .block (.of .mutex 7)⟩, goOn cpu0, ⟨cpu0, .addTask {}⟩])
    (fun m => (m.kernel.cpuSchedulers cpu0).schedulerStarted ∧
      (m.kernel.normalQueue cpu0)[0]? = some 5 ∧
      (∃ m' ∈ (system sv39 (bump 5) 1000).run
        (fun m a => m.roundRobin a && a.call.isRotating && m.slicesWithin cpu0 10) m tenTicks,
          (m'.pc cpu0).isCommitted = false) ∧
      ∀ done ∈ tenTicks.inits, ∀ m' ∈ (system sv39 (bump 5) 1000).run
        (fun m a => m.roundRobin a && a.call.isRotating && m.slicesWithin cpu0 10) m done,
          m'.kernel.currentTask cpu0 ≠ some 5) (by decide +kernel)
  obtain ⟨done, m₁, hdone, hrun₁, hcur, -⟩ := hall m m' cpu0 5 0 10 tenTicks hm hstarted hqueue
    (by decide) hrun (by decide) hover
  exact hnever done ((mem_inits done tenTicks).mpr hdone) m₁ hrun₁ hcur

end SimpleKernel.TaskManager
