import SimpleKernel.Model.Task.Machine

/-! The steps of the machine by the critical section that they execute, each with the function
of the task manager that it is. -/

namespace SimpleKernel.TaskManager

open Function
open VirtualMemory (CpuIo Allocator)

variable {N : CoreCount} {A : CpuIo} {al : Allocator A} {tick : ℕ} {m m' : Machine N}
  {a : Action N} {p : Pc N} {order : List TaskPtr}

def Pc.isIdle : Pc N → Bool
  | .task | .wakeupOne .. | .tickTail _ | .balanceScan .. | .preempt _ => true
  | .wakeup _ i _ => N.val ≤ i
  | _ => false

def Pc.isEntry : Pc N → Bool
  | .off | .switchTo .. | .reap _ | .schedule (.wait _) => false
  | _ => true

/-- The core is at `p` after the step; nothing else is changed outside the kernel, but for
results. -/
structure Goes (m : Machine N) (a : Action N) (m' : Machine N) (p : Pc N) : Prop where
  pc : m'.pc = update m.pc a.core p
  executing : m'.executing = m.executing
  context : m'.context = m.context

def ChecksSignals (m : Machine N) (a : Action N) : Prop :=
  (a.call = .checkPendingSignals ∧ m.pc a.core = .task) ∨ m.pc a.core = .checkPendingSignals

/-- A scan of `Wait`, by the task `t`. -/
structure Scans (m : Machine N) (a : Action N) (args : WaitArgs) (t : TaskPtr)
    (order : List TaskPtr) : Prop where
  call : a.call = .step order
  pc : m.pc a.core = .wait args
  current : m.kernel.currentTask a.core = some t
  order : order.Perm m.kernel.tasks

inductive Exec (A : CpuIo) (al : Allocator A) (tick : ℕ) (m : Machine N) (a : Action N)
    (m' : Machine N) : Prop where
  | pass {p : Pc N} : (m.pc a.core).isIdle → p.isEntry → Goes m a m' p → m'.kernel = m.kernel →
      m'.result = m.result → Exec A al tick m a m'
  | addTask {task} : a.call = .addTask task → m.pc a.core = .task → task.status = .unInit →
      m'.kernel = addTask A a.core m.kernel.nextTask (m.kernel.create task) → Goes m a m' .task →
      m'.result = m.result → Exec A al tick m a m'
  | clone {flags} : a.call = .clone flags → m.pc a.core = .task →
      m'.kernel = (clone A al a.core flags m.kernel).2 → Goes m a m' .task →
      m'.result = update m.result a.core (some (.clone (clone A al a.core flags m.kernel).1)) →
      Exec A al tick m a m'
  | tickUpdate : a.call = .tickUpdate → m.pc a.core = .task →
      m'.kernel = (tickUpdate a.core m.kernel).2 →
      Goes m a m' (.tickTail (tickUpdate a.core m.kernel).1) → m'.result = m.result →
      Exec A al tick m a m'
  | sleep {t ms} : a.call = .sleep ms → m.pc a.core = .task → m.runningCurrent a.core = some t →
      m'.kernel = (sleep tick a.core t ms m.kernel).2 →
      Goes m a m' (if (sleep tick a.core t ms m.kernel).1 then .schedule .sleep else .task) →
      m'.result = m.result → Exec A al tick m a m'
  | block {t r} : a.call = .block r → m.pc a.core = .task → m.runningCurrent a.core = some t →
      m'.kernel = block a.core t r m.kernel → Goes m a m' (.schedule .task) →
      m'.result = m.result → Exec A al tick m a m'
  | waitBlock {t args order} : Scans m a args t order → m.runningCurrent a.core = some t →
      waitScan m.kernel (m.kernel.tcb t) args order false = .noneYet → args.noHang = false →
      m'.kernel = block a.core t (.of .childExit (m.kernel.tcb t).pid) m.kernel →
      Goes m a m' (.schedule (.wait args)) → m'.result = m.result → Exec A al tick m a m'
  | waitReturn {t args order r} : Scans m a args t order →
      ((∃ u, waitScan m.kernel (m.kernel.tcb t) args order false = .stopped u ∧
          r = .wait (.ok (m.kernel.tcb u).pid) (some 0)) ∨
        (waitScan m.kernel (m.kernel.tcb t) args order false = .noChild ∧
          r = .wait (.error .taskNoChildFound) none) ∨
        (waitScan m.kernel (m.kernel.tcb t) args order false = .noneYet ∧ args.noHang = true ∧
          r = .wait (.ok 0) none)) →
      m'.kernel = m.kernel → Goes m a m' .task →
      m'.result = update m.result a.core (some r) → Exec A al tick m a m'
  | select {t u args order} : Scans m a args t order →
      waitScan m.kernel (m.kernel.tcb t) args order false = .target u → m'.kernel = m.kernel →
      Goes m a m' (.reap u) → m'.result = m.result → Exec A al tick m a m'
  | reap {t} : m.pc a.core = .reap t → m'.kernel = reap A t m.kernel → Goes m a m' .task →
      m'.result = update m.result a.core
        (some (.wait (.ok (m.kernel.tcb t).pid) (some (m.kernel.tcb t).aux.exitCode))) →
      Exec A al tick m a m'
  | exit {t code kernel} : (a.call = .exit code ∧ m.pc a.core = .task ∧ kernel = m.kernel) ∨
        (ChecksSignals m a ∧
          ∃ signum, checkPendingSignals a.core m.kernel = ((signum, some code), kernel)) →
      Machine.runningCurrent { m with kernel } a.core = some t →
      m'.kernel = (exit t code kernel).2 →
      Goes m a m' ((exit t code kernel).1.elim (.schedule .exit) fun r => .wakeup r 0 true) →
      m'.result = m.result → Exec A al tick m a m'
  | signal {signum kernel} : ChecksSignals m a →
      checkPendingSignals a.core m.kernel = ((signum, none), kernel) → m'.kernel = kernel →
      Goes m a m' .task → m'.result = update m.result a.core (some (.signal signum)) →
      Exec A al tick m a m'
  | sendSignal {pid signum r} {p : Pc N} : a.call = .sendSignal pid signum → m.pc a.core = .task →
      m'.kernel = (sendSignal pid signum m.kernel).2 → p.isEntry →
      (∀ r i, p ≠ .wakeup r i true) → Goes m a m' p →
      m'.result = update m.result a.core (some (.sendSignal r)) → Exec A al tick m a m'
  | schedule {k} : m.pc a.core = .schedule k → m'.kernel = (schedule a.core m.kernel).2 →
      Goes m a m' ((schedule a.core m.kernel).1.elim k.pc fun pair => .switchTo pair.1 pair.2 k) →
      m'.result = m.result → Exec A al tick m a m'
  | switchTo {current next k} : m.pc a.core = .switchTo current next k → m'.kernel = m.kernel →
      m'.executing = update m.executing a.core (some next) →
      m'.context = update m.context current k →
      m'.pc = update m.pc a.core (update m.context current k next).pc →
      m'.result = m.result → Exec A al tick m a m'
  | wakeup {r i exiting} (hi : i < N.val) : m.pc a.core = .wakeup r i exiting →
      m'.kernel = wakeup ⟨i, hi⟩ r m.kernel → Goes m a m' (.wakeup r (i + 1) exiting) →
      m'.result = m.result → Exec A al tick m a m'
  | wakeupOne {r i} (hi : i < N.val) : m.pc a.core = .wakeupOne r i →
      m'.kernel = (wakeupOne ⟨i, hi⟩ r m.kernel).2 →
      Goes m a m' (if (wakeupOne ⟨i, hi⟩ r m.kernel).1 then .task else .wakeupOne r (i + 1)) →
      m'.result = m.result → Exec A al tick m a m'
  | balance {source needPreempt} : m.pc a.core = .balance source needPreempt →
      m'.kernel = balance a.core source m.kernel → Goes m a m' (.preempt needPreempt) →
      m'.result = m.result → Exec A al tick m a m'
  | init : a.call = .initCurrentCore → m.pc a.core = .off →
      m'.kernel = initCurrentCore a.core m.kernel →
      m'.executing = update m.executing a.core (m'.kernel.currentTask a.core) →
      m'.context = m.context → m'.pc = update m.pc a.core .task →
      m'.result = m.result → Exec A al tick m a m'

/-! ## Every step is one of the cases -/

theorem Goes.goto : Goes m a (m.goto a.core p) p := ⟨rfl, rfl, rfl⟩

theorem Exec.goto (hs : (m.pc a.core).isIdle) (hp : p.isEntry) :
    Exec A al tick m a (m.goto a.core p) :=
  .pass hs hp .goto rfl rfl

theorem exitStep_exec {kernel : State N} {code : ℤ}
    (hk : (a.call = .exit code ∧ m.pc a.core = .task ∧ kernel = m.kernel) ∨
      (ChecksSignals m a ∧
        ∃ signum, checkPendingSignals a.core m.kernel = ((signum, some code), kernel)))
    (h : exitStep { m with kernel } a.core code = some m') : Exec A al tick m a m' := by
  obtain ⟨t, ht, rfl⟩ := Option.map_eq_some_iff.mp h
  exact .exit hk ht rfl ⟨rfl, rfl, rfl⟩ rfl

theorem checkPendingSignalsStep_exec (hpc : ChecksSignals m a)
    (h : checkPendingSignalsStep m a.core = some m') : Exec A al tick m a m' := by
  unfold checkPendingSignalsStep at h
  cases hr : checkPendingSignals a.core m.kernel with
  | mk result kernel =>
    obtain ⟨signum, _ | code⟩ := result
    · rw [hr] at h
      cases h
      exact .signal hpc hr rfl ⟨rfl, rfl, rfl⟩ rfl
    · rw [hr] at h
      exact exitStep_exec (.inr ⟨hpc, signum, hr⟩) h

theorem callStep_exec (hpc : m.pc a.core = .task)
    (h : callStep A al tick m a.core a.call = some m') : Exec A al tick m a m' := by
  have hs : (m.pc a.core).isIdle := by rw [hpc]; rfl
  obtain ⟨c, call⟩ := a
  cases call with
  | initCurrentCore | step => cases h
  | addTask task =>
    obtain ⟨hstatus, ⟨⟩⟩ := Option.ite_none_right_eq_some.mp h
    exact .addTask rfl hpc hstatus rfl ⟨by rw [← hpc, update_eq_self], rfl, rfl⟩ rfl
  | clone flags =>
    cases h
    exact .clone rfl hpc rfl ⟨rfl, rfl, rfl⟩ rfl
  | schedule | balance | wakeup r | wakeupOne r =>
    cases h
    exact .goto hs rfl
  | tickUpdate =>
    cases h
    exact .tickUpdate rfl hpc rfl ⟨rfl, rfl, rfl⟩ rfl
  | sleep ms =>
    obtain ⟨t, ht, hm⟩ := Option.map_eq_some_iff.mp h
    split at hm
    · obtain rfl := hm
      exact .goto hs rfl
    · obtain rfl := hm
      exact .sleep rfl hpc ht rfl ⟨rfl, rfl, rfl⟩ rfl
  | block r =>
    obtain ⟨t, ht, rfl⟩ := Option.map_eq_some_iff.mp h
    exact .block rfl hpc ht rfl ⟨rfl, rfl, rfl⟩ rfl
  | wait args =>
    obtain ⟨t, -, rfl⟩ := Option.map_eq_some_iff.mp h
    exact .goto hs rfl
  | exit code => exact exitStep_exec (.inl ⟨rfl, hpc, rfl⟩) h
  | sendSignal pid signum =>
    simp only [callStep] at h
    cases hr : sendSignal pid signum m.kernel with
    | mk result kernel =>
      rw [hr] at h
      cases result with
      | error e =>
        cases h
        exact .sendSignal (p := .task) rfl hpc (by rw [hr]; rfl) rfl nofun ⟨rfl, rfl, rfl⟩ rfl
      | ok resourceId =>
        cases h
        cases resourceId with
        | none =>
          exact .sendSignal (p := .task) rfl hpc (by rw [hr]; rfl) rfl nofun ⟨rfl, rfl, rfl⟩ rfl
        | some r =>
          exact .sendSignal (p := .wakeup r 0 false) rfl hpc (by rw [hr]; rfl) rfl nofun
            ⟨by simp [Machine.goto, Machine.return'], rfl, rfl⟩ rfl
  | checkPendingSignals => exact checkPendingSignalsStep_exec (.inl ⟨rfl, hpc⟩) h

theorem waitStep_exec {c : N.Core} {args : WaitArgs}
    (hpc : m.pc c = .wait args) (horder : order.isPerm m.kernel.tasks)
    (h : waitStep m c args order = some m') : Exec A al tick m ⟨c, .step order⟩ m' := by
  obtain ⟨t, hcur, hm⟩ := Option.bind_eq_some_iff.mp h
  have hscan : Scans m ⟨c, .step order⟩ args t order :=
    ⟨rfl, hpc, hcur, List.isPerm_iff.mp horder⟩
  simp only at hm
  cases hresult : waitScan m.kernel (m.kernel.tcb t) args order false with
  | target u =>
    rw [hresult] at hm
    cases hm
    exact .select hscan hresult rfl ⟨rfl, rfl, rfl⟩ rfl
  | stopped u =>
    rw [hresult] at hm
    cases hm
    exact .waitReturn hscan (.inl ⟨u, hresult, rfl⟩) rfl ⟨rfl, rfl, rfl⟩ rfl
  | noChild =>
    rw [hresult] at hm
    cases hm
    exact .waitReturn hscan (.inr (.inl ⟨hresult, rfl⟩)) rfl ⟨rfl, rfl, rfl⟩ rfl
  | noneYet =>
    rw [hresult] at hm
    simp only at hm
    split at hm
    · rename_i hhang
      cases hm
      exact .waitReturn hscan (.inr (.inr ⟨hresult, hhang, rfl⟩)) rfl ⟨rfl, rfl, rfl⟩ rfl
    rename_i hhang
    obtain ⟨u, hu, rfl⟩ := Option.map_eq_some_iff.mp hm
    have hcur' : m.kernel.currentTask c = some u := by
      have hfilter := hu
      simp only [Machine.runningCurrent, Option.filter_eq_some_iff] at hfilter
      exact hfilter.1
    cases hcur.symm.trans hcur'
    exact .waitBlock hscan hu hresult (by simpa using hhang) rfl ⟨rfl, rfl, rfl⟩ rfl

theorem pcStep_exec {c : N.Core}
    (h : pcStep A m c order (m.pc c) = some m') : Exec A al tick m ⟨c, .step order⟩ m' := by
  cases hpc : m.pc c with rw [hpc, pcStep] at h
  | off | task | unreachable =>
    cases h
  | schedule k =>
    cases hr : schedule c m.kernel with
    | mk result kernel =>
      rw [hr] at h
      cases result with
      | none =>
        cases h
        exact .schedule hpc (by rw [hr]; rfl) ⟨by rw [hr]; rfl, rfl, rfl⟩ rfl
      | some pair =>
        cases h
        exact .schedule hpc (by rw [hr]; rfl) ⟨by rw [hr]; rfl, rfl, rfl⟩ rfl
  | switchTo current next k =>
    cases h
    exact .switchTo hpc rfl rfl rfl rfl rfl
  | wakeup r i exiting =>
    split at h
    · rename_i hi
      cases h
      exact .wakeup hi hpc rfl ⟨rfl, rfl, rfl⟩ rfl
    rename_i hi
    cases h
    refine .goto (a := ⟨c, .step order⟩) (by simp only [hpc, Pc.isIdle]; simpa using hi) ?_
    cases exiting <;> rfl
  | wakeupOne r i =>
    split at h
    · rename_i hi
      cases h
      exact .wakeupOne hi hpc rfl ⟨rfl, rfl, rfl⟩ rfl
    · cases h
      exact .goto (a := ⟨c, .step order⟩) (by rw [hpc]; rfl) rfl
  | tickTail needPreempt =>
    split at h <;> cases h
    all_goals exact .goto (a := ⟨c, .step order⟩) (by rw [hpc]; rfl) rfl
  | balanceScan i currentLoad maxLoad maxCore needPreempt =>
    cases h
    have hs : (m.pc (⟨c, .step order⟩ : Action N).core).isIdle := by
      simp only [hpc]
      rfl
    unfold balanceScanStep
    split
    · simp only
      split <;> exact .goto (a := ⟨c, .step order⟩) hs rfl
    · split <;> exact .goto (a := ⟨c, .step order⟩) hs rfl
  | balance source needPreempt =>
    cases h
    exact .balance hpc rfl ⟨rfl, rfl, rfl⟩ rfl
  | preempt needPreempt =>
    cases h
    refine .goto (a := ⟨c, .step order⟩) (by rw [hpc]; rfl) ?_
    split <;> rfl
  | wait args =>
    split at h
    · rename_i horder
      exact waitStep_exec hpc horder h
    · cases h
  | reap target =>
    cases h
    exact .reap hpc rfl ⟨rfl, rfl, rfl⟩ rfl
  | checkPendingSignals =>
    exact checkPendingSignalsStep_exec (.inr hpc) h

theorem next_exec (h : next A al tick m a = some m') : Exec A al tick m a m' := by
  unfold next at h
  obtain ⟨c, call⟩ := a
  cases call with
  | initCurrentCore =>
    obtain ⟨hpc, ⟨⟩⟩ := Option.ite_none_right_eq_some.mp h
    exact .init rfl hpc rfl rfl rfl rfl rfl
  | step order => exact pcStep_exec h
  | _ =>
    simp only at h
    split at h
    · rename_i hpc
      exact callStep_exec hpc h
    · cases h

theorem next_pcStep {p : Pc N} (h : next A al tick m a = some m') (hpc : m.pc a.core = p)
    (hoff : p ≠ .off) (htask : p ≠ .task) : ∃ order, pcStep A m a.core order p = some m' := by
  unfold next at h
  cases hcall : a.call with simp only [hcall, hpc] at h
  | initCurrentCore => cases (if_neg hoff).symm.trans h
  | step order => exact ⟨order, h⟩
  | _ => cases (if_neg htask).symm.trans h

theorem Exec.pc_of_ne {i : N.Core} (h : Exec A al tick m a m') (hi : i ≠ a.core) :
    m'.pc i = m.pc i := by
  have hupdate : ∀ {p : Pc N}, m'.pc = update m.pc a.core p → m'.pc i = m.pc i :=
    fun hp => by rw [hp, update_of_ne hi]
  cases h with
  | pass _ _ hg | addTask _ _ _ _ hg | clone _ _ _ hg | tickUpdate _ _ _ hg | sleep _ _ _ _ hg
  | block _ _ _ _ hg | waitBlock _ _ _ _ _ hg | waitReturn _ _ _ hg | select _ _ _ hg
  | reap _ _ hg | exit _ _ _ hg | signal _ _ _ hg | sendSignal _ _ _ _ _ hg | schedule _ _ hg
  | wakeup _ _ _ hg | wakeupOne _ _ _ hg | balance _ _ hg => exact hupdate hg.pc
  | switchTo _ _ _ _ hpc | init _ _ _ _ _ hpc => exact hupdate hpc

end SimpleKernel.TaskManager
