import SimpleKernel.Verification.Task.Reaping

/-! What `Wait` returns: each terminated child once, with the code that it passed to `Exit`. -/

namespace SimpleKernel.TaskManager

open VirtualMemory (CpuIo Allocator sv39 bump)

variable {N : CoreCount} {A : CpuIo} {al : Allocator A} {tick : ℕ} {m m' : Machine N}
  {a : Action N} {s : State N} {t u : TaskPtr} {args : WaitArgs}

/-! ## The record of a run -/

/-- What a run has told the tasks: the code that each task passed to `Exit`, the pid for which
each core last scanned the table, and the pids that `Wait` returned, the last one first. -/
structure History (N : CoreCount) where
  passed : TaskPtr → Option ℤ := fun _ => none
  selector : N.Core → Pid := fun _ => 0
  returned : List Pid := []

/-- The pid other than 0 that `Wait` returns in the step. -/
def Machine.waited (m : Machine N) (a : Action N) (m' : Machine N) : Option Pid :=
  match m.pc a.core, m'.pc a.core, m'.result a.core with
  | .wait _, .task, some (.wait (.ok pid) _) => if pid = 0 then none else some pid
  | .reap _, .task, some (.wait (.ok pid) _) => if pid = 0 then none else some pid
  | _, _, _ => none

def History.record (m : Machine N) (a : Action N) (m' : Machine N) (h : History N) : History N where
  passed t := if m.exiting a = some t then m.exitCode a else h.passed t
  selector :=
    match m.pc a.core with
    | .wait args => Function.update h.selector a.core args.pid
    | _ => h.selector
  returned := (m.waited a m').toList ++ h.returned

def recordedSystem (A : CpuIo) (al : Allocator A) (tick : ℕ) :
    Transition (Machine N × History N) (Action N) :=
  (system A al tick).recorded {} History.record

def Pc.isReap : Pc N → Bool
  | .reap _ => true
  | _ => false

/-- `Wait` removes the child that it has found in one operation, and it is not called with
`untraced`. -/
def Machine.wholeWait (m : Machine N) (a : Action N) : Bool :=
  decide (∀ i, i ≠ a.core → ¬ (m.pc i).isReap) &&
    match m.pc a.core with
    | .wait args => !args.untraced
    | _ => true

theorem core_eq_of_reap (h : m.wholeWait a) {i : N.Core} (hi : m.pc i = .reap t) : i = a.core := by
  simp only [Machine.wholeWait, Bool.and_eq_true, decide_eq_true_eq] at h
  by_contra hne
  exact h.1 i hne (by rw [hi]; rfl)

theorem untraced_eq_false (h : m.wholeWait a)
    (hpc : m.pc a.core = .wait args) : args.untraced = false := by
  simp only [Machine.wholeWait, hpc, Bool.and_eq_true, Bool.not_eq_true'] at h
  exact h.2

/-! ## The scan -/

section Scan

variable {current : TaskControlBlock} {args : WaitArgs} {order : List TaskPtr} {found : Bool}

theorem waitScan_stopped (h : waitScan s current args order found = .stopped u) :
    args.untraced = true := by
  induction order generalizing found with
  | nil =>
    cases found <;> cases h
  | cons t rest ih =>
    rw [waitScan] at h
    split at h
    · exact ih h
    split at h
    · cases h
    split at h
    · rename_i hstopped
      exact (Bool.and_eq_true_iff.mp hstopped).1
    · exact ih h

theorem waitScan_noChild : waitScan s current args order found = .noChild ↔
    found = false ∧ ∀ t ∈ order, pidMatch current (s.tcb t) args.pid = false := by
  induction order generalizing found with
  | nil => cases found <;> simp [waitScan]
  | cons t rest ih =>
    simp only [waitScan, List.mem_cons, forall_eq_or_imp]
    cases hm : pidMatch current (s.tcb t) args.pid with
    | false => simpa using ih
    | true =>
      simp only [Bool.not_true, Bool.false_eq_true, if_false]
      split
      · simp
      split
      · simp
      · rw [ih]
        simp

end Scan

/-! ## The steps of `Wait` -/

theorem next_reap (hpc : m.pc a.core = .reap t) (hs : next A al tick m a = some m') :
    m' = { m with kernel := reap A t m.kernel }.return' a.core
      (.wait (.ok (m.kernel.tcb t).pid) (some (m.kernel.tcb t).aux.exitCode)) := by
  obtain ⟨_, hs⟩ := next_pcStep hs hpc nofun nofun
  exact (Option.some.inj hs).symm

theorem next_wait (hpc : m.pc a.core = .wait args) (hs : next A al tick m a = some m') :
    ∃ order, waitStep m a.core args order = some m' := by
  obtain ⟨order, hs⟩ := next_pcStep hs hpc nofun nofun
  exact ⟨order, (Option.ite_none_right_eq_some.mp hs).2⟩

theorem waitStep_noChild {c : N.Core} {parent : TaskPtr} {order : List TaskPtr}
    (hcur : m.kernel.currentTask c = some parent) (horder : order.Perm m.kernel.tasks) :
    (∃ m', waitStep m c args order = some m' ∧ m'.pc c = .task ∧
      m'.result c = some (.wait (.error .taskNoChildFound) none)) ↔
    ∀ t ∈ m.kernel.tasks, pidMatch (m.kernel.tcb parent) (m.kernel.tcb t) args.pid = false := by
  have hscan : waitScan m.kernel (m.kernel.tcb parent) args order false = .noChild ↔
      ∀ t ∈ m.kernel.tasks, pidMatch (m.kernel.tcb parent) (m.kernel.tcb t) args.pid = false := by
    simp [waitScan_noChild, horder.mem_iff]
  rw [← hscan]
  unfold waitStep
  rw [hcur]
  simp only [Option.bind_some]
  cases waitScan m.kernel (m.kernel.tcb parent) args order false with
  | target u => simp [Machine.goto]
  | stopped u => simp [Machine.return']
  | noChild => simp [Machine.return']
  | noneYet =>
    by_cases hhang : args.noHang
    · simp [hhang, Machine.return']
    · simp [hhang, Machine.goto]

theorem waited_of_wait (hpc : m.pc a.core = .wait args)
    (hu : args.untraced = false) (hs : next A al tick m a = some m') : m.waited a m' = none := by
  obtain ⟨order, hs⟩ := next_wait hpc hs
  obtain ⟨parent, -, hs⟩ := Option.bind_eq_some_iff.mp hs
  simp only at hs
  unfold Machine.waited
  rw [hpc]
  cases hscan : waitScan m.kernel (m.kernel.tcb parent) args order false with
  | target u =>
    rw [hscan] at hs
    cases hs
    simp [Machine.goto]
  | stopped u =>
    rw [waitScan_stopped hscan] at hu
    cases hu
  | noChild =>
    rw [hscan] at hs
    cases hs
    simp [Machine.return']
  | noneYet =>
    rw [hscan] at hs
    simp only at hs
    split at hs
    · cases hs
      simp [Machine.return']
    · obtain ⟨t, -, rfl⟩ := Option.map_eq_some_iff.mp hs
      simp [Machine.goto]

theorem waited_eq_some {p : Pid} (h : m.wholeWait a) (hs : next A al tick m a = some m')
    (hp : m.waited a m' = some p) : ∃ t, m.pc a.core = .reap t ∧ p = (m.kernel.ids t).pid := by
  cases hpc : m.pc a.core with
  | wait args => rw [waited_of_wait hpc (untraced_eq_false h hpc) hs] at hp; cases hp
  | reap t =>
    refine ⟨t, rfl, ?_⟩
    rw [next_reap hpc hs] at hp
    simp only [Machine.waited, hpc, Machine.return', Function.update_self] at hp
    split at hp
    · cases hp
    · exact (Option.some.inj hp).symm
  | _ => simp [Machine.waited, hpc] at hp

theorem waited_of_reap (hpc : m.pc a.core = .reap t) (h0 : (m.kernel.ids t).pid ≠ 0)
    (hs : next A al tick m a = some m') : m.waited a m' = some (m.kernel.ids t).pid := by
  rw [next_reap hpc hs]
  simp only [Machine.waited, hpc, Machine.return', Function.update_self]
  exact if_neg h0

/-! ## The step of `Exit` -/

def Machine.Exits (m m' : Machine N) (t : TaskPtr) : Prop :=
  ∃ kernel code, SameKin m.kernel kernel ∧ (kernel.tcb t).status = .running ∧
    m'.kernel = (exit t code kernel).2

theorem exitStep_exits {kernel : State N} {code : ℤ} (hsame : SameKin m.kernel kernel)
    (hcur : kernel.currentTask a.core = some t)
    (hs : exitStep { m with kernel } a.core code = some m') : m.Exits m' t := by
  obtain ⟨u, hu, rfl⟩ := Option.map_eq_some_iff.mp hs
  obtain ⟨hucur, hrun⟩ := runningCurrent_eq_some hu
  cases hcur.symm.trans hucur
  exact ⟨kernel, code, hsame, hrun, rfl⟩

theorem checkPendingSignalsStep_exits (hcode : (checkPendingSignals a.core m.kernel).1.2.isSome)
    (hcur : m.kernel.currentTask a.core = some t)
    (hs : checkPendingSignalsStep m a.core = some m') : m.Exits m' t := by
  unfold checkPendingSignalsStep at hs
  generalize hr : checkPendingSignals a.core m.kernel = result at hcode hs
  obtain ⟨⟨signum, _ | code⟩, kernel⟩ := result
  · cases hcode
  have hcheck := checkPendingSignals_polled hr
  refine exitStep_exits hcheck.still.kept.sameKin ?_ hs
  exact (congrFun (congrArg Board.running hcheck.silent.board) a.core).trans hcur

theorem exiting_eq_some (hexit : m.exiting a = some t) :
    m.isExit a ∧ m.kernel.currentTask a.core = some t := by
  simpa [Machine.exiting] using hexit

theorem exiting_exits (hexit : m.exiting a = some t) (hs : next A al tick m a = some m') :
    m.Exits m' t := by
  obtain ⟨hisExit, hcur⟩ := exiting_eq_some hexit
  unfold Machine.isExit at hisExit
  split at hisExit
  · rename_i code hcall hpc
    simp only [next, hcall, hpc, if_true, callStep] at hs
    exact exitStep_exits (.refl _) hcur hs
  · rename_i hcall hpc
    simp only [next, hcall, hpc, if_true, callStep] at hs
    exact checkPendingSignalsStep_exits hisExit hcur hs
  · rename_i hpc
    obtain ⟨_, hs⟩ := next_pcStep hs hpc (by simp) (by simp)
    exact checkPendingSignalsStep_exits hisExit hcur hs
  · cases hisExit

theorem Machine.Exits.alive (h : m.Exits m' t) : (m.kernel.ids t).fate = none := by
  obtain ⟨kernel, code, hsame, hrun, -⟩ := h
  rw [← hsame.ids]
  exact fate_of_running hrun

theorem Machine.Exits.ended (h : m.Exits m' t) : (m'.kernel.ids t).fate.isSome := by
  obtain ⟨kernel, code, hsame, hrun, hk⟩ := h
  rw [hk, exit_ids kernel t hrun, State.exitIds, State.endedIds, if_pos rfl]
  rfl

/-! ## Every run -/

/-- What the record of a run says about the state. -/
structure Machine.Collected (m : Machine N) (h : History N) : Prop extends m.Unique where
  passed : ∀ {t}, t < m.kernel.nextTask → (m.kernel.ids t).fate.isSome →
    h.passed t = some (m.kernel.ids t).exitCode
  found : ∀ {c t}, m.pc c = .reap t →
    m.kernel.taskTable.lookup (m.kernel.ids t).pid = some t ∧
      ∃ parent, m.kernel.currentTask c = some parent ∧
        pidMatch (m.kernel.tcb parent) (m.kernel.tcb t) (h.selector c)
  nodup : h.returned.Nodup
  returned : ∀ {p}, p ∈ h.returned → m.kernel.taskTable.lookup p = none ∧
    ∃ t < m.kernel.nextTask, (m.kernel.ids t).pid = p

namespace Machine.Collected

variable {h : History N}

theorem lookup (hm : m.Collected h) (hok : m.freshPid a) (hs : next A al tick m a = some m')
    {p : Pid} {t : TaskPtr} (ht : t < m.kernel.nextTask) (hp : (m.kernel.ids t).pid = p) :
    m.waited a m' = some p ∨ m'.kernel.taskTable.lookup p = m.kernel.taskTable.lookup p := by
  refine (Machine.Unique.lookup_kept hok ((next_exec hs).files hm.toSafe) ht hp).imp_left ?_
  rintro ⟨u, hpc, hpu⟩
  exact hpu ▸ waited_of_reap hpc (hm.selected hpc).2.2 hs

theorem passed_step (hm : m.Collected h) (hs : next A al tick m a = some m')
    (ht : t < m'.kernel.nextTask) (hdead : (m'.kernel.ids t).fate.isSome) :
    (h.record m a m').passed t = some (m'.kernel.ids t).exitCode := by
  have hf := (next_exec hs).files hm.toSafe
  have hold : t < m.kernel.nextTask := by
    by_contra hnew
    rw [hf.new_alive (Nat.not_lt.mp hnew) ht] at hdead
    cases hdead
  by_cases hexit : m.exiting a = some t
  · refine (if_pos hexit).trans ?_
    rcases hf.ends_or with hids | ⟨u, code, he⟩
    · rw [hids t hold, (exiting_exits hexit hs).alive] at hdead
      cases hdead
    · obtain rfl : u = t := Option.some.inj (he.exiting.symm.trans hexit)
      rw [he.exits, he.ids, State.exitIds, State.endedIds, if_pos rfl]
  · refine (if_neg hexit).trans ?_
    cases hfate : (m.kernel.ids t).fate with
    | none =>
      rw [hf.not_ended hold hfate hexit] at hdead
      cases hdead
    | some f =>
      rw [(hf.ended hold hfate).2]
      exact hm.passed hold (by rw [hfate]; rfl)

theorem step (hm : m.Collected h) (hok : m.wholeWait a) (hfresh : m.freshPid a)
    (hs : next A al tick m a = some m') : m'.Collected (h.record m a m') := by
  have hf := (next_exec hs).files hm.toSafe
  refine ⟨hm.toUnique.step hfresh hs, hm.passed_step hs, fun {c t} hc => ?_, ?_, fun {p} hp => ?_⟩
  · rcases (next_exec hs).pc_reap hc with ⟨hc, hne⟩ | ⟨rfl, hk, args, parent, order, hscan, htarget⟩
    · exact absurd (core_eq_of_reap hok hc) hne
    obtain ⟨hmem, hmatch, -⟩ := waitScan_target htarget
    have htask := hscan.order.mem_iff.mp hmem
    rw [hk]
    refine ⟨(hm.filed.mem_tasks htask).2, parent, hscan.current, ?_⟩
    simpa [History.record, hscan.pc] using hmatch
  · cases hw : m.waited a m' with
    | none => simpa [History.record, hw] using hm.nodup
    | some p =>
      obtain ⟨t, hpc, rfl⟩ := waited_eq_some hok hs hw
      have hnew : (m.kernel.ids t).pid ∉ h.returned := by
        intro hp
        have hnone := (hm.returned hp).1
        rw [(hm.found hpc).1] at hnone
        cases hnone
      simpa [History.record, hw] using ⟨hnew, hm.nodup⟩
  · by_cases hw : m.waited a m' = some p
    · obtain ⟨t, hpc, rfl⟩ := waited_eq_some hok hs hw
      have hlt := (hm.selected hpc).1
      refine ⟨?_, t, Nat.lt_of_lt_of_le hlt hf.created_le, (hf.kept hlt).1⟩
      rw [next_reap hpc hs]
      exact (reap_lookup m.kernel t A _).trans (if_pos rfl)
    have hp' : p ∈ h.returned := by
      refine (List.mem_append.mp hp).resolve_left ?_
      simpa using hw
    obtain ⟨hnone, t, ht, hpid⟩ := hm.returned hp'
    refine ⟨?_, t, Nat.lt_of_lt_of_le ht hf.created_le, (hf.kept ht).1.trans hpid⟩
    rw [(hm.lookup hfresh hs ht hpid).resolve_left hw, hnone]

end Machine.Collected

theorem Machine.Initial.collected (hm : m.Initial) : m.Collected {} := by
  refine ⟨hm.unique, fun ht => ?_, fun hc => ?_, List.nodup_nil, nofun⟩
  · obtain ⟨memory, rfl⟩ := hm
    exact absurd ht (Nat.not_lt_zero _)
  · obtain ⟨memory, rfl⟩ := hm
    cases hc

/-- In every run in which `Wait` is one operation and new tasks get new pids, no pid is returned
twice; a scan reports that there is no child exactly if no task in the table is one; and no entry
leaves the table but that of the pid that `Wait` returns: the pid of a terminated child of the
caller, with the code that the child passed to `Exit`. -/
theorem wait_collects (A : CpuIo) (al : Allocator A) (tick : ℕ) {m : Machine N} {h : History N}
    (hm : (recordedSystem A al tick).ReachableBy
      (fun p a => p.1.wholeWait a ∧ p.1.freshPid a) (m, h)) :
    h.returned.Nodup ∧
    (∀ c args parent order, m.pc c = .wait args → m.kernel.currentTask c = some parent →
      order.Perm m.kernel.tasks →
      ((∃ m', next A al tick m ⟨c, .step order⟩ = some m' ∧ m'.pc c = .task ∧
          m'.result c = some (.wait (.error .taskNoChildFound) none)) ↔
        ∀ t ∈ m.kernel.tasks, pidMatch (m.kernel.tcb parent) (m.kernel.tcb t) args.pid = false)) ∧
    ∀ a m', m.wholeWait a → m.freshPid a → next A al tick m a = some m' →
      (∀ p t, m.kernel.taskTable.lookup p = some t →
        m.waited a m' = some p ∨ m'.kernel.taskTable.lookup p = some t) ∧
      ∀ p, m.waited a m' = some p → ∃ parent t code,
        m.kernel.currentTask a.core = some parent ∧ m.kernel.taskTable.lookup p = some t ∧
        isDead (m.kernel.tcb t).status ∧
        pidMatch (m.kernel.tcb parent) (m.kernel.tcb t) (h.selector a.core) ∧
        m'.result a.core = some (.wait (.ok p) (some code)) ∧ h.passed t = some code ∧
        m'.kernel.taskTable.lookup p = none := by
  have hc : m.Collected h := hm.recorded (P := Machine.Collected)
    (fun _ hinit => Machine.Initial.collected hinit) fun _ _ _ _ hp hok hs =>
      hp.step hok.1 hok.2 hs
  refine ⟨hc.nodup, fun c args parent order hpc hcur horder => ?_, fun a m' hok hfresh hs =>
    ⟨fun p t ht => ?_, fun p hp => ?_⟩⟩
  · rw [← waitStep_noChild hcur horder]
    simp [next, hpc, pcStep, List.isPerm_iff.mpr horder]
  · obtain ⟨hlt, hpid⟩ := hc.filed _ _ ht
    rw [← ht]
    exact hc.lookup hfresh hs hlt hpid
  · obtain ⟨t, hpc, rfl⟩ := waited_eq_some hok hs hp
    obtain ⟨hlt, hdead, -⟩ := hc.selected hpc
    obtain ⟨hlookup, parent, hcur, hmatch⟩ := hc.found hpc
    refine ⟨parent, t, (m.kernel.ids t).exitCode, hcur, hlookup, ?_, hmatch, ?_,
      hc.passed hlt hdead, ?_⟩
    · rwa [isDead_eq_fate]
    · rw [next_reap hpc hs]
      exact Function.update_self ..
    · rw [next_reap hpc hs]
      exact (reap_lookup m.kernel t A _).trans (if_pos rfl)

/-- Task 5 has passed 3 to `Exit`, and task 4 gets it from `Wait`. -/
theorem wait_collects_child : ∃ (m m' : Machine dualCore) (h : History dualCore),
    (recordedSystem sv39 (bump 5) 1000).ReachableBy
      (fun p a => p.1.wholeWait a ∧ p.1.freshPid a) (m, h) ∧
    next sv39 (bump 5) 1000 m ⟨cpu0, .step []⟩ = some m' ∧ h.passed 5 = some 3 ∧
    m'.result cpu0 = some (.wait (.ok 2) (some 3)) ∧ m'.kernel.taskTable.lookup 2 = none := by
  obtain ⟨⟨m, h⟩, hm, hok, hfresh, h5, hpassed, m', hs, hw⟩ :=
    (recordedSystem sv39 (bump 5) 1000).exists_of_run (fun p a => p.1.wholeWait a ∧ p.1.freshPid a)
    (parentAndChild ++ [⟨cpu1, .exit 3⟩] ++ List.replicate 5 (goOn cpu1) ++
      [⟨cpu0, .wait { pid := 2 }⟩, ⟨cpu0, .step [4, 5]⟩])
    (fun p => p.1.wholeWait ⟨cpu0, .step []⟩ ∧ p.1.freshPid ⟨cpu0, .step []⟩ ∧
      p.1.kernel.taskTable.lookup 2 = some 5 ∧ p.2.passed 5 = some 3 ∧
      ∃ m' ∈ next sv39 (bump 5) 1000 p.1 ⟨cpu0, .step []⟩, p.1.waited ⟨cpu0, .step []⟩ m' = some 2)
    (s := (powerOn, {})) ⟨⟨_, rfl⟩, rfl⟩ (by decide)
  obtain ⟨-, -, hstep⟩ := wait_collects sv39 (bump 5) 1000 hm
  obtain ⟨_, t, code, -, ht, -, -, hresult, hcode, hgone⟩ := (hstep _ m' hok hfresh hs).2 2 hw
  cases h5.symm.trans ht
  cases hpassed.symm.trans hcode
  exact ⟨m, m', h, hm, hs, hpassed, hresult, hgone⟩

def addAndWait (t : TaskPtr) : List (Action dualCore) :=
  [⟨cpu0, .addTask { pid := 7, aux := { parentPid := 1, cpuAffinity := 2 } }⟩, ⟨cpu1, .schedule⟩,
    goOn cpu1, goOn cpu1, ⟨cpu1, .exit 3⟩, goOn cpu1, goOn cpu1, goOn cpu1, goOn cpu1, goOn cpu1,
    ⟨cpu0, .wait { pid := 7 }⟩, ⟨cpu0, .step [4, t]⟩, goOn cpu0]

/-- Two children are added with the pid 7, one after the other. -/
theorem pid_returned_twice : ¬ ∀ (m : Machine dualCore) (h : History dualCore),
    (recordedSystem sv39 (bump 5) 1000).ReachableBy (fun p a => p.1.wholeWait a) (m, h) →
      h.returned.Nodup := by
  intro hall
  obtain ⟨⟨m, h⟩, hm, hreturned⟩ := (recordedSystem sv39 (bump 5) 1000).exists_of_run
    (fun p a => p.1.wholeWait a)
    (bootBoth ++ [⟨cpu0, .addTask {}⟩, ⟨cpu0, .schedule⟩, goOn cpu0, goOn cpu0] ++
      addAndWait 5 ++ addAndWait 6)
    (fun p => p.2.returned = [7, 7])
    (s := (powerOn, {})) ⟨⟨_, rfl⟩, rfl⟩ (by decide)
  have hnodup := hall m h hm
  rw [hreturned] at hnodup
  exact absurd hnodup (by decide)

/-! ## Selectors -/

/-- The children that POSIX `waitpid` is about, for a signed `pid`. -/
def posixMatch (current task : TaskControlBlock) (pid : ℤ) : Bool :=
  task.aux.parentPid = current.pid ∧
    if pid = -1 then True
    else if pid = 0 then task.aux.pgid = current.aux.pgid
    else if 0 < pid then task.pid = pid
    else task.aux.pgid = -pid

theorem pidMatch_iff {current task : TaskControlBlock} {pid : Pid} :
    pidMatch current task pid ↔ task.aux.parentPid = current.pid ∧
      if pid = sizeMax then True
      else if pid = 0 then task.aux.pgid = current.aux.pgid
      else task.pid = pid := by
  unfold pidMatch
  by_cases hmax : pid = sizeMax
  · simp [hmax]
  by_cases hzero : pid = 0
  · simp [hzero, sizeMax]
  · simp [hmax, hzero, Nat.pos_of_ne_zero hzero]

/-- Below -1 the argument is taken for the pid of a child instead of for a process group. -/
theorem pidMatch_iff_posixMatch_iff (current : TaskControlBlock) (table : List TaskControlBlock)
    (pid : BitVec 64) :
    (∀ task ∈ table, pidMatch current task pid.toNat ↔ posixMatch current task pid.toInt) ↔
      -1 ≤ pid.toInt ∨ ∀ task ∈ table, task.aux.parentPid = current.pid →
        (task.pid = pid.toNat ↔ task.aux.pgid = -pid.toInt) := by
  have hlt := pid.isLt
  have hint := pid.toInt_eq_toNat_cond
  simp only [pidMatch_iff, posixMatch, decide_eq_true_eq, and_congr_right_iff]
  generalize pid.toInt = signed at *
  generalize pid.toNat = pid at *
  by_cases hbelow : signed < -1
  · have hmax : pid ≠ sizeMax := by
      rw [sizeMax]
      split at hint <;> omega
    have hzero : pid ≠ 0 := by
      split at hint <;> omega
    simp [hmax, hzero, hbelow.ne, hbelow.not_ge, show signed ≠ 0 by omega,
      show ¬ 0 < signed by omega]
  simp only [not_lt.mp hbelow, true_or, iff_true]
  intro task _ _
  split at hint
  · have hmax : pid ≠ sizeMax := by
      rw [sizeMax]
      omega
    by_cases hzero : pid = 0
    · simp [hint, hzero, sizeMax]
    rw [if_neg hmax, if_neg hzero, if_neg (by omega), if_neg (by omega), if_pos (by omega),
      hint]
    exact Int.natCast_inj.symm
  have hmax : pid = sizeMax := by
    rw [sizeMax]
    omega
  simp [hint, hmax, sizeMax]

/-- The argument -2, with a child in the process group 2. -/
theorem pidMatch_misses_group :
    pidMatch { pid := 1 } { pid := 3, aux := { parentPid := 1, pgid := 2 } } (-2#64).toNat = false ∧
      posixMatch { pid := 1 } { pid := 3, aux := { parentPid := 1, pgid := 2 } } (-2#64).toInt := by
  decide

end SimpleKernel.TaskManager
