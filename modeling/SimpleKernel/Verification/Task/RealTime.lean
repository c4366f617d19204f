import SimpleKernel.Verification.Task.RoundRobin

/-! Real-time tasks under the timer: the FIFO scheduler preempts no task, but `TickUpdate` does when
the time slice is used up, and then another real-time task gets the core. -/

namespace SimpleKernel.TaskManager

open VirtualMemory (CpuIo Allocator sv39 bump)

variable {N : CoreCount} {A : CpuIo} {al : Allocator A} {tick : ℕ} {m m' : Machine N}
  {a : Action N} {s : State N} {c : N.Core} {t u : TaskPtr}

/-! ## `Schedule` -/

theorem pickNext_realTime {rest : List TaskPtr}
    (hqueue : (s.cpuSchedulers c).readyQueue .realTime = u :: rest) :
    ∃ s', pickNext c s = (some u, s') := by
  unfold CpuSchedData.readyQueue at hqueue
  unfold pickNext
  cases hd : (s.cpuSchedulers c).schedulers with
  | none =>
    rw [hd] at hqueue
    cases hqueue
  | some schedulers =>
    rw [hd] at hqueue
    dsimp only [Option.elim_some, Schedulers.readyQueue] at hqueue
    dsimp [Schedulers.pickNext, FifoScheduler.pickNext]
    rw [hqueue]
    exact ⟨_, rfl⟩

section

variable (hinv : s.board.Inv) (hcur : s.currentTask c = some t) (hrun : (s.tcb t).status = .running)
  (hpolicy : (s.tcb t).policy = .realTime)
include hinv hcur hrun hpolicy

theorem yieldCurrent_realTime :
    ∃ rest, ((yieldCurrent c t s).cpuSchedulers c).readyQueue .realTime =
      ((s.cpuSchedulers c).readyQueue .realTime).head?.getD t :: rest := by
  obtain ⟨d, hd⟩ := Option.isSome_iff_exists.mp (hinv.online (c := c) (.inl hcur))
  unfold yieldCurrent requeue
  simp only [hrun, if_true, State.modify, hd, Function.update_self, TaskControlBlock.receive, hpolicy,
    Schedulers.requeues, State.enqueue, State.setCpu, Schedulers.enqueue, Schedulers.onPreempted,
    FifoScheduler.enqueue, CpuSchedData.readyQueue, Option.elim_some, Schedulers.readyQueue]
  cases hqueue : d.realTime.readyQueue with
  | nil => simp [maxReadyTasks]
  | cons u rest => split <;> simp

theorem schedule_realTime :
    (schedule c s).2.currentTask c =
      some (((s.cpuSchedulers c).readyQueue .realTime).head?.getD t) := by
  have hboard : (s.setCpu c fun d => { d with schedulerStarted := true }).board = s.board :=
    board_setCpu_of_eq (fun k => by cases k <;> rfl) rfl
  rw [← hboard] at hinv
  have hqueue := yieldCurrent_realTime hinv hcur hrun hpolicy
  rw [setCpu_cpuSchedulers_self] at hqueue
  change ∃ rest, _ = ((s.cpuSchedulers c).readyQueue .realTime).head?.getD t :: rest at hqueue
  generalize ((s.cpuSchedulers c).readyQueue .realTime).head?.getD t = next at hqueue ⊢
  obtain ⟨rest, hqueue⟩ := hqueue
  obtain ⟨s', hpick⟩ := pickNext_realTime hqueue
  rw [schedule_of_pickNext hcur hpick]
  exact (congrFun (congrArg Board.running (dispatch_board s' c next)) c).trans
    (Function.update_self ..)

end

/-! ## Runs -/

namespace Machine

/-- The action does not put the current task of core `c` to sleep, nor block or end it. -/
def staysOn (m : Machine N) (c : N.Core) (a : Action N) : Bool := a.core ≠ c || !m.parks a

/-- If the action is the `Schedule` of core `c`, no other real-time task is ready there. -/
def fifoEmpty (m : Machine N) (c : N.Core) (a : Action N) : Bool :=
  a.core ≠ c || match m.pc c with
    | .schedule _ => ((m.kernel.cpuSchedulers c).readyQueue .realTime).isEmpty
    | _ => true

/-- The real-time task `t` runs on core `c`. -/
structure Holds (m : Machine N) (c : N.Core) (t : TaskPtr) : Prop where
  current : m.kernel.currentTask c = some t
  running : (m.kernel.tcb t).status = .running
  policy : (m.kernel.tcb t).policy = .realTime

instance (m : Machine N) (c : N.Core) (t : TaskPtr) : Decidable (m.Holds c t) :=
  decidable_of_iff (_ ∧ _ ∧ _) ⟨fun h => ⟨h.1, h.2.1, h.2.2⟩, fun h => ⟨h.1, h.2, h.3⟩⟩

end Machine

theorem lodged_of_reachable (h : (system A al tick).Reachable m) :
    m.Safe ∧ m.kernel.board.Lodged .realTime := by
  refine h.invariant (P := fun m => m.Safe ∧ m.kernel.board.Lodged .realTime) ?_ ?_
  · intro m hinit
    have hsafe := Machine.Initial.safe hinit
    refine ⟨hsafe, fun i j t _ hi _ => ?_⟩
    obtain ⟨memory, rfl⟩ := hinit
    exact absurd (hsafe.inv.created hi) (Nat.not_lt_zero t)
  · rintro m a m' ⟨hsafe, hl⟩ hs
    refine ⟨hsafe.step (next_step hsafe hs), ?_⟩
    cases (next_step hsafe hs).shift hsafe with
    | moves hm => exact hl.moves hsafe.inv hm
    | requeue hsteal | steal _ _ hsteal => exact hl.steal hsafe.inv (by simp) hsteal
    | start _ hb =>
      rw [hb]
      exact hl.start hsafe.inv

namespace Machine.Holds

theorem schedule {k : Resume} (h : m.Holds a.core t) (hsafe : m.Safe)
    (hpc : m.pc a.core = .schedule k) (hs : next A al tick m a = some m') :
    m'.kernel.currentTask a.core = some t ↔
      (m.kernel.cpuSchedulers a.core).readyQueue .realTime = [] := by
  rw [next_schedule hpc hs, schedule_realTime hsafe.inv h.current h.running h.policy]
  cases hqueue : (m.kernel.cpuSchedulers a.core).readyQueue .realTime with
  | nil => simp
  | cons u rest =>
    have hmem : u ∈ m.kernel.board.holds (.ready a.core .realTime) :=
      Multiset.mem_coe.mpr (hqueue ▸ List.mem_cons_self)
    have hne : u ≠ t := by
      rintro rfl
      cases (hsafe.inv.status hmem).symm.trans h.running
    simp [hne]

section

variable (h : m.Holds c t) (hsafe : m.Safe) (hlodged : m.kernel.board.Lodged .realTime)
  (hstays : m.staysOn c a)
include h hsafe hlodged hstays

theorem other (hsched : c = a.core → ∀ k, m.pc c ≠ .schedule k)
    (hs : next A al tick m a = some m') :
    m'.kernel.currentTask c = some t ∧ m'.kernel.board.status t = .running := by
  have hnear : m.kernel.board.Near c t := .inl h.current
  have hfar : c ≠ a.core → ¬ m.kernel.board.Near a.core t := fun hcore hother =>
    hcore (hlodged c a.core t h.policy hnear hother)
  refine ⟨?_, ?_⟩
  · rw [(next_step hsafe hs).currentTask_eq hsafe fun hcore => ⟨hsched hcore, fun hoff => ?_⟩]
    · exact h.current
    · exact (hsafe.off c).mp hoff (hsafe.inv.online hnear)
  · cases next_board hsafe hs with
    | arrivals ha => exact ha.status_running hsafe.inv h.running
    | parks hparks hmove =>
      have hcore : c ≠ a.core := by
        rintro rfl
        simp [staysOn, hparks] at hstays
      exact Moves.status_running hmove.to_reflTransGen hsafe.inv h.running (hfar hcore)
    | schedule hpc hb =>
      obtain ⟨current, hcur⟩ := hsafe.current hpc
      have hcore : c ≠ a.core := by
        rintro rfl
        exact hsched rfl _ hpc
      rw [hb]
      exact (schedule_effect hsafe.inv hcur).1.moves.status_running hsafe.inv h.running (hfar hcore)
    | steal hsteal => exact (congrFun hsteal.2.status t).trans h.running
    | start _ hb =>
      have hlt : t < m.kernel.board.created := hsafe.inv.created hnear
      rw [hb]
      exact (Board.start_of_lt _ hlt).1.trans h.running

theorem next (hs : TaskManager.next A al tick m a = some m') :
    (m'.kernel.currentTask c = some t ↔ m.fifoEmpty c a) ∧
      (m'.kernel.currentTask c = some t → m'.Holds c t) := by
  have hpolicy : m'.kernel.board.policy t = .realTime :=
    ((next_step hsafe hs).policy_eq hsafe (hsafe.inv.created (.inl h.current))).trans h.policy
  by_cases hsched : c = a.core ∧ ∃ k, m.pc c = .schedule k
  · obtain ⟨rfl, k, hpc⟩ := hsched
    refine ⟨?_, fun hcur => ⟨hcur, ?_, hpolicy⟩⟩
    · simpa [fifoEmpty, hpc] using h.schedule hsafe hpc hs
    · obtain ⟨-, next, -, hnext, hstatus⟩ := schedule_effect hsafe.inv h.current
      rw [← next_schedule hpc hs] at hnext hstatus
      cases hcur.symm.trans hnext
      exact hstatus.resolve_right fun hidle => by cases hidle.symm.trans hpolicy
  have hsched' : c = a.core → ∀ k, m.pc c ≠ .schedule k := fun hcore k hk => hsched ⟨hcore, k, hk⟩
  obtain ⟨hcur, hrun⟩ := h.other hsafe hlodged hstays hsched' hs
  refine ⟨iff_of_true hcur ?_, fun _ => ⟨hcur, hrun, hpolicy⟩⟩
  unfold fifoEmpty
  split
  · rename_i k hk
    have hcore : a.core ≠ c := fun heq => hsched' heq.symm k hk
    simp [hcore]
  · simp

end

end Machine.Holds

/-- A real-time task that does not sleep, block or end has its core in every run in which no other
real-time task is ready at the core when it executes `Schedule`, and only in such a run. For the
source this supposes that no control block reuses an address and that `AddTask` gets no pid of the
table. -/
theorem realTime_not_preempted (A : CpuIo) (al : Allocator A) (tick : ℕ) {m m' : Machine N}
    {c : N.Core} {t : TaskPtr} (h : (system A al tick).Reachable m) (ht : m.Holds c t)
    (hrun : ((system A al tick).startAt m).ReachableBy
      (fun m a => m.staysOn c a ∧ m.fifoEmpty c a) m') :
    m'.kernel.currentTask c = some t ∧ ∀ a m'', m'.staysOn c a →
      (system A al tick).step m' a = some m'' →
        (m''.kernel.currentTask c = some t ↔ m'.fifoEmpty c a) := by
  have hholds : m'.Holds c t := by
    refine (hrun.invariant (P := fun m => (system A al tick).Reachable m ∧ m.Holds c t) ?_ ?_).2
    · rintro _ rfl
      exact ⟨h, ht⟩
    · rintro m₁ a m₂ ⟨hreach, hholds⟩ ⟨hstays, hfifo⟩ hs
      obtain ⟨hsafe, hlodged⟩ := lodged_of_reachable hreach
      obtain ⟨hiff, hnext⟩ := hholds.next hsafe hlodged hstays hs
      exact ⟨hreach.step hs, hnext (hiff.mpr hfifo)⟩
  obtain ⟨hsafe, hlodged⟩ := lodged_of_reachable (h.startAt hrun)
  exact ⟨hholds.current, fun a m'' hstays hs => (hholds.next hsafe hlodged hstays hs).1⟩

/-! ## Two real-time tasks -/

def realTimeTasks (n : ℕ) : List (Action dualCore) :=
  ⟨cpu0, .initCurrentCore⟩ :: List.replicate n ⟨cpu0, .addTask { policy := .realTime }⟩ ++
    [⟨cpu0, .schedule⟩, goOn cpu0, goOn cpu0]

def wholeSlice : List (Action dualCore) :=
  (List.replicate 10 [⟨cpu0, .tickUpdate⟩, goOn cpu0, goOn cpu0]).flatten ++ [goOn cpu0]

/-- A single real-time task has another time slice. -/
theorem realTime_not_preempted_single : ∃ m m' : Machine dualCore,
    (system sv39 (bump 5) 1000).Reachable m ∧ m.Holds cpu0 2 ∧
      ((system sv39 (bump 5) 1000).startAt m).ReachableBy
        (fun m a => m.staysOn cpu0 a ∧ m.fifoEmpty cpu0 a) m' ∧
      (m'.kernel.cpuSchedulers cpu0).localTick = 10 ∧ m'.kernel.currentTask cpu0 = some 2 := by
  obtain ⟨m, hm, hholds, hruns⟩ := dualCore_reaches (fun _ _ => True) (realTimeTasks 1)
    (fun m => m.Holds cpu0 2 ∧
      (((system sv39 (bump 5) 1000).startAt m).run
        (fun m a => m.staysOn cpu0 a ∧ m.fifoEmpty cpu0 a) m wholeSlice).any
        fun m => decide ((m.kernel.cpuSchedulers cpu0).localTick = 10)) (by decide +kernel)
  obtain ⟨m', hm', htick⟩ := ((system sv39 (bump 5) 1000).startAt m).exists_of_run
    _ wholeSlice _ rfl hruns
  exact ⟨m, m', hm, hholds, hm', htick, (realTime_not_preempted sv39 (bump 5) 1000 hm hholds hm').1⟩

/-- Task 2 only lets its time slice pass, and task 3 gets the core. -/
theorem realTime_task_preempted : ¬ ∀ (m m' : Machine dualCore) (c : dualCore.Core) (t : TaskPtr),
    (system sv39 (bump 5) 1000).Reachable m → m.pc c = .task → m.Holds c t →
      ((system sv39 (bump 5) 1000).startAt m).ReachableBy
        (fun _ a => a.call.isTick || a.call.isStep) m' → m'.kernel.currentTask c = some t := by
  intro hall
  obtain ⟨m, hm, hpc, hholds, hruns⟩ := dualCore_reaches (fun _ _ => True) (realTimeTasks 2)
    (fun m => m.pc cpu0 = .task ∧ m.Holds cpu0 2 ∧
      (((system sv39 (bump 5) 1000).startAt m).run
        (fun _ a => a.call.isTick || a.call.isStep) m wholeSlice).any
        fun m => decide (m.kernel.currentTask cpu0 = some 3)) (by decide +kernel)
  obtain ⟨m', hm', hother⟩ := ((system sv39 (bump 5) 1000).startAt m).exists_of_run
    _ wholeSlice _ rfl hruns
  cases hother.symm.trans (hall m m' cpu0 2 hm hpc hholds hm')

/-- In every interleaving, one core at most knows a real-time task, and no two cores that are not on
their way to another task execute it. For the source this supposes that no control block reuses an
address and that `AddTask` gets no pid of the table. -/
theorem realTime_one_core (A : CpuIo) (al : Allocator A) (tick : ℕ) {m : Machine N}
    (h : (system A al tick).Reachable m) {t : TaskPtr} (ht : (m.kernel.tcb t).policy = .realTime) :
    (∀ i j, m.kernel.board.Near i t → m.kernel.board.Near j t → i = j) ∧
      ∀ i j, (m.pc i).isSwitch = false → (m.pc j).isSwitch = false →
        m.executing i = some t → m.executing j = some t → i = j := by
  obtain ⟨hsafe, hlodged⟩ := lodged_of_reachable h
  refine ⟨fun i j => hlodged i j t ht, fun i j hi hj hxi hxj => hlodged i j t ht (.inl ?_) (.inl ?_)⟩
  · exact (hsafe.executing hi).symm.trans hxi
  · exact (hsafe.executing hj).symm.trans hxj

theorem realTime_one_core_running : ∃ m : Machine dualCore,
    (system sv39 (bump 5) 1000).Reachable m ∧ m.Holds cpu0 2 ∧ ¬ m.kernel.board.Near cpu1 2 := by
  obtain ⟨m, hm, hholds⟩ := dualCore_reaches (fun _ _ => True) (realTimeTasks 1)
    (fun m => m.Holds cpu0 2) (by decide +kernel)
  have hone := (realTime_one_core sv39 (bump 5) 1000 hm hholds.policy).1 cpu0 cpu1
  exact ⟨m, hm, hholds, fun hnear => absurd (hone (.inl hholds.current) hnear) (by decide)⟩

end SimpleKernel.TaskManager
