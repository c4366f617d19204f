import SimpleKernel.Verification.Task.Placement

/-! `Schedule` resumes a ready task, as long as the task in the idle slot of a core does not give up
the core for good: the idle scheduler does not notice. -/

namespace SimpleKernel.TaskManager

open Function
open VirtualMemory (CpuIo Allocator sv39 bump)

variable {N : CoreCount} {A : CpuIo} {al : Allocator A} {tick : ℕ} {m m' : Machine N}
  {a : Action N} {s : State N} {c i j : N.Core} {t u current : TaskPtr} {kernel : State N}

/-! ## The idle slots -/

namespace Board

variable {b b' : Board N}

def Available (b : Board N) (c : N.Core) (t : TaskPtr) : Prop :=
  b.status t = .ready ∨ b.status t = .running ∧ b.running c = some t

/-- The tasks in the idle slots are available, and no other core knows them. -/
structure IdleSound (b : Board N) : Prop where
  slot : ∀ {c t}, b.slot c = some t → b.Available c t
  one : ∀ {i j t}, b.policy t = .idle → b.Near i t → b.Near j t → i = j

theorem IdleSound.lodged (h : b.IdleSound) : b.Lodged .idle := fun _ _ _ => h.one

theorem available_of_enqueued (he : Enqueued b i t b') (ht : b.status t = .ready)
    (hold : ∀ {c u}, u ≠ t → b.slot c = some u → b.Available c u) (hslot : b'.slot c = some u) :
    b'.Available c u := by
  unfold Available
  rw [he.status, he.running]
  by_cases hu : u = t
  · subst hu
    exact .inl ht
  apply hold hu
  cases he with
  | push => exact hslot
  | drop => exact hslot
  | slot =>
    unfold setSlot at hslot
    dsimp only at hslot
    by_cases hc : c = i
    · subst hc
      rw [update_self] at hslot
      exact absurd (Option.some.inj hslot).symm hu
    · rw [update_of_ne hc] at hslot
      exact hslot

theorem available_setStatus {status : TaskStatus} (hu : u ≠ t) (h : b.Available c u) :
    (b.setStatus t status).Available c u := by
  unfold Available setStatus
  dsimp only
  rw [update_of_ne hu]
  exact h

namespace IdleSound

section

variable (h : b.IdleSound) (hinv : b.Inv)
include h hinv

theorem arrival (ha : Arrival b b') : b'.IdleSound := by
  refine ⟨?_, h.lodged.of_near hinv (fun t ht => ha.policy_eq ht) ha.near _ _ _⟩
  cases ha with
  | @wakeBlocked i r t _ ht he | @wakeSleeping i t _ ht he =>
    have hready : (b.status t).receive .wakeup = .ready := by
      rw [hinv.status ht]
      rfl
    rw [hready] at he
    intro c u
    refine available_of_enqueued he (update_self ..) ?_
    exact fun hu hslot => available_setStatus hu (h.slot hslot)
  | add he =>
    refine available_of_enqueued he (update_self ..) ?_
    exact fun hu hslot => available_setStatus hu (h.slot hslot)
  | discard =>
    intro c u hslot
    have hu : u < b.created := hinv.created (.inr (.inl hslot))
    exact available_setStatus hu.ne (h.slot hslot)

theorem arrivals (ha : Arrivals b b') : b'.IdleSound := by
  induction ha with
  | refl => exact h
  | tail hrest hstep ih => exact ih.arrival (hinv.arrivals hrest) hstep

theorem yield (hcur : b.running c = some t)
    (hrun : b.status t = .running) (he : Enqueued (b.setStatus t .ready) c t b') :
    b'.IdleSound := by
  have hmove : Move c b b' := .yield hcur hrun he
  refine ⟨?_, h.lodged.moves hinv (.single hmove) _ _ _⟩
  refine available_of_enqueued he (update_self ..) ?_
  exact fun hu hslot => available_setStatus hu (h.slot hslot)

theorem pick {p : SchedPolicy} (hidle : ∀ u, b.running c = some u → b.status u ≠ .running)
    (ht : t ∈ b.holds (.ready c p)) :
    (((b.take (.ready c p) t).setRunning c t).setStatus t
      ((b.status t).receive .schedule)).IdleSound := by
  have hmove := Move.pick hidle ht
  refine ⟨?_, h.lodged.moves hinv (.single hmove) _ _ _⟩
  intro i u hslot
  have hu : u ≠ t := by
    rintro rfl
    have hpol := hinv.policy ht
    exact hpol.1 (hpol.2.symm.trans (hinv.slot hslot))
  refine available_setStatus hu ?_
  obtain hready | ⟨hrun, hcur⟩ := h.slot hslot
  · exact .inl hready
  have hi : i ≠ c := by
    rintro rfl
    exact hidle u hcur hrun
  exact .inr ⟨hrun, (update_of_ne hi _ _).trans hcur⟩

end

theorem ready_of_slot (h : b.IdleSound)
    (hidle : ∀ u, b.running c = some u → b.status u ≠ .running) (ht : b.slot c = some t) :
    b.status t = .ready := by
  obtain hready | ⟨hrun, hcur⟩ := h.slot ht
  · exact hready
  · exact absurd hrun (hidle t hcur)

section

variable (h : b.IdleSound) (hinv : b.Inv)
include h hinv

theorem pickIdle
    (hidle : ∀ u, b.running c = some u → b.status u ≠ .running) (ht : b.slot c = some t) :
    ((b.setRunning c t).setStatus t ((b.status t).receive .schedule)).IdleSound := by
  have hmove := Move.pickIdle hidle ht
  refine ⟨?_, h.lodged.moves hinv (.single hmove) _ _ _⟩
  intro i u hslot
  by_cases hu : u = t
  · subst hu
    have hi : i = c := h.one (hinv.slot ht) (.inr (.inl hslot)) (.inr (.inl ht))
    subst hi
    refine .inr ⟨?_, update_self ..⟩
    rw [h.ready_of_slot hidle ht]
    exact update_self ..
  refine available_setStatus hu ?_
  have hi : i ≠ c := by
    rintro rfl
    exact hu (Option.some.inj (hslot.symm.trans ht))
  obtain hready | ⟨hrun, hcur⟩ := h.slot hslot
  · exact .inl hready
  · exact .inr ⟨hrun, (update_of_ne hi _ _).trans hcur⟩

theorem ne_slot (hcur : b.running c = some t)
    (hc : b.slot c ≠ some t) (hslot : b.slot i = some u) : u ≠ t := by
  rintro rfl
  have hi : i = c := h.one (hinv.slot hslot) (.inr (.inl hslot)) (.inl hcur)
  subst hi
  exact hc hslot

theorem move (hm : Move c b b')
    (hc : ∀ t, b.running c = some t → b.slot c ≠ some t) : b'.IdleSound := by
  have hone : ∀ {i j t}, b'.policy t = .idle → b'.Near i t → b'.Near j t → i = j :=
    h.lodged.moves hinv (.single hm) _ _ _
  cases hm with
  | yield hcur hrun he => exact h.yield hinv hcur hrun he
  | pick hidle ht => exact h.pick hinv hidle ht
  | pickIdle hidle ht => exact h.pickIdle hinv hidle ht
  | block r hcur _ | sleep hcur _ | exit hasParent hcur _ =>
    refine ⟨?_, hone⟩
    intro i u hslot
    exact available_setStatus (h.ne_slot hinv hcur (hc _ hcur) hslot) (h.slot hslot)
  | arrival ha => exact h.arrival hinv ha

theorem atMostMove (hm : AtMostMove c b b')
    (hc : ∀ t, b.running c = some t → b.slot c ≠ some t) : b'.IdleSound := by
  cases hm with
  | refl => exact h
  | single hm => exact h.move hinv hm hc

theorem steal {source : N.Core} (hs : Steal source i t b b') : b'.IdleSound := by
  refine ⟨?_, h.lodged.steal hinv (by simp) hs _ _ _⟩
  intro c u hslot
  exact available_of_enqueued hs.2 (hinv.status hs.1) (fun _ hslot => h.slot hslot) hslot

theorem start : (b.start c).IdleSound := by
  refine ⟨?_, h.lodged.start hinv _ _ _⟩
  intro i u hslot
  by_cases hi : i = c
  · subst hi
    have heq : some (b.created + 1) = some u :=
      (update_self i _ b.slot).symm.trans hslot
    cases heq
    exact .inl (update_self ..)
  have hold : b.slot i = some u := (update_of_ne hi _ b.slot).symm.trans hslot
  have hu : u < b.created := hinv.created (.inr (.inl hold))
  unfold Available
  rw [(start_of_lt c hu).1]
  obtain hready | ⟨hrun, hcur⟩ := h.slot hold
  · exact .inl hready
  · exact .inr ⟨hrun, (update_of_ne hi _ b.running).trans hcur⟩

end

end IdleSound

end Board

/-! ## `Schedule` -/

/-- The task that `Schedule` makes the running task, with the state right before it does. -/
def chosen (c : N.Core) (s : State N) : Option (TaskPtr × State N) :=
  let s := s.setCpu c fun d => { d with schedulerStarted := true }
  (s.currentTask c).bind fun current =>
    match pickNext c (yieldCurrent c current s) with
    | (some next, s) => some (next, s)
    | (none, s) => if (s.tcb current).status = .ready then some (current, s) else none

theorem chosen_of_pickNext {next : TaskPtr} {s₁ : State N} (hcur : s.currentTask c = some current)
    (hpick : pickNext c (yielded c current s) = (some next, s₁)) : chosen c s = some (next, s₁) := by
  unfold yielded at hpick
  unfold chosen
  simp [setCpu_currentTask, hcur, hpick]

theorem chosen_spec (hinv : s.board.Inv) (h : s.board.IdleSound)
    (hcur : s.currentTask c = some current) :
    ∃ next s₁, pickNext c (yielded c current s) = (some next, s₁) ∧
      (schedule c s).2 = dispatch c next s₁ ∧ (s₁.tcb next).status = .ready ∧
      ((s.tcb next).status = .ready ∨ next = current ∧ (s.tcb next).status = .running) ∧
      (dispatch c next s₁).board.IdleSound := by
  obtain ⟨hyield, -, hidle⟩ := yielded_effect hcur
  obtain ⟨next, s₁, hpick, hst, -, hcases⟩ := yielded_picks hinv hcur
  have hinv₁ := hinv.moves hyield.moves
  obtain ⟨hsound, hbefore⟩ : (yielded c current s).board.IdleSound ∧
      ∀ u, (yielded c current s).board.status u = .ready →
        (s.tcb u).status = .ready ∨ u = current ∧ (s.tcb u).status = .running := by
    have hstart : (s.setCpu c fun d => { d with schedulerStarted := true }).board = s.board :=
      board_setCpu_of_eq (fun k => by cases k <;> rfl) rfl
    rw [← hstart] at hinv h
    by_cases hrun : (s.tcb current).status = .running
    · have he := yieldCurrent_enqueued (c := c)
        (s := s.setCpu c fun d => { d with schedulerStarted := true }) hrun
      refine ⟨h.yield hinv hcur hrun he, fun u hready => ?_⟩
      by_cases hu : u = current
      · exact .inr ⟨hu, hu ▸ hrun⟩
      · have hstatus := congrFun he.status u
        exact .inl ((hstatus.trans (update_of_ne hu _ _)).symm.trans hready)
    have hsame : yielded c current s = s.setCpu c fun d => { d with schedulerStarted := true } :=
      if_neg hrun
    rw [hsame]
    exact ⟨h, fun u hu => .inl hu⟩
  have hboard := dispatch_board s₁ c next
  refine ⟨next, s₁, hpick, congrArg Prod.snd (schedule_of_pickNext hcur hpick), ?_⟩
  rw [hst] at hboard ⊢
  rw [hboard]
  obtain ⟨p, hmem, hb⟩ | ⟨hslot, hb⟩ := hcases
  · have hready := hinv₁.status hmem
    rw [hb]
    exact ⟨hready, hbefore next hready, hsound.pick hinv₁ hidle hmem⟩
  have hready := hsound.ready_of_slot hidle hslot
  rw [hb]
  exact ⟨hready, hbefore next hready, hsound.pickIdle hinv₁ hidle hslot⟩

theorem dispatch_running {next : TaskPtr} (h : (s.tcb next).status = .ready) :
    ((dispatch c next s).tcb next).status = .running ∧
      (dispatch c next s).currentTask c = some next := by
  have hboard := dispatch_board s c next
  rw [h] at hboard
  constructor
  · exact (congrFun (congrArg Board.status hboard) next).trans (update_self ..)
  · exact (congrFun (congrArg Board.running hboard) c).trans (update_self ..)

/-! ## Steps -/

def Machine.parks (m : Machine N) (a : Action N) : Bool :=
  let deliverable := (m.kernel.currentTask a.core).any fun t =>
    (m.kernel.tcb t).aux.signals.hasDeliverableSignal
  match m.pc a.core, a.call with
  | .checkPendingSignals, _ => deliverable
  | _, .checkPendingSignals => deliverable
  | _, .sleep _ => true
  | _, .exit _ => true
  | _, _ => (m.blocksOn a).isSome

/-- Such an action is not taken by the task in the idle slot of the core. -/
def Machine.leavesSlot (m : Machine N) (a : Action N) : Bool :=
  !m.parks a || (m.kernel.cpuSchedulers a.core).idleSlot ≠ m.kernel.currentTask a.core

structure Machine.Resumable (m : Machine N) : Prop extends m.Safe where
  idle : m.kernel.board.IdleSound

theorem slot_ne_of_leavesSlot (hok : m.leavesSlot a) (hparks : m.parks a = true) (t : TaskPtr)
    (ht : m.kernel.board.running a.core = some t) : m.kernel.board.slot a.core ≠ some t := by
  unfold Machine.leavesSlot at hok
  rw [hparks, Bool.not_true, Bool.false_or, decide_eq_true_eq] at hok
  intro hslot
  exact hok (hslot.trans ht.symm)

theorem deliverable_of_checkPendingSignals {signum : ℕ} {code : ℤ}
    (h : checkPendingSignals c s = ((signum, some code), kernel)) :
    ((s.currentTask c).any fun t => (s.tcb t).aux.signals.hasDeliverableSignal) = true := by
  unfold checkPendingSignals at h
  cases hcur : s.currentTask c with
  | none =>
    rw [hcur] at h
    cases h
  | some t =>
    rw [hcur] at h
    rw [Option.any_some]
    by_contra hno
    rw [Bool.not_eq_true] at hno
    dsimp only at h
    rw [hno, Bool.not_false, Bool.true_or, if_pos rfl] at h
    cases h

theorem Scans.blocksOn {args : WaitArgs} {order : List TaskPtr} (h : Scans m a args t order)
    (hnone : waitScan m.kernel (m.kernel.tcb t) args order false = .noneYet)
    (hhang : args.noHang = false) : m.blocksOn a = some (.of .childExit (m.kernel.tcb t).pid) := by
  have hscan : m.scan a = some (args, .noneYet) := by
    unfold Machine.scan
    rw [h.call, h.pc, h.current]
    dsimp
    rw [hnone]
  unfold Machine.blocksOn
  rw [h.call, hscan, h.current]
  dsimp only
  rw [hhang]
  rfl

theorem parks_of_exit {code : ℤ}
    (h : (a.call = .exit code ∧ m.pc a.core = .task ∧ kernel = m.kernel) ∨
      (ChecksSignals m a ∧
        ∃ signum, checkPendingSignals a.core m.kernel = ((signum, some code), kernel))) :
    m.parks a = true ∧ kernel.board = m.kernel.board := by
  refine ⟨?_, (polled_of_exit h).silent.board⟩
  unfold Machine.parks
  obtain ⟨hcall, hpc, rfl⟩ | ⟨hchecks, signum, hsignal⟩ := h
  · rw [hcall, hpc]
  obtain ⟨hcall, hpc⟩ | hpc := hchecks
  · rw [hcall, hpc]
    exact deliverable_of_checkPendingSignals hsignal
  · rw [hpc]
    exact deliverable_of_checkPendingSignals hsignal

/-- What a step does to the board. -/
inductive BoardStep (m : Machine N) (a : Action N) (b' : Board N) : Prop where
  | arrivals : Arrivals m.kernel.board b' → BoardStep m a b'
  | parks : m.parks a → AtMostMove a.core m.kernel.board b' → BoardStep m a b'
  | schedule {k} : m.pc a.core = .schedule k → b' = (schedule a.core m.kernel).2.board →
      BoardStep m a b'
  | steal {source i t} : Steal source i t m.kernel.board b' → BoardStep m a b'
  | start : m.pc a.core = .off → b' = m.kernel.board.start a.core → BoardStep m a b'

theorem next_board (h : m.Safe) (hs : next A al tick m a = some m') :
    BoardStep m a m'.kernel.board := by
  have same : ∀ {s : State N}, s.board = m.kernel.board → BoardStep m a s.board := by
    intro s hb
    rw [hb]
    exact .arrivals .refl
  cases next_exec hs with
  | pass _ _ _ hk _ | waitReturn _ _ hk _ _ | select _ _ hk _ _ | switchTo _ hk _ _ _ _ =>
    exact same (by rw [hk])
  | addTask _ _ hst hk _ _ =>
    have ha := admitted_addTask A a.core (s := m.kernel) (.refl _) hst
    rw [hk]
    exact .arrivals ha.arrivals
  | @clone flags _ _ hk _ _ =>
    rw [hk]
    obtain hsilent | ⟨parent, -, ha⟩ := clone_spec A al a.core flags m.kernel
    · exact same hsilent.board
    · exact .arrivals ha.arrivals
  | tickUpdate _ _ hk _ _ =>
    rw [hk]
    exact .arrivals (tickUpdate_quiet a.core m.kernel).arrivals
  | @sleep t ms hcall hpc hcur hk _ _ =>
    have hparks : m.parks a = true := by
      unfold Machine.parks
      rw [hcall, hpc]
    obtain ⟨hcurrent, hrun⟩ := runningCurrent_eq_some hcur
    rw [hk]
    exact .parks hparks (sleep_move tick ms hcurrent hrun)
  | @block t r hcall hpc hcur hk _ _ =>
    have hparks : m.parks a = true := by
      unfold Machine.parks Machine.blocksOn
      rw [hcall, hpc]
      rfl
    obtain ⟨hcurrent, hrun⟩ := runningCurrent_eq_some hcur
    rw [hk]
    exact .parks hparks (block_move hcurrent hrun r)
  | @waitBlock t args order hscan hcur hnone hhang hk _ _ =>
    have hparks : m.parks a = true := by
      unfold Machine.parks
      rw [hscan.pc, hscan.call, hscan.blocksOn hnone hhang]
      rfl
    obtain ⟨hcurrent, hrun⟩ := runningCurrent_eq_some hcur
    rw [hk]
    exact .parks hparks (block_move hcurrent hrun _)
  | @reap t _ hk _ _ =>
    rw [hk]
    exact same (reap_spec A t m.kernel).1
  | @exit t code kernel hsource hcur hk _ _ =>
    obtain ⟨hparks, hboard⟩ := parks_of_exit hsource
    obtain ⟨hcurrent, hrun⟩ := runningCurrent_eq_some hcur
    have hmove := exit_move code hcurrent hrun
    rw [hboard, ← hk] at hmove
    exact .parks hparks (.single hmove)
  | signal _ hsignal hk _ _ =>
    rw [hk]
    exact same (checkPendingSignals_polled hsignal).silent.board
  | @sendSignal pid signum _ _ _ _ hk _ _ _ _ =>
    rw [hk]
    exact same (sendSignal_silent pid signum m.kernel).board
  | schedule hpc hk _ _ =>
    exact .schedule hpc (by rw [hk])
  | @wakeup r i _ hi _ hk _ _ =>
    rw [hk]
    exact .arrivals (wakeup_quiet h.inv ⟨i, hi⟩ r).arrivals
  | @wakeupOne r i hi _ hk _ _ =>
    rw [hk]
    exact .arrivals (wakeupOne_quiet h.inv ⟨i, hi⟩ r).arrivals
  | @balance source _ _ hk _ _ =>
    rw [hk]
    obtain hb | ⟨t, hsteal⟩ | ⟨t, -, hsteal⟩ := balance_board h.inv a.core source
    · exact same hb
    all_goals exact .steal hsteal
  | init _ hpc hk _ _ _ _ =>
    exact .start hpc (h.init_board hpc hk).1

theorem Machine.Resumable.step (h : m.Resumable) (hok : m.leavesSlot a)
    (hs : next A al tick m a = some m') : m'.Resumable := by
  refine ⟨h.toSafe.step (next_step h.toSafe hs), ?_⟩
  cases next_board h.toSafe hs with
  | arrivals ha => exact h.idle.arrivals h.inv ha
  | parks hparks hmove => exact h.idle.atMostMove h.inv hmove (slot_ne_of_leavesSlot hok hparks)
  | schedule hpc hb =>
    obtain ⟨current, hcur⟩ := h.current hpc
    obtain ⟨next, s₁, -, hdispatch, -, -, hsound⟩ := chosen_spec h.inv h.idle hcur
    rw [hb, hdispatch]
    exact hsound
  | steal hsteal => exact h.idle.steal h.inv hsteal
  | start _ hb =>
    rw [hb]
    exact h.idle.start h.inv

theorem Machine.Initial.resumable (h : m.Initial) : m.Resumable := by
  have hsafe := h.safe
  obtain ⟨memory, rfl⟩ := h
  refine ⟨hsafe, ?_, ?_⟩
  · intro c t hslot
    cases hslot
  · intro i j t _ hi _
    exact absurd (hsafe.inv.created hi) (Nat.not_lt_zero t)

/-! ## Runs -/

/-- In every run in which the task in a core's idle slot does not sleep, block or end, the task that
`Schedule` makes the running task was ready right before, and is running right after. Before the
call it was ready too, or it was the running task. For the source this supposes that no control
block reuses an address and that `AddTask` gets no pid of the table. -/
theorem schedule_resumes_ready (A : CpuIo) (al : Allocator A) (tick : ℕ) {m : Machine N}
    (h : (system A al tick).ReachableBy (fun m a => m.leavesSlot a) m) {c : N.Core} {k : Resume}
    (hpc : m.pc c = .schedule k) :
    ∃ next s, chosen c m.kernel = some (next, s) ∧ (s.tcb next).status = .ready ∧
      ((schedule c m.kernel).2.tcb next).status = .running ∧
      (schedule c m.kernel).2.currentTask c = some next ∧
      ((m.kernel.tcb next).status = .ready ∨
        m.kernel.currentTask c = some next ∧ (m.kernel.tcb next).status = .running) := by
  have hm : m.Resumable := h.invariant (P := Machine.Resumable)
    (fun _ hm => Machine.Initial.resumable hm)
    fun _ _ _ hm hok hs => hm.step hok hs
  obtain ⟨current, hcur⟩ := hm.current hpc
  obtain ⟨next, s, hpick, hdispatch, hready, hbefore, -⟩ := chosen_spec hm.inv hm.idle hcur
  obtain ⟨hrunning, hcurrent⟩ := dispatch_running (c := c) hready
  rw [← hdispatch] at hrunning hcurrent
  refine ⟨next, s, chosen_of_pickNext hcur hpick, hready, hrunning, hcurrent, ?_⟩
  obtain hbefore | ⟨rfl, hrun⟩ := hbefore
  · exact .inl hbefore
  · exact .inr ⟨hcur, hrun⟩

/-- Task 4 runs on core 0 and blocks, so that the idle task is next. -/
theorem schedule_resumes_ready_idle : ∃ m : Machine dualCore,
    (system sv39 (bump 5) 1000).ReachableBy (fun m a => m.leavesSlot a) m ∧
      m.pc cpu0 = .schedule .task ∧ (m.kernel.tcb 4).status = .blocked ∧
      ∃ next, ((schedule cpu0 m.kernel).2.tcb next).status = .running ∧
        (schedule cpu0 m.kernel).2.currentTask cpu0 = some next := by
  obtain ⟨m, hm, hp⟩ := dualCore_reaches (fun m a => m.leavesSlot a) (bootBoth ++ blockOnCore0)
    (fun m => m.pc cpu0 = .schedule .task ∧ (m.kernel.tcb 4).status = .blocked) (by decide)
  obtain ⟨next, s, -, -, hrunning, hcurrent, -⟩ :=
    schedule_resumes_ready sv39 (bump 5) 1000 hm hp.1
  exact ⟨m, hm, hp.1, hp.2, next, hrunning, hcurrent⟩

/-- The operations that decide which tasks the cores run. -/
def Call.isScheduling : Call → Bool
  | .initCurrentCore | .addTask _ | .schedule | .tickUpdate | .sleep _ | .block _ | .wakeup _
  | .exit _ | .step _ => true
  | _ => false

/-- A task of policy `kIdle` runs on core 0 and exits. It is still in the slot of the idle scheduler,
so that it is resumed. -/
theorem exited_task_resumed : ¬ ∀ m : Machine dualCore,
    (system sv39 (bump 5) 1000).ReachableBy
      (fun m a => m.undisturbed a && a.call.isScheduling) m →
      ∀ c k next s, m.pc c = .schedule k → chosen c m.kernel = some (next, s) →
        (s.tcb next).status = .ready ∧ ((schedule c m.kernel).2.tcb next).status = .running := by
  intro hall
  obtain ⟨m, hm, hpc, hchosen⟩ := dualCore_reaches
    (fun m a => m.undisturbed a && a.call.isScheduling)
    (bootBoth ++ [⟨cpu0, .addTask { policy := .idle }⟩, ⟨cpu0, .schedule⟩, goOn cpu0, goOn cpu0,
      ⟨cpu0, .exit 0⟩])
    (fun m => m.pc cpu0 = .schedule .exit ∧
      (chosen cpu0 m.kernel).any fun (next, s) => (s.tcb next).status = .exited) (by decide)
  cases hnext : chosen cpu0 m.kernel with
  | none =>
    rw [hnext] at hchosen
    cases hchosen
  | some pair =>
    obtain ⟨next, s⟩ := pair
    rw [hnext, Option.any_some, decide_eq_true_eq] at hchosen
    have hready := (hall m hm cpu0 .exit next s hpc hnext).1
    rw [hchosen] at hready
    cases hready

end SimpleKernel.TaskManager
