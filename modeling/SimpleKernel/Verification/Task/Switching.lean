import SimpleKernel.Verification.Task.Homes
import SimpleKernel.Verification.Task.Steps
import SimpleKernel.Verification.VirtualMemory.Refinement

/-! Two cores never execute the same task, provided that `Balance` leaves a task alone until
the core that ran it last has switched away from it. -/

namespace SimpleKernel.TaskManager

open Function
open VirtualMemory (CpuIo Allocator sv39 bump)

variable {N : CoreCount} {A : CpuIo} {al : Allocator A} {tick : ℕ} {m m' : Machine N}
  {a : Action N} {t : TaskPtr}

/-- If the step is a `Balance` that steals a task, no core executes that task. -/
def Machine.stealsSwitched (m : Machine N) (a : Action N) : Bool :=
  match m.pc a.core with
  | .balance source _ =>
    (stolen a.core source m.kernel).all fun t => decide (∀ i, m.executing i ≠ some t)
  | _ => true

/-- Every task is at one core, and a core that has not given up its current task runs it. -/
structure Machine.Apart (m : Machine N) : Prop extends m.Safe where
  homed : m.kernel.board.Homed m.executing
  active : ∀ {c t}, (m.pc c).isSettled → m.kernel.currentTask c = some t →
    m.kernel.board.status t = .running ∨ m.kernel.board.policy t = .idle

/-- A core that has not given up its current task after a step is the one that executes `Schedule`
or `InitCurrentCore`, or it had not given it up before; and then the task is still running. -/
inductive Settles (m : Machine N) (a : Action N) (m' : Machine N) (c : N.Core) (t : TaskPtr) :
    Prop where
  | schedule {k current} : c = a.core → Schedules m a m' k current t → Settles m a m' c t
  | init : c = a.core → t = m.kernel.nextTask → m'.kernel.board.status t = .running →
      m'.kernel.board.policy t = .idle → Settles m a m' c t
  | before : (m.pc c).isSettled → m.kernel.currentTask c = some t →
      m'.kernel.board.policy t = m.kernel.board.policy t →
      (m.kernel.board.status t = .running → m'.kernel.board.status t = .running) →
      Settles m a m' c t

/-- What a step does to the board. -/
inductive Shift (m : Machine N) (a : Action N) (b' : Board N) : Prop where
  | moves : Moves a.core m.kernel.board b' → Shift m a b'
  | requeue {source t} : Steal source source t m.kernel.board b' → Shift m a b'
  | steal {source needPreempt t} : m.pc a.core = .balance source needPreempt →
      stolen a.core source m.kernel = some t → Steal source a.core t m.kernel.board b' → Shift m a b'
  | start : m.pc a.core = .off → b' = m.kernel.board.start a.core → Shift m a b'

/-! ## What a step leaves alone -/

section Frame

variable {c : N.Core} {t : TaskPtr}

variable (hstep : Step A al m a m')
include hstep

theorem Step.pc_of_ne (hc : c ≠ a.core) : m'.pc c = m.pc c := by
  cases hstep with
  | plain hp => rw [hp.pc, update_of_ne hc]
  | schedule hs => rw [hs.pc, update_of_ne hc]
  | switchTo _ _ _ _ _ hpc | reap _ _ _ hpc | init _ _ _ hpc => rw [hpc, update_of_ne hc]
  | balance | select => exact update_of_ne hc _ _
  | enter ha => rw [ha.pc]

theorem Step.currentTask_eq (h : m.Safe)
    (hc : c = a.core → (∀ k, m.pc c ≠ .schedule k) ∧ m.pc c ≠ .off) :
    m'.kernel.currentTask c = m.kernel.currentTask c := by
  cases hstep with
  | plain hp => rw [hp.running]
  | schedule hs =>
    by_cases hcore : c = a.core
    · subst hcore
      exact absurd hs.source ((hc rfl).1 _)
    · exact hs.effect.moves.running_of_ne hcore
  | switchTo _ _ _ hk => rw [hk]
  | @balance source _ _ => exact congrFun (balance_moved h.inv a.core source).running c
  | select => rfl
  | @reap _ u _ hk =>
    rw [hk]
    exact congrFun (congrArg Board.running (reap_spec A u m.kernel).1) c
  | enter ha => exact congrFun ha.admitted.arrivals.running c
  | init hpc hk =>
    by_cases hcore : c = a.core
    · subst hcore
      exact absurd hpc (hc rfl).2
    · exact (congrFun (congrArg Board.running (h.init_board hpc hk).1) c).trans
        (update_of_ne hcore _ _)

theorem Step.shift (h : m.Safe) : Shift m a m'.kernel.board := by
  have hsame : m'.kernel.board = m.kernel.board → Shift m a m'.kernel.board := by
    intro hb
    rw [hb]
    exact .moves .refl
  cases hstep with
  | plain hp => exact .moves hp.change.moves
  | schedule hs => exact .moves hs.effect.moves
  | switchTo _ _ _ hk => exact hsame (by rw [hk])
  | @balance source _ hpc =>
    rcases balance_board h.inv a.core source with hb | ⟨t, hb⟩ | ⟨t, ht, hb⟩
    · exact hsame hb
    · exact .requeue hb
    · exact .steal hpc ht hb
  | select => exact hsame rfl
  | @reap _ t _ hk => exact hsame (by rw [hk, (reap_spec A t m.kernel).1])
  | enter ha => exact .moves (ha.admitted.arrivals.moves a.core)
  | init hpc hk => exact .start hpc (h.init_board hpc hk).1

theorem Step.executing_cases (h : m.Safe) (hx : m'.executing c = some t) :
    m.executing c = some t ∨ m'.kernel.board.Near c t := by
  have hsame : m'.executing = m.executing → m.executing c = some t := fun heq => heq ▸ hx
  cases hstep with
  | plain hp => exact .inl (hsame hp.executing)
  | schedule hs => exact .inl (hsame hs.executing)
  | switchTo hpc _ _ hk hx' =>
    rw [hx'] at hx
    by_cases hc : c = a.core
    · subst hc
      rw [update_self] at hx
      rw [hk]
      exact .inr (.inl ((h.switching hpc).2.trans hx))
    · rw [update_of_ne hc] at hx
      exact .inl hx
  | balance | select => exact .inl hx
  | reap _ _ hx' => exact .inl (hsame hx')
  | enter ha => exact .inl (hsame ha.executing)
  | init _ _ hx' =>
    rw [hx'] at hx
    by_cases hc : c = a.core
    · subst hc
      rw [update_self] at hx
      exact .inr (.inl hx)
    · rw [update_of_ne hc] at hx
      exact .inl hx

theorem Step.policy_eq (h : m.Safe) (ht : t < m.kernel.nextTask) :
    m'.kernel.board.policy t = m.kernel.board.policy t := by
  cases hstep.shift h with
  | moves hm => exact hm.policy_eq ht
  | requeue hs | steal _ _ hs => exact congrFun hs.2.policy t
  | start _ hb =>
    rw [hb]
    exact (Board.start_of_lt a.core ht).2

theorem Step.status_running (h : m.Safe) (hs : m.kernel.board.status t = .running)
    (hc : m.kernel.board.Near a.core t →
      (m'.pc a.core).isSettled ∧ ∀ k, m.pc a.core ≠ .schedule k) :
    m'.kernel.board.status t = .running := by
  cases hstep with
  | plain hp =>
    by_cases hnear : m.kernel.board.Near a.core t
    · have hset := (hc hnear).1
      rw [hp.pc, update_self] at hset
      exact (hp.settled hset).2.status_running h.inv hs
    · exact hp.change.moves.status_running h.inv hs hnear
  | schedule hsched =>
    exact hsched.effect.moves.status_running h.inv hs fun hnear => (hc hnear).2 _ hsched.source
  | switchTo _ _ _ hk => rwa [hk]
  | @balance source _ _ => exact (congrFun (balance_moved h.inv a.core source).status t).trans hs
  | select => exact hs
  | @reap _ u _ hk => rwa [hk, (reap_spec A u m.kernel).1]
  | enter ha => exact ha.admitted.arrivals.status_running h.inv hs
  | init hpc hk =>
    obtain ⟨i, hi⟩ := h.inv.running hs
    have hlt : t < m.kernel.nextTask := h.inv.created (.inl hi)
    rw [(h.init_board hpc hk).1]
    exact (Board.start_of_lt a.core hlt).1.trans hs

theorem Step.near_of_lt (h : m.Safe) (ht : t < m.kernel.nextTask)
    (hn : m'.kernel.board.Near c t) : ∃ i, m.kernel.board.Near i t := by
  cases hstep.shift h with
  | moves hm => exact ⟨c, hm.near_of_lt ht hn⟩
  | requeue hs | steal _ _ hs =>
    rcases hs.2.near hn with hn | ⟨rfl, -⟩
    · exact ⟨c, Board.near_take hn⟩
    · exact ⟨_, Board.near_of_mem hs.1⟩
  | start _ hb =>
    rw [hb] at hn
    rcases Board.near_start hn with hn | ⟨-, hle, -⟩
    · exact ⟨c, hn⟩
    · exact absurd ht hle.not_gt

end Frame

theorem Step.settles (hstep : Step A al m a m') (h : m.Safe)
    (hhomed : m.kernel.board.Homed m.executing) {c : N.Core}
    (hc : (m'.pc c).isSettled) (ht : m'.kernel.currentTask c = some t) : Settles m a m' c t := by
  have hbefore : (m.pc c).isSettled → (c = a.core → m.pc c ≠ .off) → Settles m a m' c t := by
    intro hset hoff
    have hsched : ∀ k, m.pc c ≠ .schedule k := by
      intro k hk
      rw [hk] at hset
      cases hset
    have hcur : m.kernel.currentTask c = some t :=
      (hstep.currentTask_eq h fun hcore => ⟨hsched, hoff hcore⟩).symm.trans ht
    refine .before hset hcur (hstep.policy_eq h (h.inv.created (.inl hcur))) fun hs =>
      hstep.status_running h hs fun hnear => ?_
    obtain rfl : c = a.core := hhomed.one (.inl (.inl hcur)) (.inl hnear)
    exact ⟨hc, hsched⟩
  by_cases hcore : c = a.core
  · subst hcore
    cases hstep with
    | plain hp =>
      rw [hp.pc, update_self] at hc
      exact hbefore (hp.settled hc).1 fun _ => Pc.ne_off_of_isPlain hp.source
    | schedule hs =>
      obtain rfl := Option.some.inj (hs.after.symm.trans ht)
      exact .schedule rfl hs
    | switchTo hpc | balance hpc | select hpc | reap hpc =>
      exact hbefore (by rw [hpc]; rfl) (by simp [hpc])
    | enter ha => exact hbefore (by rw [ha.source]; rfl) (by simp [ha.source])
    | init hpc hk =>
      obtain ⟨hboard, hself⟩ := h.init_board hpc hk
      obtain rfl := Option.some.inj (hself.symm.trans ht)
      refine .init rfl rfl ?_ ?_
      all_goals
        rw [hboard]
        simp
  · rw [hstep.pc_of_ne hcore] at hc
    exact hbefore hc fun he => absurd he hcore

namespace Machine.Apart

theorem not_current (h : m.Apart) {i j : N.Core}
    (ht : t ∈ m.kernel.board.holds (.ready i .normal)) (hset : (m.pc j).isSettled) :
    m.kernel.currentTask j ≠ some t := by
  intro hr
  rcases h.active hset hr with hrun | hidle
  · rw [h.inv.status ht] at hrun
    cases hrun
  · rw [(h.inv.policy ht).2] at hidle
    cases hidle

theorem not_running (h : m.Apart) {i j : N.Core}
    (ht : t ∈ m.kernel.board.holds (.ready i .normal)) (hexec : m.executing j ≠ some t) :
    m.kernel.currentTask j ≠ some t := by
  by_cases hs : (m.pc j).isSwitch
  · apply h.not_current ht
    cases hpc : m.pc j <;> rw [hpc] at hs <;> first | rfl | cases hs
  · rwa [← h.executing (by simpa using hs)]

theorem homed_step (h : m.Apart) (hok : m.stealsSwitched a) (hstep : Step A al m a m') :
    m'.kernel.board.Homed m'.executing := by
  have hboard : m'.kernel.board.Homed m.executing := by
    cases hstep.shift h.toSafe with
    | moves hm => exact h.homed.moves h.inv hm
    | requeue hs => exact h.homed.requeue hs
    | @steal source _ t hpc ht hs =>
      have hexec : ∀ i, m.executing i ≠ some t := by
        simpa [Machine.stealsSwitched, hpc, ht] using hok
      exact h.homed.steal h.inv hs (fun j => h.not_running hs.1 (hexec j)) hexec
    | start hpc hb =>
      rw [hb]
      exact h.homed.start h.inv ((h.off a.core).mp hpc)
  refine hboard.mono le_rfl fun i t hi => ?_
  rcases hi with hi | hi
  · exact .inl hi
  · exact (hstep.executing_cases h.toSafe hi).symm

theorem step (h : m.Apart) (hok : m.stealsSwitched a) (hstep : Step A al m a m') : m'.Apart := by
  refine ⟨h.toSafe.step hstep, h.homed_step hok hstep, ?_⟩
  intro c t hc ht
  cases hstep.settles h.toSafe h.homed hc ht with
  | schedule _ hs => exact hs.status
  | init _ _ hs _ => exact .inl hs
  | before hset hcur hpolicy hstatus =>
    obtain hs | hp := h.active hset hcur
    · exact .inl (hstatus hs)
    · exact .inr (hpolicy.trans hp)

end Machine.Apart

theorem Machine.Initial.apart (h : m.Initial) : m.Apart := by
  have hsafe := h.safe
  obtain ⟨memory, rfl⟩ := h
  have hat : ∀ (i : N.Core) (t : TaskPtr),
      ¬ ({ memory } : State N).board.At (fun _ => none) i t := by
    rintro i t (hi | hi)
    · exact Nat.not_lt_zero t (hsafe.inv.created hi)
    · cases hi
  exact ⟨hsafe, ⟨fun hi => absurd hi (hat _ _), fun hi => absurd hi (hat _ _)⟩, nofun⟩

theorem apart_of_reachableBy
    (h : (system A al tick).ReachableBy (fun m a => m.stealsSwitched a) m) : m.Apart :=
  h.invariant (P := Machine.Apart) (fun _ hm => Machine.Initial.apart hm)
    fun _ _ _ hm hok hs => hm.step hok (next_step hm.toSafe hs)

/-- In every run in which `Balance` steals switched tasks only, no two cores execute the same
task, and no core loads the context of a task that another core still executes. For the source this
supposes that no control block reuses an address and that `AddTask` gets no pid of the table. -/
theorem switchTo_not_executing (A : CpuIo) (al : Allocator A) (tick : ℕ) {m : Machine N}
    (h : (system A al tick).ReachableBy (fun m a => m.stealsSwitched a) m) :
    (∀ i j t, m.executing i = some t → m.executing j = some t → i = j) ∧
    ∀ c current next k, m.pc c = .switchTo current next k →
      ∀ i, i ≠ c → m.executing i ≠ some next := by
  have hapart := apart_of_reachableBy h
  refine ⟨fun i j t hi hj => hapart.homed.one (.inr hi) (.inr hj), ?_⟩
  intro c current next k hpc i hic hi
  exact hic (hapart.homed.one (.inr hi) (.inl (.inl (hapart.switching hpc).2)))

/-! ## Two cores -/

def dualCore : CoreCount := ⟨2, two_le_sizeMax⟩

def cpu0 : dualCore.Core := ⟨0, by decide⟩

def cpu1 : dualCore.Core := ⟨1, by decide⟩

def powerOn : Machine dualCore :=
  { kernel := { memory := { heap := { live := fun _ => false }, entry := fun _ _ => 0 } } }

def goOn (c : dualCore.Core) : Action dualCore := ⟨c, .step []⟩

def bootBoth : List (Action dualCore) := [⟨cpu0, .initCurrentCore⟩, ⟨cpu1, .initCurrentCore⟩]

theorem dualCore_reaches (ok : Machine dualCore → Action dualCore → Prop)
    [∀ m a, Decidable (ok m a)] (acts : List (Action dualCore)) (p : Machine dualCore → Prop)
    [DecidablePred p] (h : ((system sv39 (bump 5) 1000).run ok powerOn acts).any
      (fun m => decide (p m)) = true) : ∃ m, (system sv39 (bump 5) 1000).ReachableBy ok m ∧ p m :=
  Transition.exists_of_run _ ok acts p ⟨_, rfl⟩ h

def blockOnCore0 : List (Action dualCore) :=
  [⟨cpu0, .addTask {}⟩, ⟨cpu0, .schedule⟩, goOn cpu0, goOn cpu0, ⟨cpu0, .block (.of .mutex 7)⟩]

def stealFromCore0 : List (Action dualCore) :=
  [⟨cpu1, .wakeup (.of .mutex 7)⟩, goOn cpu1, goOn cpu1, goOn cpu1,
    ⟨cpu1, .addTask { aux := { cpuAffinity := 1 } }⟩, ⟨cpu1, .balance⟩] ++
    List.replicate 5 (goOn cpu1) ++ [⟨cpu1, .schedule⟩, goOn cpu1]

/-- Core 0 has executed `Block`, but neither the critical section of the `Schedule` in it nor
its context switch. -/
theorem stolen_task_executing : ¬ ∀ m : Machine dualCore,
    (system sv39 (bump 5) 1000).Reachable m → ∀ c current next k,
      m.pc c = .switchTo current next k → ∀ i, i ≠ c → m.executing i ≠ some next := by
  intro hall
  obtain ⟨m, hm, hp⟩ := dualCore_reaches
    (fun _ _ => True) (bootBoth ++ blockOnCore0 ++ stealFromCore0)
    (fun m => m.pc cpu1 = .switchTo 2 4 .task ∧ m.executing cpu0 = some 4) (by decide)
  exact hall m hm cpu1 2 4 .task hp.1 cpu0 (by decide) hp.2

/-- When core 0 has switched to its idle task, core 1 may have task 4. -/
theorem switchTo_not_executing_stolen : ∃ m : Machine dualCore,
    (system sv39 (bump 5) 1000).ReachableBy (fun m a => m.stealsSwitched a) m ∧
      m.pc cpu1 = .switchTo 2 4 .task ∧ m.executing cpu0 ≠ some 4 := by
  obtain ⟨m, hm, hpc⟩ := dualCore_reaches (fun m a => m.stealsSwitched a)
    (bootBoth ++ blockOnCore0 ++ [goOn cpu0, goOn cpu0] ++ stealFromCore0)
    (fun m => m.pc cpu1 = .switchTo 2 4 .task) (by decide)
  have hexec := (switchTo_not_executing sv39 (bump 5) 1000 hm).2
  exact ⟨m, hm, hpc, hexec cpu1 2 4 .task hpc cpu0 (by decide)⟩

end SimpleKernel.TaskManager
