import SimpleKernel.Verification.Task.Aside
import SimpleKernel.Verification.Task.Sections

/-! The steps of the machine, by what they do to the board and to the program counters. All
invariants of the machine are proved over this list of cases. -/

namespace SimpleKernel.TaskManager

open Function
open VirtualMemory (CpuIo Allocator)

variable {N : CoreCount} {m : Machine N} {c : N.Core} {k : Resume}

/-! ## Program counters -/

def Pc.isPlain : Pc N → Bool
  | .off | .switchTo .. | .reap _ => false
  | _ => true

def Pc.isSwitch : Pc N → Bool
  | .switchTo .. => true
  | _ => false

def Pc.isSettled : Pc N → Bool
  | .schedule _ | .wakeup _ _ true => false
  | _ => true

theorem Pc.isSwitch_of_isPlain {p : Pc N} (h : p.isPlain) : p.isSwitch = false := by
  cases p <;> first | rfl | cases h

theorem Resume.isPlain_pc (k : Resume) : (k.pc : Pc N).isPlain := by
  cases k <;> rfl

theorem Resume.isSettled_pc (k : Resume) : (k.pc : Pc N).isSettled := by
  cases k <;> rfl

/-! ## What an action is about to do -/

namespace Machine

def scan (m : Machine N) (a : Action N) : Option (WaitArgs × Scan) :=
  match a.call, m.pc a.core with
  | .step order, .wait args => (m.kernel.currentTask a.core).map fun t =>
    (args, waitScan m.kernel (m.kernel.tcb t) args order false)
  | _, _ => none

def blocksOn (m : Machine N) (a : Action N) : Option ResourceId :=
  match a.call with
  | .block resourceId => some resourceId
  | _ =>
    match m.scan a, m.kernel.currentTask a.core with
    | some (args, .noneYet), some t =>
      if args.noHang then none else some (.of .childExit (m.kernel.tcb t).pid)
    | _, _ => none

/-- The action does not overflow the map of the blocked groups. -/
def Fits (m : Machine N) (a : Action N) : Prop :=
  ∀ r, m.blocksOn a = some r → m.kernel.HasRoom a.core r

def newTask (m : Machine N) (a : Action N) : Option (Pid × SchedPolicy × N.Core) :=
  match a.call with
  | .addTask task =>
    some (assignedPid m.kernel task, task.policy, targetCore a.core task.aux.cpuAffinity)
  | .clone _ => (m.kernel.currentTask a.core).map fun parent =>
    (m.kernel.pidAllocator, (m.kernel.tcb parent).policy, a.core)
  | _ => none

end Machine

/-- Core `c` goes on with its operation, and the other cores take no step meanwhile. -/
def Alone (A : CpuIo) (al : Allocator A) (tick : ℕ) (c : N.Core) : Machine N → Machine N → Prop :=
  Relation.ReflTransGen fun m m' => next A al tick m ⟨c, .step []⟩ = some m'

theorem next_goto (A : CpuIo) (al : Allocator A) (tick : ℕ) (m : Machine N) (c : N.Core) (p : Pc N) :
    next A al tick (m.goto c p) ⟨c, .step []⟩ = pcStep A (m.goto c p) c [] p := by
  simp [next, Machine.goto]

theorem goto_goto (m : Machine N) (c : N.Core) (p q : Pc N) :
    (m.goto c p).goto c q = m.goto c q := by
  simp [Machine.goto]

/-! ## The cases -/

/-- A step after which the core is at `p`, in an operation that does not choose the task to
run. Where the current task has not given up the core, only other tasks are concerned. -/
structure Plain (m : Machine N) (a : Action N) (m' : Machine N) (p : Pc N) : Prop where
  source : (m.pc a.core).isPlain
  target : p.isPlain
  pc : m'.pc = update m.pc a.core p
  executing : m'.executing = m.executing
  change : Change a.core m.kernel m'.kernel
  running : m'.kernel.currentTask = m.kernel.currentTask
  settled : p.isSettled → (m.pc a.core).isSettled ∧ Arrivals m.kernel.board m'.kernel.board
  asserts : m.Fits a → m'.kernel.assertFailed = m.kernel.assertFailed
  groups : ∀ {ids : N.Core → ResourceId → Prop}, (∀ r, m.blocksOn a = some r → ids a.core r) →
    m.kernel.GroupsIn ids → m'.kernel.GroupsIn ids

/-- The critical section of `Schedule`. -/
structure Schedules (m : Machine N) (a : Action N) (m' : Machine N) (k : Resume)
    (current next : TaskPtr) : Prop where
  source : m.pc a.core = .schedule k
  before : m.kernel.currentTask a.core = some current
  effect : Effect a.core m.kernel m'.kernel
  after : m'.kernel.currentTask a.core = some next
  status : m'.kernel.board.status next = .running ∨ m'.kernel.board.policy next = .idle
  executing : m'.executing = m.executing
  pc : m'.pc = update m.pc a.core (if current = next then k.pc else .switchTo current next k)
  groups : m'.kernel.groups = m.kernel.groups

/-- `AddTask` or `Clone`. -/
structure Admits (A : CpuIo) (al : Allocator A) (m : Machine N) (a : Action N) (m' : Machine N)
    (pid : Pid) (policy : SchedPolicy) (target : N.Core) : Prop where
  newTask : m.newTask a = some (pid, policy, target)
  origin : (∃ task, a.call = .addTask task ∧
      m'.kernel = addTask A a.core m.kernel.nextTask (m.kernel.create task)) ∨
    ∃ flags, a.call = .clone flags ∧ m'.kernel = (clone A al a.core flags m.kernel).2
  admitted : Admitted m.kernel m'.kernel pid policy target
  source : m.pc a.core = .task
  pc : m'.pc = m.pc
  executing : m'.executing = m.executing
  groups : m'.kernel.groups = m.kernel.groups

inductive Step (A : CpuIo) (al : Allocator A) (m : Machine N) (a : Action N) : Machine N → Prop where
  | plain {m' p} : Plain m a m' p → Step A al m a m'
  | schedule {m' k current next} : Schedules m a m' k current next → Step A al m a m'
  | switchTo {m' current next k p} : m.pc a.core = .switchTo current next k → p.isPlain →
      p.isSettled → m'.kernel = m.kernel →
      m'.executing = update m.executing a.core (some next) →
      m'.pc = update m.pc a.core p → Step A al m a m'
  | balance {source needPreempt} : m.pc a.core = .balance source needPreempt →
      Step A al m a
        ({ m with kernel := balance a.core source m.kernel }.goto a.core (.preempt needPreempt))
  | select {args current t} : m.pc a.core = .wait args →
      m.kernel.currentTask a.core = some current → t ∈ m.kernel.tasks →
      pidMatch (m.kernel.tcb current) (m.kernel.tcb t) args.pid → isDead (m.kernel.tcb t).status →
      Step A al m a (m.goto a.core (.reap t))
  | reap {m' t} : m.pc a.core = .reap t → m'.kernel = reap A t m.kernel →
      m'.executing = m.executing → m'.pc = update m.pc a.core .task → Step A al m a m'
  | enter {m' pid policy target} : Admits A al m a m' pid policy target → Step A al m a m'
  | init {m'} : m.pc a.core = .off → m'.kernel = initCurrentCore a.core m.kernel →
      m'.executing = update m.executing a.core (m'.kernel.currentTask a.core) →
      m'.pc = update m.pc a.core .task → Step A al m a m'

/-! ## The invariant of every run -/

/-- The board is in order, and the task that a core executes differs from its running task
only between `Schedule` and `switch_to`. -/
structure Machine.Safe (m : Machine N) : Prop where
  inv : m.kernel.board.Inv
  off : ∀ c, m.pc c = .off ↔ ¬ m.kernel.board.online c
  switching : ∀ {c current next k}, m.pc c = .switchTo current next k →
    m.executing c = some current ∧ m.kernel.currentTask c = some next
  executing : ∀ {c}, (m.pc c).isSwitch = false → m.executing c = m.kernel.currentTask c
  created : ∀ {c t}, m.executing c = some t → t < m.kernel.nextTask

theorem Machine.Safe.online (h : m.Safe) (hpc : m.pc c ≠ .off) : m.kernel.board.online c :=
  not_not.mp fun hoff => hpc ((h.off c).mpr hoff)

theorem Machine.Safe.schedulers_eq_none (h : m.Safe)
    (hpc : m.pc c = .off) : (m.kernel.cpuSchedulers c).schedulers = none := by
  simpa using (h.off c).mp hpc

theorem Machine.Safe.init_board (h : m.Safe) (hpc : m.pc c = .off) {s : State N}
    (hk : s = initCurrentCore c m.kernel) :
    s.board = m.kernel.board.start c ∧ s.currentTask c = some m.kernel.nextTask := by
  have hboard := initCurrentCore_board ((h.off c).mp hpc)
  rw [← hk] at hboard
  exact ⟨hboard, (congrFun (congrArg Board.running hboard) c).trans (update_self ..)⟩

theorem Machine.Safe.current (h : m.Safe)
    (hpc : m.pc c = .schedule k) : ∃ t, m.kernel.currentTask c = some t :=
  Option.isSome_iff_exists.mp (h.inv.staffed (h.online (by simp [hpc]))).2

/-! ## Every step is one of the cases -/

section Cases

variable {A : CpuIo} {al : Allocator A} {tick : ℕ} {m m' : Machine N} {a : Action N} {p : Pc N}
  {t : TaskPtr} {kernel : State N} {r : ResourceId}

section

variable (hs : (m.pc a.core).isPlain) (hp : p.isPlain) (hpc : m'.pc = update m.pc a.core p)
  (hx : m'.executing = m.executing)
include hs hp hpc hx

theorem Plain.of_quiet
    (hk : Quiet m.kernel m'.kernel) (hset : p.isSettled → (m.pc a.core).isSettled)
    (hg : ∀ {ids}, m.kernel.GroupsIn ids → m'.kernel.GroupsIn ids) : Plain m a m' p :=
  ⟨hs, hp, hpc, hx, (hk.effect a.core).toChange, hk.running, fun h => ⟨hset h, hk.arrivals⟩,
    fun _ => hk.asserts, fun _ => hg⟩

theorem Plain.of_effect
    (hk : Effect a.core m.kernel m'.kernel) (hr : m'.kernel.currentTask = m.kernel.currentTask)
    (hset : p.isSettled = false) (hg : ∀ {ids}, m.kernel.GroupsIn ids → m'.kernel.GroupsIn ids) :
    Plain m a m' p :=
  ⟨hs, hp, hpc, hx, hk.toChange, hr, fun h => absurd h (by simp [hset]), fun _ => hk.asserts,
    fun _ => hg⟩

end

theorem runningCurrent_eq_some (h : m.runningCurrent c = some t) :
    m.kernel.currentTask c = some t ∧ (m.kernel.tcb t).status = .running := by
  simpa [Machine.runningCurrent, Option.filter_eq_some_iff] using h

theorem polled_of_exit {code : ℤ}
    (h : (a.call = .exit code ∧ m.pc a.core = .task ∧ kernel = m.kernel) ∨
      (ChecksSignals m a ∧
        ∃ signum, checkPendingSignals a.core m.kernel = ((signum, some code), kernel))) :
    Polled m.kernel kernel := by
  rcases h with ⟨-, -, rfl⟩ | ⟨-, signum, hr⟩
  · exact .refl _
  · exact checkPendingSignals_polled hr

theorem Plain.of_exit {code : ℤ} (hk : Silent m.kernel kernel)
    (hg : kernel.groups = m.kernel.groups) (hs : (m.pc a.core).isPlain)
    (ht : Machine.runningCurrent { m with kernel } a.core = some t)
    (hk' : m'.kernel = (exit t code kernel).2)
    (hgoes : Goes m a m' ((exit t code kernel).1.elim (.schedule .exit) fun r => .wakeup r 0 true)) :
    ∃ p, Plain m a m' p := by
  obtain ⟨hcur, hrun⟩ := runningCurrent_eq_some ht
  obtain ⟨heffect, hrunning⟩ := exit_effect code hcur hrun
  have hgroups := (exit_aside kernel t code).groups.trans hg
  generalize exit t code kernel = result at hk' hgoes heffect hrunning hgroups
  obtain ⟨resourceId, kernel'⟩ := result
  rw [← hk'] at heffect hrunning hgroups
  refine ⟨_, .of_effect hs ?_ hgoes.pc hgoes.executing ((hk.quiet.effect a.core).trans heffect)
    (hrunning.trans hk.quiet.running) ?_ fun hn => hn.of_groups_eq hgroups⟩
  all_goals cases resourceId <;> rfl

theorem Plain.of_block (hs : (m.pc a.core).isPlain)
    (ht : m.runningCurrent a.core = some t) (hr : m.blocksOn a = some r)
    (hk : m'.kernel = block a.core t r m.kernel) (hgoes : Goes m a m' (.schedule k)) :
    Plain m a m' (.schedule k) := by
  obtain ⟨hcur, hrun⟩ := runningCurrent_eq_some ht
  obtain ⟨hchange, hrunning⟩ := block_change hcur hrun r
  refine ⟨hs, rfl, hgoes.pc, hgoes.executing, ?_, ?_, nofun, ?_, ?_⟩
  all_goals rw [hk]
  · exact hchange
  · exact hrunning
  · exact fun hf => block_asserts (hf r hr)
  · exact fun hids hn => hn.block t (hids r hr)

theorem waitScan_target {s : State N} {current : TaskControlBlock} {args : WaitArgs} {u : TaskPtr}
    {list : List TaskPtr} {found : Bool} (h : waitScan s current args list found = .target u) :
    u ∈ list ∧ pidMatch current (s.tcb u) args.pid ∧ isDead (s.tcb u).status := by
  induction list generalizing found with
  | nil =>
    rw [waitScan] at h
    split at h <;> cases h
  | cons t rest ih =>
    rw [waitScan] at h
    split at h
    · exact (ih h).imp_left (List.mem_cons_of_mem t)
    rename_i hmatch
    split at h
    · rename_i hdead
      cases h
      exact ⟨List.mem_cons_self, by simpa using hmatch, hdead⟩
    split at h
    · cases h
    · exact (ih h).imp_left (List.mem_cons_of_mem t)

theorem Pc.isPlain_of_isIdle (h : p.isIdle) : p.isPlain := by
  cases p <;> first | rfl | cases h

theorem Pc.isPlain_of_isEntry (h : p.isEntry) : p.isPlain := by
  cases p <;> first | rfl | cases h

theorem next_of_exiting {i : ℕ} (h : next A al tick m a = some m')
    (hpc : m.pc a.core = .wakeup r i true) (hi : N.val ≤ i) : m'.pc a.core = .schedule .exit := by
  obtain ⟨_, h⟩ := next_pcStep h hpc nofun nofun
  rw [pcStep, dif_neg (Nat.not_lt.mpr hi)] at h
  cases h
  exact update_self ..

theorem Goes.eq {k : State N} (hgoes : Goes m a m' p) (hk : m'.kernel = k)
    (hr : m'.result = m.result) : m' = { m with kernel := k }.goto a.core p := by
  obtain ⟨kernel, pc, executing, context, result⟩ := m'
  obtain ⟨hpc, hx, hc⟩ := hgoes
  subst hpc hx hc hk hr
  rfl

theorem schedule_step (hsafe : m.Safe) (hpc : m.pc a.core = .schedule k)
    (hk : m'.kernel = (schedule a.core m.kernel).2)
    (hgoes : Goes m a m' ((schedule a.core m.kernel).1.elim k.pc fun pair =>
      .switchTo pair.1 pair.2 k)) : Step A al m a m' := by
  obtain ⟨current, hcur⟩ := hsafe.current hpc
  obtain ⟨heffect, next, hresult, hnext, hstatus⟩ := schedule_effect hsafe.inv hcur
  have hgroups := (schedule_still m.kernel a.core).butAlarms.groups
  rw [hresult] at hgoes
  rw [← hk] at heffect hnext hstatus hgroups
  refine .schedule ⟨hpc, hcur, heffect, hnext, hstatus, hgoes.executing, ?_, hgroups⟩
  rw [hgoes.pc]
  split <;> rfl

theorem next_step (hsafe : m.Safe) (h : next A al tick m a = some m') : Step A al m a m' := by
  have htask : m.pc a.core = .task → (m.pc a.core).isPlain ∧ (m.pc a.core).isSettled :=
    fun hpc => by rw [hpc]; exact ⟨rfl, rfl⟩
  have hwait : ∀ {args}, m.pc a.core = .wait args →
      (m.pc a.core).isPlain ∧ (m.pc a.core).isSettled :=
    fun hpc => by rw [hpc]; exact ⟨rfl, rfl⟩
  have hsignals : ChecksSignals m a → (m.pc a.core).isPlain ∧ (m.pc a.core).isSettled := by
    rintro (⟨-, hpc⟩ | hpc)
    · exact htask hpc
    · rw [hpc]
      exact ⟨rfl, rfl⟩
  cases next_exec h with
  | pass hidle hentry hgoes hk =>
    refine .plain (.of_quiet (Pc.isPlain_of_isIdle hidle) (Pc.isPlain_of_isEntry hentry) hgoes.pc
      hgoes.executing (hk ▸ .refl _) (fun hset => ?_) fun hn => hk ▸ hn)
    cases hpc : m.pc a.core with
    | wakeup r i exiting =>
      cases exiting with
      | false => rfl
      | true =>
        rw [hpc] at hidle
        have hnext := next_of_exiting h hpc (of_decide_eq_true hidle)
        rw [hgoes.pc, update_self] at hnext
        rw [hnext] at hset
        cases hset
    | _ => first | rfl | (rw [hpc] at hidle; cases hidle)
  | @addTask task hcall hpc hstatus hk hgoes =>
    have hcreate : Inert (m.kernel.create task) (m.kernel.create task) := .refl _
    have hadmitted := admitted_addTask A a.core hcreate hstatus
    rw [← hk] at hadmitted
    refine .enter ⟨?_, .inl ⟨_, hcall, hk⟩, hadmitted, hpc, ?_, hgoes.executing, ?_⟩
    · rw [Machine.newTask, hcall]
      rfl
    · rw [hgoes.pc, ← hpc, update_eq_self]
    · rw [hk]
      exact (addTask_arrives m.kernel A a.core task).groups
  | @clone flags hcall hpc hk hgoes =>
    have hgroups := (clone_arrives m.kernel A al a.core flags).groups
    rcases clone_spec A al a.core flags m.kernel with hsilent | ⟨parent, hcur, hadmitted⟩
    · rw [← hk] at hsilent hgroups
      exact .plain (.of_quiet (htask hpc).1 rfl hgoes.pc hgoes.executing hsilent.quiet
        (fun _ => (htask hpc).2) fun hn => hn.of_groups_eq hgroups)
    rw [← hk] at hadmitted hgroups
    refine .enter ⟨?_, .inr ⟨flags, hcall, hk⟩, hadmitted, hpc, ?_, hgoes.executing, hgroups⟩
    · simp [Machine.newTask, hcall, hcur]
    · rw [hgoes.pc, ← hpc, update_eq_self]
  | tickUpdate _ hpc hk hgoes =>
    exact .plain (.of_quiet (htask hpc).1 rfl hgoes.pc hgoes.executing
      (hk ▸ tickUpdate_quiet a.core m.kernel) (fun _ => (htask hpc).2)
      fun hn => hn.of_groups_eq (hk ▸ (tickUpdate_still m.kernel a.core).groups))
  | @sleep t ms _ hpc ht hk hgoes =>
    obtain ⟨hcur, hrun⟩ := runningCurrent_eq_some ht
    obtain ⟨heffect, hrunning, hboard⟩ := sleep_effect tick ms hcur hrun
    have hgroups := (sleep_still m.kernel a.core t tick ms).groups
    generalize sleep tick a.core t ms m.kernel = result
      at hk hgoes heffect hrunning hboard hgroups
    obtain ⟨slept, kernel⟩ := result
    rw [← hk] at heffect hrunning hboard hgroups
    cases slept with
    | true =>
      exact .plain (.of_effect (htask hpc).1 rfl hgoes.pc hgoes.executing heffect hrunning rfl
        fun hn => hn.of_groups_eq hgroups)
    | false =>
      exact .plain (.of_quiet (htask hpc).1 rfl hgoes.pc hgoes.executing
        (.of_board_eq (hboard rfl) heffect.asserts heffect.frame) (fun _ => (htask hpc).2)
        fun hn => hn.of_groups_eq hgroups)
  | block hcall hpc ht hk hgoes =>
    refine .plain (.of_block (htask hpc).1 ht ?_ hk hgoes)
    rw [Machine.blocksOn, hcall]
  | waitBlock hscan ht hresult hhang hk hgoes =>
    refine .plain (.of_block (hwait hscan.pc).1 ht ?_ hk hgoes)
    simp [Machine.blocksOn, Machine.scan, hscan.call, hscan.pc, hscan.current, hresult, hhang]
  | waitReturn hscan _ hk hgoes =>
    exact .plain (.of_quiet (hwait hscan.pc).1 rfl hgoes.pc hgoes.executing (hk ▸ .refl _)
      (fun _ => (hwait hscan.pc).2) fun hn => hk ▸ hn)
  | select hscan hresult hk hgoes hr =>
    obtain ⟨hmem, hmatch, hdead⟩ := waitScan_target hresult
    rw [hgoes.eq hk hr]
    exact .select hscan.pc hscan.current (hscan.order.mem_iff.mp hmem) hmatch hdead
  | reap hpc hk hgoes => exact .reap hpc hk hgoes.executing hgoes.pc
  | exit horigin ht hk hgoes =>
    have hbefore := polled_of_exit horigin
    have hplain : (m.pc a.core).isPlain := by
      rcases horigin with ⟨-, hpc, -⟩ | ⟨hchecks, -⟩
      · exact (htask hpc).1
      · exact (hsignals hchecks).1
    obtain ⟨p, hp⟩ := Plain.of_exit hbefore.silent hbefore.aside.groups hplain ht hk hgoes
    exact .plain hp
  | signal hchecks hr hk hgoes =>
    have hcheck := checkPendingSignals_polled hr
    rw [← hk] at hcheck
    exact .plain (.of_quiet (hsignals hchecks).1 rfl hgoes.pc hgoes.executing hcheck.silent.quiet
      (fun _ => (hsignals hchecks).2) fun hn => hn.of_groups_eq hcheck.aside.groups)
  | @sendSignal pid signum _ p _ hpc hk hentry _ hgoes =>
    have hsilent := sendSignal_silent pid signum m.kernel
    have hgroups := (sendSignal_still m.kernel pid signum).groups
    rw [← hk] at hsilent hgroups
    exact .plain (.of_quiet (htask hpc).1 (Pc.isPlain_of_isEntry hentry) hgoes.pc hgoes.executing
      hsilent.quiet (fun _ => (htask hpc).2) fun hn => hn.of_groups_eq hgroups)
  | schedule hpc hk hgoes => exact schedule_step hsafe hpc hk hgoes
  | switchTo hpc hk hx _ hpc' =>
    exact .switchTo hpc (Resume.isPlain_pc _) (Resume.isSettled_pc _) hk hx hpc'
  | @wakeup r i exiting hi hpc hk hgoes =>
    refine .plain (.of_quiet (by rw [hpc]; rfl) rfl hgoes.pc hgoes.executing
      (hk ▸ wakeup_quiet hsafe.inv ⟨i, hi⟩ r) (fun hset => ?_) fun hn => hk ▸ hn.wakeup _ r)
    rw [hpc]
    cases exiting with
    | true => cases hset
    | false => rfl
  | @wakeupOne r i hi hpc hk hgoes =>
    refine .plain (.of_quiet (by rw [hpc]; rfl) ?_ hgoes.pc hgoes.executing
      (hk ▸ wakeupOne_quiet hsafe.inv ⟨i, hi⟩ r) (fun _ => by rw [hpc]; rfl)
      fun hn => hk ▸ hn.wakeupOne _ r)
    split <;> rfl
  | balance hpc hk hgoes hr =>
    rw [hgoes.eq hk hr]
    exact .balance hpc
  | init _ hpc hk hx _ hpc' => exact .init hpc hk hx hpc'

end Cases

/-! ## The invariant is kept -/

section Safe

variable {A : CpuIo} {al : Allocator A} {m m' : Machine N} {a : Action N} {p : Pc N}
  {c : N.Core} {x : Option TaskPtr}

section

variable (h : m.Safe) (hinv : m'.kernel.board.Inv) (hpc : m'.pc = update m.pc c p)
include h hinv hpc

theorem Machine.Safe.of_core (hx : m'.executing = update m.executing c x)
    (hrun : ∀ i, i ≠ c → m'.kernel.currentTask i = m.kernel.currentTask i)
    (honline : ∀ i, i ≠ c → (m'.kernel.board.online i ↔ m.kernel.board.online i))
    (hcreated : m.kernel.nextTask ≤ m'.kernel.nextTask)
    (hoff : p = .off ↔ ¬ m'.kernel.board.online c)
    (hswitch : ∀ {current next k}, p = .switchTo current next k →
      x = some current ∧ m'.kernel.currentTask c = some next)
    (hexec : p.isSwitch = false → x = m'.kernel.currentTask c)
    (hlt : ∀ t, x = some t → t < m'.kernel.nextTask) : m'.Safe := by
  refine ⟨hinv, fun i => ?_, fun {i current next k} hi => ?_, fun {i} hi => ?_, fun {i t} ht => ?_⟩
  · by_cases hic : i = c
    · subst hic
      rw [hpc, update_self]
      exact hoff
    · rw [hpc, update_of_ne hic, honline i hic]
      exact h.off i
  · by_cases hic : i = c
    · subst hic
      rw [hpc, update_self] at hi
      rw [hx, update_self]
      exact hswitch hi
    · rw [hpc, update_of_ne hic] at hi
      rw [hx, update_of_ne hic, hrun i hic]
      exact h.switching hi
  · by_cases hic : i = c
    · subst hic
      rw [hpc, update_self] at hi
      rw [hx, update_self]
      exact hexec hi
    · rw [hpc, update_of_ne hic] at hi
      rw [hx, update_of_ne hic, hrun i hic]
      exact h.executing hi
  · by_cases hic : i = c
    · subst hic
      rw [hx, update_self] at ht
      exact hlt t ht
    · rw [hx, update_of_ne hic] at ht
      exact (h.created ht).trans_le hcreated

theorem Machine.Safe.of_same (hx : m'.executing = m.executing)
    (hrun : m'.kernel.currentTask = m.kernel.currentTask)
    (honline : m'.kernel.board.online = m.kernel.board.online)
    (hcreated : m.kernel.nextTask ≤ m'.kernel.nextTask) (hs : m.pc c ≠ .off)
    (hsource : (m.pc c).isSwitch = false) (hp : p ≠ .off) (htarget : p.isSwitch = false) :
    m'.Safe := by
  refine h.of_core hinv hpc (x := m.executing c) (by rw [hx, update_eq_self])
    (fun i _ => by rw [hrun]) (fun i _ => by rw [honline]) hcreated ?_ ?_ ?_ ?_
  · rw [honline]
    exact iff_of_false hp (not_not.mpr (h.online hs))
  · intro current next k hk
    rw [hk] at htarget
    cases htarget
  · intro _
    rw [hrun]
    exact h.executing hsource
  · exact fun t ht => (h.created ht).trans_le hcreated

end

theorem Pc.ne_off_of_isPlain (h : p.isPlain) : p ≠ .off := by
  rintro rfl
  cases h

theorem Machine.Safe.step (h : m.Safe) (hstep : Step A al m a m') : m'.Safe := by
  cases hstep with
  | @plain _ p hp =>
    exact h.of_same (h.inv.moves hp.change.moves) hp.pc hp.executing hp.running
      hp.change.moves.online hp.change.moves.created_le (Pc.ne_off_of_isPlain hp.source)
      (Pc.isSwitch_of_isPlain hp.source) (Pc.ne_off_of_isPlain hp.target)
      (Pc.isSwitch_of_isPlain hp.target)
  | @schedule _ k current next hs =>
    have honline := h.online (c := a.core) (by simp [hs.source])
    have hsource : m.executing a.core = some current := by
      rw [h.executing (by rw [hs.source]; rfl), hs.before]
    refine h.of_core (h.inv.moves hs.effect.moves) hs.pc (x := some current)
      (by rw [hs.executing, ← hsource, update_eq_self])
      (fun i hi => hs.effect.moves.running_of_ne hi) (fun i _ => by rw [hs.effect.moves.online])
      hs.effect.moves.created_le ?_ ?_ ?_ ?_
    · rw [hs.effect.moves.online]
      refine iff_of_false ?_ (not_not.mpr honline)
      split
      · exact Pc.ne_off_of_isPlain k.isPlain_pc
      · simp
    · intro current' next' k' hk
      split at hk
      · have := Pc.isSwitch_of_isPlain (k.isPlain_pc (N := N))
        rw [hk] at this
        cases this
      · cases hk
        exact ⟨rfl, hs.after⟩
    · intro hswitch
      split at hswitch
      · rename_i hsame
        rw [hs.after, hsame]
      · cases hswitch
    · rintro t ⟨⟩
      exact (h.created hsource).trans_le hs.effect.moves.created_le
  | @switchTo _ current next k p hpc hp _ hk hx hpc' =>
    have honline := h.online (c := a.core) (by simp [hpc])
    have hnext := (h.switching hpc).2
    refine h.of_core (by rw [hk]; exact h.inv) hpc' hx (fun i _ => by rw [hk])
      (fun i _ => by rw [hk]) (by rw [hk]) ?_ ?_ ?_ ?_
    · rw [hk]
      exact iff_of_false (Pc.ne_off_of_isPlain hp) (not_not.mpr honline)
    · rintro current' next' k' rfl
      cases hp
    · intro _
      rw [hk, hnext]
    · rintro t ⟨⟩
      rw [hk]
      exact h.inv.created (.inl hnext)
  | @balance source needPreempt hpc =>
    have hb := balance_moved h.inv a.core source
    exact h.of_same hb.inv rfl rfl hb.running hb.online hb.created.ge (by simp [hpc])
      (by rw [hpc]; rfl) (by simp) rfl
  | select hpc _ _ _ _ =>
    exact h.of_same h.inv rfl rfl rfl rfl le_rfl (by simp [hpc]) (by rw [hpc]; rfl) (by simp) rfl
  | @reap _ t hpc hk hx hpc' =>
    have hboard := (reap_spec A t m.kernel).1
    rw [← hk] at hboard
    exact h.of_same (by rw [hboard]; exact h.inv) hpc' hx (congrArg Board.running hboard)
      (congrArg Board.online hboard) (congrArg Board.created hboard).ge (by simp [hpc])
      (by rw [hpc]; rfl) (by simp) rfl
  | enter ha =>
    have harrivals := ha.admitted.arrivals
    refine h.of_same (h.inv.arrivals harrivals) (c := a.core) (p := .task) ?_ ha.executing
      harrivals.running (harrivals.moves a.core).online (harrivals.moves a.core).created_le
      (by simp [ha.source]) (by rw [ha.source]; rfl) (by simp) rfl
    rw [ha.pc, ← ha.source, update_eq_self]
  | @init _ hpc hk hx hpc' =>
    obtain ⟨hboard, hself⟩ := h.init_board hpc hk
    refine h.of_core (by rw [hboard]; exact h.inv.start ((h.off _).mp hpc)) hpc' hx
      ?_ ?_ ?_ ?_ ?_ ?_ ?_
    · intro i hi
      exact (congrFun (congrArg Board.running hboard) i).trans (update_of_ne hi ..)
    · intro i hi
      rw [hboard]
      simp [hi]
    · exact (Nat.le_add_right _ 2).trans (congrArg Board.created hboard).ge
    · rw [hboard]
      exact iff_of_false (by simp) (not_not.mpr (.inl rfl))
    · simp
    · exact fun _ => rfl
    · intro t ht
      rw [hself] at ht
      cases ht
      exact (Nat.lt_add_of_pos_right Nat.two_pos).trans_le (congrArg Board.created hboard).ge

theorem board_empty (memory : VirtualMemory.Memory) (k : Container N) :
    ({ memory } : State N).board.holds k = 0 := by
  cases k <;> rfl

theorem Machine.Initial.safe (h : m.Initial) : m.Safe := by
  obtain ⟨memory, rfl⟩ := h
  have hnear : ∀ (c : N.Core) (t : TaskPtr), ¬ ({ memory } : State N).board.Near c t := by
    rintro c t (h | h | ⟨k, -, hk⟩)
    · cases h
    · cases h
    · rw [board_empty] at hk
      cases hk
  have hmem : ∀ {k : Container N} {t}, t ∉ ({ memory } : State N).board.holds k :=
    fun {k t} hk => hnear _ t (Board.near_of_mem hk)
  refine ⟨?_, fun c => iff_of_true rfl nofun, nofun, fun _ => rfl, nofun⟩
  exact
    { exclusive := ⟨fun k => by rw [board_empty]; exact Multiset.nodup_zero,
        fun hk => absurd hk hmem⟩
      status := fun hk => absurd hk hmem
      policy := fun hk => absurd hk hmem
      blockedOn := fun hk => absurd hk hmem
      slot := fun hs => absurd (.inr (.inl hs)) (hnear _ _)
      running := fun hs => by cases hs
      online := fun hn => absurd hn (hnear _ _)
      created := fun hn => absurd hn (hnear _ _)
      staffed := nofun }

end Safe

end SimpleKernel.TaskManager
