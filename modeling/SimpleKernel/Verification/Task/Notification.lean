import SimpleKernel.Verification.Task.Reaping
import SimpleKernel.Verification.Task.Resumption

/-! A task that `Wait` has blocked does not miss the end of a child, provided that no `Exit`
hands a child that has ended over to a waiting init process. -/

namespace SimpleKernel.TaskManager

open Function
open VirtualMemory (CpuIo Allocator sv39 bump)

variable {N : CoreCount} {A : CpuIo} {al : Allocator A} {tick : ℕ} {m m' : Machine N}
  {a : Action N} {s : State N} {t p z : TaskPtr} {args : WaitArgs} {r r' : ResourceId}
  {s' : State N} {j c : N.Core} {current task : TaskControlBlock} {pid : Pid}

/-! ## Blocked tasks are in a list -/

def Board.Parked (b : Board N) : Prop :=
  ∀ t, b.status t = .blocked → ∃ c, t ∈ b.holds (.blocked c (b.blockedOn t))

section Parked

variable {b b' : Board N} {c : N.Core} {status : TaskStatus}

theorem Board.Parked.mono (h : b.Parked) (hs : ∀ u, b'.status u = .blocked →
    b.status u = .blocked ∧ b'.blockedOn u = b.blockedOn u ∧
      ∀ c r, u ∈ b.holds (.blocked c r) → u ∈ b'.holds (.blocked c r)) : b'.Parked := by
  intro u hu
  obtain ⟨hstatus, hon, hlists⟩ := hs u hu
  obtain ⟨i, hi⟩ := h u hstatus
  exact ⟨i, hon ▸ hlists i _ hi⟩

theorem Enqueued.lists (he : Enqueued b c t b') (i : N.Core) (r : ResourceId) :
    b'.holds (.blocked i r) = b.holds (.blocked i r) := by
  cases he with
  | push => simp [Holders.put]
  | slot | drop => rfl

section

variable (h : b.Parked)
include h

theorem Board.Parked.enqueued (he : Enqueued b c t b') : b'.Parked := by
  refine h.mono fun u hu => ⟨by rwa [he.status] at hu, by cases he <;> rfl, fun i r hi => ?_⟩
  rwa [he.lists]

theorem Board.Parked.setStatus (hs : status ≠ .blocked) : (b.setStatus t status).Parked := by
  refine h.mono fun u hu => ?_
  by_cases hut : u = t
  · subst hut
    exact absurd (by simpa using hu) hs
  · exact ⟨by simpa [hut] using hu, rfl, fun _ _ hi => hi⟩

theorem Board.Parked.create {q : SchedPolicy} {r : ResourceId}
    (hs : status ≠ .blocked) : (b.create status q r).Parked := by
  refine h.mono fun u hu => ?_
  by_cases hub : u = b.created
  · subst hub
    exact absurd (by simpa using hu) hs
  · exact ⟨by simpa [hub] using hu, by simp [hub], fun _ _ hj => hj⟩

theorem Board.Parked.arrival (hinv : b.Inv) (ha : Arrival b b') : b'.Parked := by
  cases ha with
  | @wakeBlocked i r t _ ht he =>
    refine Board.Parked.enqueued (h.mono fun u hu => ?_) he
    rw [hinv.status ht] at hu
    by_cases hut : u = t
    · subst hut
      simp [Container.status, TaskStatus.receive] at hu
    refine ⟨by simpa [hut] using hu,
      by simp [hut], fun j r' hj => ?_⟩
    exact (Holders.mem_take_of_ne hut).mpr hj
  | @wakeSleeping i t _ ht he =>
    refine Board.Parked.enqueued (h.mono fun u hu => ?_) he
    rw [hinv.status ht] at hu
    by_cases hut : u = t
    · subst hut
      simp [Container.status, TaskStatus.receive] at hu
    · refine ⟨by simpa [hut] using hu, rfl, fun j r' hj => ?_⟩
      simpa [Holders.take] using hj
  | add he =>
    refine Board.Parked.enqueued (h.create ?_) he
    decide
  | discard => exact h.create (by decide)

theorem Board.Parked.move (hinv : b.Inv) (hm : Move c b b') : b'.Parked := by
  cases hm with
  | yield _ _ he => exact Board.Parked.enqueued (h.setStatus (by simp)) he
  | @pick t q _ ht =>
    have hready : b.status t = .ready := hinv.status ht
    have hpicked : ((b.take (.ready c q) t).setRunning c t).Parked :=
      h.mono fun u hu => ⟨hu, rfl, fun i r hi => by
        simpa [Holders.take] using hi⟩
    rw [hready]
    exact hpicked.setStatus (by decide)
  | @pickIdle t _ _ =>
    refine h.mono fun u hu => ⟨?_, rfl, fun _ _ hi => hi⟩
    by_cases hut : u = t
    · subst hut
      simp only [Board.setStatus, update_self] at hu
      cases hs : b.status u <;> rw [hs] at hu <;> first | rfl | cases hu
    · simpa [hut] using hu
  | @block t r _ _ =>
    intro u hu
    by_cases hut : u = t
    · subst hut
      refine ⟨c, ?_⟩
      simp [Holders.put]
    obtain ⟨i, hi⟩ := h u (by
      simpa [hut] using hu)
    refine ⟨i, Holders.mem_put.mpr (.inr ?_)⟩
    simpa [hut] using hi
  | @sleep t _ _ =>
    have hsleep : (b.setStatus t .sleeping).Parked := h.setStatus (by simp)
    refine hsleep.mono fun u hu => ⟨hu, rfl, fun i r hi => ?_⟩
    simpa [Holders.put] using hi
  | exit hasParent _ _ =>
    refine h.setStatus ?_
    cases hasParent <;> decide
  | arrival ha => exact h.arrival hinv ha

theorem Board.Parked.moves (hinv : b.Inv) (hm : Moves c b b') : b'.Parked := by
  induction hm with
  | refl => exact h
  | tail hrest hstep ih => exact ih.move (hinv.moves hrest) hstep

theorem Board.Parked.steal {source i : N.Core} (hs : Steal source i t b b') : b'.Parked := by
  have htake : (b.take (.ready source .normal) t).Parked := by
    refine h.mono fun u hu => ⟨hu, rfl, fun j r hj => ?_⟩
    simpa [Holders.take] using hj
  exact htake.enqueued hs.2

end

theorem parked_next (h : m.kernel.board.Parked) (hsafe : m.Safe)
    (hs : next A al tick m a = some m') : m'.kernel.board.Parked := by
  cases (next_step hsafe hs).shift hsafe with
  | moves hm => exact h.moves hsafe.inv hm
  | requeue hsteal | steal _ _ hsteal => exact h.steal hsteal
  | start _ hb =>
    rw [hb]
    have hnew : ((m.kernel.board.create .running .idle {}).create .ready .idle {}).Parked :=
      (h.create (by decide)).create (by decide)
    exact hnew

end Parked

/-! ## Waiting tasks -/

/-- The code of the task is behind the `Block` of a `Wait` with these arguments. -/
def Machine.InWait (m : Machine N) (t : TaskPtr) (args : WaitArgs) : Prop :=
  (∃ i, m.executing i = some t ∧ (m.pc i = .schedule (.wait args) ∨
      ∃ next, m.pc i = .switchTo t next (.wait args))) ∨
    ((∀ i, m.executing i ≠ some t) ∧ m.context t = .wait args)

def Machine.Announced (m : Machine N) (r : ResourceId) (j : N.Core) : Prop :=
  ∃ i k, m.pc i = .wakeup r k true ∧ k ≤ j.val

theorem Machine.InWait.of_goes {q : Pc N} (hg : Goes m a m' q) (h : m'.InWait t args) :
    m.InWait t args ∨ m.executing a.core = some t ∧
      (q = .schedule (.wait args) ∨ ∃ next, q = .switchTo t next (.wait args)) := by
  rcases h with ⟨i, hi, hpc⟩ | ⟨hi, hc⟩
  · rw [hg.executing] at hi
    by_cases hcore : i = a.core
    · subst hcore
      rw [hg.pc, update_self] at hpc
      exact .inr ⟨hi, hpc⟩
    · rw [hg.pc, update_of_ne hcore] at hpc
      exact .inl (.inl ⟨i, hi, hpc⟩)
  · rw [hg.executing] at hi
    rw [hg.context] at hc
    exact .inl (.inr ⟨hi, hc⟩)

theorem Resume.pc_ne_schedule (k k' : Resume) : (k.pc : Pc N) ≠ .schedule k' := by
  cases k <;> simp [Resume.pc]

theorem Resume.pc_ne_switchTo (k k' : Resume) (t u : TaskPtr) :
    (k.pc : Pc N) ≠ .switchTo t u k' := by
  cases k <;> simp [Resume.pc]

theorem Machine.InWait.of_switchTo {current next : TaskPtr} {k : Resume}
    (hpc : m.pc a.core = .switchTo current next k) (hcur : m.executing a.core = some current)
    (hx : m'.executing = update m.executing a.core (some next))
    (hc : m'.context = update m.context current k)
    (hpc' : m'.pc = update m.pc a.core (update m.context current k next).pc)
    (h : m'.InWait t args) : m.InWait t args := by
  rcases h with ⟨i, hi, hi'⟩ | ⟨hi, hctx⟩
  · by_cases hcore : i = a.core
    · subst hcore
      rw [hpc', update_self] at hi'
      rcases hi' with hi' | ⟨_, hi'⟩
      · exact absurd hi' (Resume.pc_ne_schedule _ _)
      · exact absurd hi' (Resume.pc_ne_switchTo _ _ _ _)
    · rw [hx, update_of_ne hcore] at hi
      rw [hpc', update_of_ne hcore] at hi'
      exact .inl ⟨i, hi, hi'⟩
  by_cases ht : t = current
  · subst ht
    rw [hc, update_self] at hctx
    exact .inl ⟨a.core, hcur, .inr ⟨next, by rw [hpc, hctx]⟩⟩
  rw [hc, update_of_ne ht] at hctx
  refine .inr ⟨fun i => ?_, hctx⟩
  by_cases hcore : i = a.core
  · subst hcore
    rw [hcur]
    exact fun he => ht (Option.some.inj he).symm
  · have hne := hi i
    rwa [hx, update_of_ne hcore] at hne

theorem Exec.inWait (h : Exec A al tick m a m') (hsafe : m.Safe) (hw : m'.InWait t args) :
    m.InWait t args ∨ ∃ order, Scans m a args t order ∧ m.runningCurrent a.core = some t ∧
      waitScan m.kernel (m.kernel.tcb t) args order false = .noneYet ∧
      m'.kernel = TaskManager.block a.core t (.of .childExit (m.kernel.tcb t).pid) m.kernel := by
  have hgoes : ∀ {q}, Goes m a m' q → q ≠ .schedule (.wait args) →
      (∀ next, q ≠ .switchTo t next (.wait args)) → m.InWait t args := by
    intro q hg hq hq'
    rcases hw.of_goes hg with hw | ⟨-, heq | ⟨next, heq⟩⟩
    · exact hw
    · exact absurd heq hq
    · exact absurd heq (hq' next)
  cases h with
  | pass _ hq hg | sendSignal _ _ _ hq _ hg =>
    exact .inl (hgoes hg (by rintro rfl; cases hq) fun _ => by rintro rfl; cases hq)
  | addTask _ _ _ _ hg | clone _ _ _ hg | tickUpdate _ _ _ hg | block _ _ _ _ hg
  | waitReturn _ _ _ hg | select _ _ _ hg | reap _ _ hg | signal _ _ _ hg
  | wakeup _ _ _ hg | balance _ _ hg => exact .inl (hgoes hg (by simp) (by simp))
  | sleep _ _ _ _ hg | wakeupOne _ _ _ hg =>
    refine .inl (hgoes hg ?_ fun _ => ?_)
    · split <;> simp
    · split <;> simp
  | exit _ _ _ hg =>
    refine .inl (hgoes hg ?_ fun _ => ?_)
    all_goals cases (TaskManager.exit _ _ _).1 <;> simp
  | @schedule k hpc _ hg =>
    rcases hw.of_goes hg with hw | ⟨hx, hq⟩
    · exact .inl hw
    cases hr : (TaskManager.schedule a.core m.kernel).1 with
    | none =>
      rw [hr] at hq
      rcases hq with hq | ⟨_, hq⟩
      · exact absurd hq (Resume.pc_ne_schedule _ _)
      · exact absurd hq (Resume.pc_ne_switchTo _ _ _ _)
    | some pair =>
      rw [hr] at hq
      rcases hq with hq | ⟨_, hq⟩
      · cases hq
      · cases hq
        exact .inl (.inl ⟨a.core, hx, .inl hpc⟩)
  | switchTo hpc _ hx hc hpc' =>
    exact .inl (hw.of_switchTo hpc (hsafe.switching hpc).1 hx hc hpc')
  | @waitBlock u args' order hs ht hscan _ hk hg =>
    rcases hw.of_goes hg with hw | ⟨hx, hq | ⟨_, hq⟩⟩
    · exact .inl hw
    · rw [hsafe.executing (by rw [hs.pc]; rfl), hs.current] at hx
      cases hx
      cases hq
      exact .inr ⟨order, hs, ht, hscan, hk⟩
    · cases hq
  | init _ hpc hk hx hc hpc' =>
    have hnone : m.executing a.core = none := by
      cases hr : m.executing a.core with
      | none => rfl
      | some u =>
        have hrun := (hsafe.executing (by rw [hpc]; rfl)).symm.trans hr
        exact absurd (hsafe.inv.online (.inl hrun)) ((hsafe.off a.core).mp hpc)
    rcases hw with ⟨i, hi, hi'⟩ | ⟨hi, hctx⟩
    · by_cases hcore : i = a.core
      · subst hcore
        rw [hpc', update_self] at hi'
        rcases hi' with hi' | ⟨_, hi'⟩ <;> cases hi'
      rw [hx, update_of_ne hcore] at hi
      rw [hpc', update_of_ne hcore] at hi'
      exact .inl (.inl ⟨i, hi, hi'⟩)
    rw [hc] at hctx
    refine .inl (.inr ⟨fun i => ?_, hctx⟩)
    by_cases hcore : i = a.core
    · rw [hcore, hnone]
      simp
    · have hne := hi i
      rwa [hx, update_of_ne hcore] at hne

/-! ## The lists of the waiting tasks -/

theorem waiting_eq_groups (s : State N) (j : N.Core) (r : ResourceId) :
    (s.cpuSchedulers j).waiting r = ((s.groups j).lookup r).getD [] := rfl

theorem mem_waiting_block (hp : p ∈ ((block c t r s).cpuSchedulers j).waiting r') :
    p ∈ (s.cpuSchedulers j).waiting r' ∨ p = t := by
  unfold block at hp
  simp only at hp
  split at hp
  · exact .inl hp
  split at hp
  · exact .inl hp
  rw [waiting_eq_groups, lookup_setWaiting] at hp
  split at hp
  · rename_i hsame
    obtain ⟨rfl, rfl⟩ := hsame
    rcases List.mem_append.mp hp with hp | hp
    · exact .inl hp
    · exact .inr (List.mem_singleton.mp hp)
  · exact .inl hp

theorem mem_waiting_wakeup (hp : p ∈ ((wakeup c r s).cpuSchedulers j).waiting r') :
    p ∈ (s.cpuSchedulers j).waiting r' ∧ ¬ (j = c ∧ r' = r) := by
  unfold wakeup at hp
  split at hp
  · rename_i hnone
    refine ⟨hp, ?_⟩
    rintro ⟨rfl, rfl⟩
    rw [CpuSchedData.waiting, hnone] at hp
    cases hp
  rw [waiting_eq_groups, lookup_wakeupLoop] at hp
  split at hp
  · cases hp
  · rename_i hother
    exact ⟨hp, hother⟩

theorem mem_waiting_wakeupOne (hp : p ∈ ((wakeupOne c r s).2.cpuSchedulers j).waiting r') :
    p ∈ (s.cpuSchedulers j).waiting r' := by
  unfold wakeupOne at hp
  split at hp
  · exact hp
  rename_i u rest hlist
  split at hp
  · rw [waiting_eq_groups, lookup_eraseGroup, groups_wakeTask, groups_check, lookup_setWaiting] at hp
    split at hp
    · cases hp
    · exact hp
  rw [waiting_eq_groups, groups_wakeTask, groups_check, lookup_setWaiting] at hp
  split at hp
  · rename_i hsame
    obtain ⟨rfl, rfl⟩ := hsame
    rw [hlist]
    exact List.mem_cons_of_mem u hp
  · exact hp

theorem Exec.mem_waiting (h : Exec A al tick m a m') (hsafe : m.Safe)
    (hp : p ∈ (m'.kernel.cpuSchedulers j).waiting r) :
    p ∈ (m.kernel.cpuSchedulers j).waiting r ∨ (m.runningCurrent a.core = some p ∧
      (m.pc a.core = .task ∨ ∃ args, m.pc a.core = .wait args)) := by
  have hsame : ∀ {s' : State N}, m'.kernel = s' → s'.groups = m.kernel.groups →
      p ∈ (m.kernel.cpuSchedulers j).waiting r := by
    intro s' hk hg
    rw [hk] at hp
    rwa [waiting_eq_groups, hg] at hp
  cases h with
  | pass _ _ _ hk | waitReturn _ _ hk | select _ _ hk | switchTo _ hk => exact .inl (hsame hk rfl)
  | @addTask task _ _ _ hk =>
    exact .inl (hsame hk (addTask_arrives m.kernel A a.core task).groups)
  | @clone flags _ _ hk => exact .inl (hsame hk (clone_arrives m.kernel A al a.core flags).groups)
  | tickUpdate _ _ hk => exact .inl (hsame hk (tickUpdate_still m.kernel a.core).groups)
  | @sleep t ms _ _ _ hk => exact .inl (hsame hk (sleep_still m.kernel a.core t tick ms).groups)
  | @block t r' _ hpc ht hk =>
    rw [hk] at hp
    refine (mem_waiting_block hp).imp_right ?_
    rintro rfl
    exact ⟨ht, .inl hpc⟩
  | @waitBlock t args order hs ht _ _ hk =>
    rw [hk] at hp
    refine (mem_waiting_block hp).imp_right ?_
    rintro rfl
    exact ⟨ht, .inr ⟨args, hs.pc⟩⟩
  | @reap t _ hk => exact .inl (hsame hk (reap_aside m.kernel t A).groups)
  | @exit t code kernel hkernel _ hk =>
    have hbefore := (polled_of_exit hkernel).aside.groups
    exact .inl (hsame hk ((exit_aside kernel t code).groups.trans hbefore))
  | signal _ hr hk =>
    exact .inl (hsame hk (checkPendingSignals_polled hr).aside.groups)
  | @sendSignal pid signum _ _ _ _ hk =>
    exact .inl (hsame hk (sendSignal_still m.kernel pid signum).groups)
  | schedule _ hk => exact .inl (hsame hk (schedule_still m.kernel a.core).butAlarms.groups)
  | wakeup _ _ hk =>
    rw [hk] at hp
    exact .inl (mem_waiting_wakeup hp).1
  | wakeupOne _ _ hk =>
    rw [hk] at hp
    exact .inl (mem_waiting_wakeupOne hp)
  | @balance source _ _ hk =>
    exact .inl (hsame hk (balance_still m.kernel a.core source).butAlarms.groups)
  | init _ hpc hk =>
    have hnone := hsafe.schedulers_eq_none hpc
    exact .inl (hsame hk (groups_initCurrentCore hnone))

theorem announced_next (hs : next A al tick m a = some m')
    (hp : p ∈ (m'.kernel.cpuSchedulers j).waiting r) (hm : m.Announced r j) : m'.Announced r j := by
  obtain ⟨i, k, hpc, hk⟩ := hm
  by_cases hcore : i = a.core
  · subst hcore
    obtain ⟨_, hs⟩ := next_pcStep hs hpc nofun nofun
    rw [pcStep, dif_pos (Nat.lt_of_le_of_lt hk j.isLt)] at hs
    cases hs
    have hne := (mem_waiting_wakeup hp).2
    exact ⟨a.core, k + 1, update_self .., Nat.lt_of_le_of_ne hk fun he => hne ⟨Fin.ext he.symm, rfl⟩⟩
  · exact ⟨i, k, ((next_exec hs).pc_of_ne hcore).trans hpc, hk⟩

/-! ## The scan of `Wait` -/

theorem isDead_of_waitScan {order : List TaskPtr} {found : Bool}
    (h : waitScan s current args order found = .noneYet) (hz : z ∈ order)
    (hmatch : pidMatch current (s.tcb z) args.pid) : isDead (s.tcb z).status = false := by
  induction order generalizing found with
  | nil => cases hz
  | cons u rest ih =>
    rw [waitScan] at h
    rcases List.mem_cons.mp hz with rfl | hz
    · rw [if_neg (by simp [hmatch])] at h
      by_contra hd
      rw [Bool.not_eq_false] at hd
      rw [if_pos hd] at h
      cases h
    split at h
    · exact ih h hz
    split at h
    · cases h
    split at h
    · cases h
    · exact ih h hz

theorem pidMatch_congr {current' task' : TaskControlBlock}
    (hc : current'.pid = current.pid) (hg : current'.aux.pgid = current.aux.pgid)
    (ht : task'.pid = task.pid) (hp : task'.aux.parentPid = task.aux.parentPid)
    (htg : task'.aux.pgid = task.aux.pgid) :
    pidMatch current' task' pid = pidMatch current task pid := by
  simp [pidMatch, hc, hg, ht, hp, htg]

theorem parentPid_of_pidMatch
    (h : pidMatch current task pid) : task.aux.parentPid = current.pid := by
  unfold pidMatch at h
  split at h
  · simpa using h
  split at h
  · simp only [Bool.and_eq_true, beq_iff_eq] at h
    exact h.1
  split at h
  all_goals
    simp only [Bool.and_eq_true, beq_iff_eq] at h
    exact h.1

theorem pidMatch_of_ids (hp : s'.ids p = s.ids p) (hz : s'.ids z = s.ids z) :
    pidMatch (s'.tcb p) (s'.tcb z) pid = pidMatch (s.tcb p) (s.tcb z) pid :=
  pidMatch_congr (congrArg Identity.pid hp) (congrArg Identity.pgid hp) (congrArg Identity.pid hz)
    (congrArg Identity.parentPid hz) (congrArg Identity.pgid hz)

/-! ## Runs -/

/-- The task may exit: it does not lead its thread group, its parent is the init process, no
child of it has ended, or nobody waits for children of the init process. -/
def State.leavesNoZombie (s : State N) (t : TaskPtr) : Bool :=
  !(s.tcb t).isThreadGroupLeader || (s.tcb t).aux.parentPid = 1 ||
    (s.tasks.all fun z => (s.tcb z).aux.parentPid ≠ (s.tcb t).pid ||
      (z ≠ t && (s.tcb z).status ≠ .zombie)) ||
    decide (∀ i, (s.cpuSchedulers i).waiting (.of .childExit 1) = [])

def Machine.leavesNoZombie (m : Machine N) (a : Action N) : Bool :=
  (m.exiting a).all m.kernel.leavesNoZombie

/-- The `Exit` of the child that a task waits for is on its way to wake the task. -/
structure Machine.Heard (m : Machine N) : Prop extends m.Apart where
  filed : m.kernel.Filed
  parked : m.kernel.board.Parked
  heard : ∀ {j p args z}, p ∈ (m.kernel.cpuSchedulers j).waiting (.of .childExit (m.kernel.ids p).pid) →
    m.InWait p args → z ∈ m.kernel.tasks → (m.kernel.tcb z).status = .zombie →
    pidMatch (m.kernel.tcb p) (m.kernel.tcb z) args.pid →
    m.Announced (.of .childExit (m.kernel.ids p).pid) j

namespace Machine.Heard

theorem not_inWait (h : m.Heard) (hrun : m.runningCurrent a.core = some p)
    (hpc : m.pc a.core = .task ∨ ∃ args, m.pc a.core = .wait args) : ¬ m.InWait p args := by
  have hexec : m.executing a.core = some p := by
    refine (h.executing ?_).trans (runningCurrent_eq_some hrun).1
    rcases hpc with hpc | ⟨_, hpc⟩ <;> rw [hpc] <;> rfl
  rintro (⟨i, hi, hi'⟩ | ⟨hi, -⟩)
  · obtain rfl : i = a.core := h.homed.one (.inr hi) (.inr hexec)
    rcases hpc with hpc | ⟨_, hpc⟩ <;> rw [hpc] at hi' <;> rcases hi' with hi' | ⟨_, hi'⟩ <;>
      cases hi'
  · exact hi a.core hexec

theorem exit {code : ℤ} (h : m.Heard) (hok : m.leavesNoZombie a) (he : Ends m a m' t code)
    (hp : p ∈ (m.kernel.cpuSchedulers j).waiting (.of .childExit (m.kernel.ids p).pid))
    (hann : m.Announced (.of .childExit (m.kernel.ids p).pid) j →
      m'.Announced (.of .childExit (m.kernel.ids p).pid) j)
    (hw : m.InWait p args) (hz : z ∈ m.kernel.tasks) (hzombie : (m'.kernel.tcb z).status = .zombie)
    (hmatch : pidMatch (m'.kernel.tcb p) (m'.kernel.tcb z) args.pid) :
    m'.Announced (.of .childExit (m.kernel.ids p).pid) j := by
  have hnew : (m.kernel.ids t).parentPid = (m.kernel.ids p).pid → (m.kernel.ids t).parentPid ≠ 0 →
      m'.Announced (.of .childExit (m.kernel.ids p).pid) j := by
    intro hparent h0
    have hpc := he.pc h0
    rw [hparent] at hpc
    exact ⟨a.core, 0, hpc, Nat.zero_le _⟩
  have hfate : (m.kernel.endedIds t code z).fate = some .zombie := by
    have hfate' := (zombie_iff_fate m'.kernel z).mp hzombie
    rwa [he.ids] at hfate'
  have hkept : ∀ u, (m'.kernel.ids u).pid = (m.kernel.ids u).pid ∧
      (m'.kernel.ids u).pgid = (m.kernel.ids u).pgid := by
    intro u
    obtain ⟨hpid, -, hpgid, -⟩ := endedIds_kept m.kernel t code u
    rw [he.ids]
    exact ⟨hpid, hpgid⟩
  have hparent : (m'.kernel.ids z).parentPid = (m.kernel.ids p).pid :=
    (parentPid_of_pidMatch hmatch).trans (hkept p).1
  by_cases hgiven : (m.kernel.tcb t).isThreadGroupLeader ∧ z ∈ m.kernel.tasks ∧
      (m.kernel.ids z).parentPid = (m.kernel.ids t).pid
  · have hinit : (m.kernel.ids p).pid = 1 := by
      rw [he.ids, State.exitIds, if_pos hgiven] at hparent
      exact hparent.symm
    obtain ⟨hleader, -, hchild⟩ := hgiven
    simp only [Machine.leavesNoZombie, he.exiting, Option.all_some, State.leavesNoZombie, hleader,
      Bool.not_true, Bool.false_or, Bool.or_eq_true, decide_eq_true_eq, List.all_eq_true] at hok
    rcases hok with (hone | hnone) | hempty
    · exact hnew ((show (m.kernel.ids t).parentPid = 1 from hone).trans hinit.symm)
        (by simp [show (m.kernel.ids t).parentPid = 1 from hone])
    · have hzt := hnone z hz
      simp only [show (m.kernel.tcb z).aux.parentPid = (m.kernel.tcb t).pid from hchild, ne_eq,
        not_true_eq_false, false_or, Bool.and_eq_true, decide_eq_true_eq] at hzt
      rw [State.endedIds, if_neg hzt.1] at hfate
      exact absurd ((zombie_iff_fate m.kernel z).mpr hfate) hzt.2
    · rw [hinit, hempty j] at hp
      cases hp
  · have hzparent : (m'.kernel.ids z).parentPid = (m.kernel.ids z).parentPid := by
      rw [he.ids, State.exitIds, if_neg hgiven]
    by_cases hzt : z = t
    · subst hzt
      refine hnew (hzparent.symm.trans hparent) fun h0 => ?_
      rw [State.endedIds, if_pos rfl, if_pos h0] at hfate
      cases hfate
    rw [State.endedIds, if_neg hzt] at hfate
    have hsel : pidMatch (m'.kernel.tcb p) (m'.kernel.tcb z) args.pid =
      pidMatch (m.kernel.tcb p) (m.kernel.tcb z) args.pid :=
      pidMatch_congr (hkept p).1 (hkept p).2 (hkept z).1 hzparent (hkept z).2
    exact hann (h.heard hp hw hz ((zombie_iff_fate m.kernel z).mpr hfate) (hsel ▸ hmatch))

theorem step (h : m.Heard) (hsteal : m.stealsSwitched a) (hok : m.leavesNoZombie a)
    (hs : next A al tick m a = some m') : m'.Heard := by
  have hexec := next_exec hs
  have hstep := next_step h.toSafe hs
  have hfiles := hexec.files h.toSafe
  refine ⟨h.toApart.step hsteal hstep, hfiles.filed h.filed, parked_next h.parked h.toSafe hs,
    fun {j p args z} hp hw hz hzombie hmatch => ?_⟩
  rcases hexec.inWait h.toSafe hw with hwait | ⟨order, hscan, hrun, hnone, hk⟩
  · rcases hexec.mem_waiting h.toSafe hp with hlist | ⟨hrun, hpc⟩
    · have hpold : p < m.kernel.nextTask :=
        h.inv.created (Board.near_of_mem (k := .blocked j _) (Multiset.mem_coe.mpr hlist))
      have hann := announced_next hs hp
      rw [(hfiles.kept hpold).1] at hlist hann ⊢
      have hz := hfiles.mem_tasks_of_ended hz (by
        rw [(zombie_iff_fate m'.kernel z).mp hzombie]
        rfl)
      rcases hfiles.ends_or with hids | ⟨t, code, he⟩
      · have hzids := hids z (h.filed.mem_tasks hz).1
        refine hann (h.heard hlist hwait hz ?_ ?_)
        · rwa [zombie_iff_fate, ← hzids, ← zombie_iff_fate]
        · rwa [pidMatch_of_ids (hids p hpold) hzids] at hmatch
      · exact h.exit hok he hlist hann hwait hz hzombie hmatch
    · exact absurd hwait (h.not_inWait hrun hpc)
  · obtain ⟨hcur, hstatus⟩ := runningCurrent_eq_some hrun
    have hsame : SameKin m.kernel m'.kernel := by
      rw [hk]
      exact (block_still _ _ _ _).kept.sameKin
    rw [hsame.tasks] at hz
    have hdead := isDead_of_waitScan hnone (hscan.order.mem_iff.mpr hz)
      (by rwa [pidMatch_of_ids (congrFun hsame.ids p) (congrFun hsame.ids z)] at hmatch)
    rw [isDead_eq_fate, ← hsame.ids, ← isDead_eq_fate, hzombie] at hdead
    cases hdead

end Machine.Heard

theorem Machine.Initial.heard (h : m.Initial) : m.Heard := by
  have hapart := h.apart
  obtain ⟨memory, rfl⟩ := h
  refine ⟨hapart, fun p t ht => ?_, fun t ht => ?_, fun hp => ?_⟩
  · simp at ht
  · cases ht
  · cases hp

/-- In every run in which `Balance` steals switched tasks only and no `Exit` hands a zombie
over to a waiting init process, a task that is blocked in `Wait` while a child that it waits for
is a zombie will be woken: an `Exit` is on its way to the list in which the task is. For the source
this supposes that no control block reuses an address and that `AddTask` gets no pid of the
table. -/
theorem childExit_announced (A : CpuIo) (al : Allocator A) (tick : ℕ) {m : Machine N}
    (h : (system A al tick).ReachableBy (fun m a => m.stealsSwitched a ∧ m.leavesNoZombie a) m)
    {p z : TaskPtr} {args : WaitArgs} (hb : (m.kernel.tcb p).status = .blocked)
    (hr : (m.kernel.tcb p).aux.blockedOn = .of .childExit (m.kernel.tcb p).pid)
    (hw : m.InWait p args) (hz : z ∈ m.kernel.tasks) (hzombie : (m.kernel.tcb z).status = .zombie)
    (hmatch : pidMatch (m.kernel.tcb p) (m.kernel.tcb z) args.pid) :
    ∃ j, p ∈ (m.kernel.cpuSchedulers j).waiting (.of .childExit (m.kernel.tcb p).pid) ∧
      ∃ i k, m.pc i = .wakeup (.of .childExit (m.kernel.tcb p).pid) k true ∧ k ≤ j.val := by
  have hm : m.Heard := h.invariant (P := Machine.Heard) (fun _ hm => Machine.Initial.heard hm)
    fun _ _ _ hm hok hs => hm.step hok.1 hok.2 hs
  obtain ⟨j, hj⟩ := hm.parked p hb
  have hlist : p ∈ (m.kernel.cpuSchedulers j).waiting (.of .childExit (m.kernel.tcb p).pid) := by
    rw [← hr]
    exact Multiset.mem_coe.mp hj
  exact ⟨j, hlist, hm.heard hlist hw hz hzombie hmatch⟩

/-- Task 4 waits for its child, task 5, and has not left core 0 when the child exits. -/
theorem childExit_announced_parent : ∃ m : Machine dualCore,
    (system sv39 (bump 5) 1000).ReachableBy
      (fun m a => m.stealsSwitched a ∧ m.leavesNoZombie a) m ∧
      m.InWait 4 { pid := 2 } ∧ (m.kernel.tcb 5).status = .zombie ∧
      ∃ i k, m.pc i = .wakeup (.of .childExit (m.kernel.tcb 4).pid) k true := by
  obtain ⟨m, hm, hb, hr, hexec, hpc, hz, hzombie, hmatch⟩ := dualCore_reaches
    (fun m a => m.stealsSwitched a ∧ m.leavesNoZombie a)
    (parentAndChild ++ [⟨cpu0, .wait { pid := 2 }⟩, ⟨cpu0, .step [4, 5]⟩, ⟨cpu1, .exit 3⟩])
    (fun m => (m.kernel.tcb 4).status = .blocked ∧
      (m.kernel.tcb 4).aux.blockedOn = .of .childExit (m.kernel.tcb 4).pid ∧
      m.executing cpu0 = some 4 ∧ m.pc cpu0 = .schedule (.wait { pid := 2 }) ∧
      5 ∈ m.kernel.tasks ∧ (m.kernel.tcb 5).status = .zombie ∧
      pidMatch (m.kernel.tcb 4) (m.kernel.tcb 5) 2) (by decide)
  have hw : m.InWait 4 { pid := 2 } := .inl ⟨cpu0, hexec, .inl hpc⟩
  obtain ⟨j, -, i, k, hik, -⟩ := childExit_announced sv39 (bump 5) 1000 hm hb hr hw hz hzombie hmatch
  exact ⟨m, hm, hw, hzombie, i, k, hik⟩

/-- Task 5, a child of task 6, has ended, and task 4, the init process, waits for any child
when task 6 ends and leaves task 5 to it. -/
theorem orphan_not_announced : ¬ ∀ m : Machine dualCore,
    (system sv39 (bump 5) 1000).Reachable m → ∀ p z args,
      (m.kernel.tcb p).status = .blocked →
      (m.kernel.tcb p).aux.blockedOn = .of .childExit (m.kernel.tcb p).pid → m.InWait p args →
      z ∈ m.kernel.tasks → (m.kernel.tcb z).status = .zombie →
      pidMatch (m.kernel.tcb p) (m.kernel.tcb z) args.pid →
      ∃ i k, m.pc i = .wakeup (.of .childExit (m.kernel.tcb p).pid) k true := by
  intro hall
  obtain ⟨m, hm, hb, hr, hexec, hpc, hz, hzombie, hmatch, hpc'⟩ := dualCore_reaches
    (fun _ _ => True)
    (bootBoth ++ [⟨cpu0, .addTask {}⟩,
      ⟨cpu0, .addTask { aux := { parentPid := 3, cpuAffinity := 2 } }⟩,
      ⟨cpu0, .addTask { aux := { cpuAffinity := 2 } }⟩,
      ⟨cpu0, .addTask { aux := { parentPid := 1, cpuAffinity := 2 } }⟩,
      ⟨cpu0, .schedule⟩, goOn cpu0, goOn cpu0, ⟨cpu1, .schedule⟩, goOn cpu1, goOn cpu1,
      ⟨cpu1, .exit 3⟩] ++ List.replicate 5 (goOn cpu1) ++
      [⟨cpu0, .wait { pid := sizeMax }⟩, ⟨cpu0, .step [4, 5, 6, 7]⟩, ⟨cpu1, .exit 0⟩])
    (fun m => (m.kernel.tcb 4).status = .blocked ∧
      (m.kernel.tcb 4).aux.blockedOn = .of .childExit (m.kernel.tcb 4).pid ∧
      m.executing cpu0 = some 4 ∧ m.pc cpu0 = .schedule (.wait { pid := sizeMax }) ∧
      5 ∈ m.kernel.tasks ∧ (m.kernel.tcb 5).status = .zombie ∧
      pidMatch (m.kernel.tcb 4) (m.kernel.tcb 5) sizeMax ∧ m.pc cpu1 = .schedule .exit) (by decide)
  obtain ⟨i, k, hik⟩ := hall m hm 4 5 { pid := sizeMax } hb hr (.inl ⟨cpu0, hexec, .inl hpc⟩) hz
    hzombie hmatch
  have hcores : ∀ i : dualCore.Core, i = cpu0 ∨ i = cpu1 := by decide
  rcases hcores i with rfl | rfl
  · rw [hpc] at hik
    cases hik
  · rw [hpc'] at hik
    cases hik

end SimpleKernel.TaskManager
