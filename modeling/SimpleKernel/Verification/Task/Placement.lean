import Mathlib.Data.Finset.Card
import SimpleKernel.Verification.Task.Destruction

/-! Whole operations keep every task in at most one place, the one that its status says. -/

namespace SimpleKernel.TaskManager

open List
open VirtualMemory (CpuIo Allocator sv39 bump)

variable {N : CoreCount} {A : CpuIo} {al : Allocator A} {tick : ℕ} {m m' : Machine N}
  {a : Action N} {s : State N} {k : Container N} {t : TaskPtr}

/-! ## Whole operations -/

def Pc.atRest (p : Pc N) : Bool := p.isSettled && !p.isSwitch

/-- All other cores are at rest. Runs in which an operation completes, with its last `Schedule`,
before the next one starts on any core are made of such steps. -/
def Machine.undisturbed (m : Machine N) (a : Action N) : Bool :=
  decide (∀ i, i ≠ a.core → (m.pc i).atRest)

instance (m : Machine N) (a : Action N) : Decidable (m.Fits a) :=
  match h : m.blocksOn a with
  | none => .isTrue fun _ hr => by rw [h] at hr; cases hr
  | some r =>
    have : Decidable (m.kernel.HasRoom a.core r) := by
      unfold State.HasRoom
      infer_instance
    decidable_of_iff (m.kernel.HasRoom a.core r) <| by
      refine ⟨fun hroom r' hr' => ?_, fun hf => hf r h⟩
      obtain rfl := Option.some.inj (h.symm.trans hr')
      exact hroom

/-! ## All containers -/

def Container.list (s : State N) : Container N → List TaskPtr
  | .ready c p => (s.cpuSchedulers c).readyQueue p
  | .sleeping c => (s.cpuSchedulers c).sleepingTasks.toList
  | .blocked c r => (s.cpuSchedulers c).waiting r

def State.containersOf (s : State N) (c : N.Core) : List (Container N) :=
  [.ready c .realTime, .ready c .normal, .ready c .idle, .sleeping c] ++
    (s.cpuSchedulers c).blockedTasks.keys.map (.blocked c)

def State.containers (s : State N) : List (Container N) :=
  (finRange N.val).flatMap s.containersOf

def State.parked (s : State N) : List TaskPtr := s.containers.flatMap (Container.list s)

theorem holds_eq_list (s : State N) (k : Container N) : s.board.holds k = k.list s := by
  cases k <;> rfl

theorem core_of_mem_containersOf {c : N.Core} (h : k ∈ s.containersOf c) : k.core = c := by
  simp only [State.containersOf, mem_append, mem_cons, not_mem_nil, or_false, mem_map] at h
  rcases h with (rfl | rfl | rfl | rfl) | ⟨r, -, rfl⟩ <;> rfl

theorem mem_containersOf (h : t ∈ k.list s) : k ∈ s.containersOf k.core := by
  cases k with
  | ready c p => cases p <;> simp [State.containersOf, Container.core]
  | sleeping c => simp [State.containersOf, Container.core]
  | blocked c r =>
    have hkey : r ∈ (s.cpuSchedulers c).blockedTasks := by
      by_contra hr
      rw [Container.list, CpuSchedData.waiting, AList.lookup_eq_none.mpr hr] at h
      cases h
    simpa [State.containersOf, Container.core] using AList.mem_keys.mp hkey

theorem mem_parked (h : t ∈ k.list s) : t ∈ s.parked :=
  mem_flatMap.mpr ⟨k, mem_flatMap.mpr ⟨k.core, mem_finRange _, mem_containersOf h⟩, h⟩

theorem State.nodup_containers (s : State N) : s.containers.Nodup := by
  refine nodup_flatMap.mpr ⟨fun c _ => ?_, (nodup_finRange _).imp ?_⟩
  · refine List.Nodup.append (by simp) ?_ (by simp [disjoint_left])
    exact (AList.keys_nodup _).map fun r r' h => by injection h
  · intro i j hij k hi hj
    exact hij ((core_of_mem_containersOf hi).symm.trans (core_of_mem_containersOf hj))

theorem mem_holds (h : t ∈ k.list s) : t ∈ s.board.holds k := by
  rw [holds_eq_list]
  exact Multiset.mem_coe.mpr h

theorem exists_of_mem_parked (h : t ∈ s.parked) : ∃ k, t ∈ s.board.holds k := by
  obtain ⟨k, -, hk⟩ := mem_flatMap.mp h
  exact ⟨k, mem_holds hk⟩

theorem Machine.Alive.lives_of_parked (h : m.Alive) (t : TaskPtr)
    (ht : t ∈ m.kernel.parked ∨ (m.kernel.tcb t).status = .running) : m.kernel.Lives t := by
  rcases ht with hparked | hrun
  · obtain ⟨k, hk⟩ := exists_of_mem_parked hparked
    exact h.lives_of_mem hk
  · exact h.lives_of_running hrun

/-! ## The invariant -/

/-- No blocked group is empty, every one is of a resource that its core may block on, and no
assertion has failed. -/
structure Machine.Grouped (ids : N.Core → ResourceId → Prop) (m : Machine N) : Prop
    extends m.Safe where
  groups : m.kernel.GroupsIn ids
  asserts : m.kernel.assertFailed = false

theorem mem_holds_of_stolen {c source : N.Core} (h : stolen c source s = some t) :
    t ∈ s.board.holds (.ready source .normal) := by
  unfold stolen at h
  split at h
  · cases h
  · rw [holds_eq_list]
    exact Multiset.mem_coe.mpr (mem_of_mem_head? (Option.filter_eq_some_iff.mp h).1)

theorem Machine.Apart.not_executing (h : m.Apart) {i j : N.Core}
    (ht : t ∈ m.kernel.board.holds (.ready i .normal)) (hj : (m.pc j).atRest) :
    m.executing j ≠ some t := by
  obtain ⟨hset, hswitch⟩ : (m.pc j).isSettled ∧ (m.pc j).isSwitch = false := by
    simpa [Pc.atRest] using hj
  rw [h.executing hswitch]
  exact h.not_current ht hset

theorem Machine.Apart.stealsSwitched (h : m.Apart) (hu : m.undisturbed a) : m.stealsSwitched a := by
  have hrest : ∀ i, i ≠ a.core → (m.pc i).atRest := of_decide_eq_true hu
  unfold Machine.stealsSwitched
  split
  · rename_i source needPreempt hpc
    cases ht : stolen a.core source m.kernel with
    | none => rfl
    | some t =>
      refine decide_eq_true fun i => h.not_executing (mem_holds_of_stolen ht) ?_
      by_cases hi : i = a.core
      · rw [hi, hpc]
        rfl
      · exact hrest i hi
  · rfl

theorem Machine.Grouped.step {ids : N.Core → ResourceId → Prop} (h : m.Grouped ids)
    (hin : ∀ r, m.blocksOn a = some r → ids a.core r) (hf : m.Fits a) (hstep : Step A al m a m') :
    m'.Grouped ids := by
  have hsafe := h.toSafe.step hstep
  cases hstep with
  | plain hp => exact ⟨hsafe, hp.groups hin h.groups, (hp.asserts hf).trans h.asserts⟩
  | schedule hs =>
    exact ⟨hsafe, h.groups.of_groups_eq hs.groups, hs.effect.asserts.trans h.asserts⟩
  | switchTo _ _ _ hk _ _ =>
    exact ⟨hsafe, by rw [hk]; exact h.groups, by rw [hk]; exact h.asserts⟩
  | @balance source _ _ =>
    exact ⟨hsafe, h.groups.of_groups_eq (balance_still m.kernel a.core source).butAlarms.groups,
      (balance_assertFailed m.kernel a.core source).trans h.asserts⟩
  | select => exact ⟨hsafe, h.groups, h.asserts⟩
  | @reap _ t _ hk _ _ =>
    refine ⟨hsafe, h.groups.of_groups_eq ?_, ?_⟩
    · rw [hk, (reap_aside m.kernel t A).groups]
    · rw [hk, (reap_spec A t m.kernel).2, h.asserts]
  | enter ha =>
    exact ⟨hsafe, h.groups.of_groups_eq ha.groups, ha.admitted.asserts.trans h.asserts⟩
  | init hpc hk _ _ =>
    have hoff := h.schedulers_eq_none hpc
    refine ⟨hsafe, h.groups.of_groups_eq ?_, ?_⟩
    · rw [hk, groups_initCurrentCore hoff]
    · rw [hk, initCurrentCore_eq hoff]
      exact h.asserts

theorem Machine.Initial.grouped (h : m.Initial) (ids : N.Core → ResourceId → Prop) :
    m.Grouped ids := by
  have hsafe := h.safe
  obtain ⟨memory, rfl⟩ := h
  exact ⟨hsafe, fun _ _ _ => nofun, rfl⟩

/-! ## Placement -/

/-- Nothing is kept twice; a task is where its status says; a running task is nowhere but on
one core; no blocked group is empty; no assertion has failed; and what is kept or runs has not been
destroyed. -/
theorem placement (A : CpuIo) (al : Allocator A) (tick : ℕ) {m : Machine N}
    (h : (system A al tick).ReachableBy
      (fun m a => m.undisturbed a ∧ m.Fits a ∧ m.freePid a) m) :
    m.kernel.parked.Nodup ∧
    (∀ c p t, t ∈ (m.kernel.cpuSchedulers c).readyQueue p →
      (m.kernel.tcb t).status = .ready ∧ (m.kernel.tcb t).policy = p) ∧
    (∀ c t, t ∈ (m.kernel.cpuSchedulers c).sleepingTasks → (m.kernel.tcb t).status = .sleeping) ∧
    (∀ c r t, t ∈ (m.kernel.cpuSchedulers c).waiting r →
      (m.kernel.tcb t).status = .blocked ∧ (m.kernel.tcb t).aux.blockedOn = r) ∧
    (∀ c t, (m.kernel.cpuSchedulers c).idleSlot = some t → (m.kernel.tcb t).policy = .idle) ∧
    (∀ t, (m.kernel.tcb t).status = .running →
      t ∉ m.kernel.parked ∧ ∃! c, m.kernel.currentTask c = some t) ∧
    (∀ c r, (m.kernel.cpuSchedulers c).blockedTasks.lookup r ≠ some []) ∧
    m.kernel.assertFailed = false ∧
    ∀ t, t ∈ m.kernel.parked ∨ (m.kernel.tcb t).status = .running → m.kernel.Lives t := by
  obtain ⟨hm, hgrouped, halive⟩ := h.invariant
    (P := fun m => m.Apart ∧ m.Grouped (fun _ _ => True) ∧ m.Alive)
    (fun _ hm => ⟨Machine.Initial.apart hm, Machine.Initial.grouped hm _, Machine.Initial.alive hm⟩)
    fun _ _ _ hm hok hs =>
      have hstep := next_step hm.1.toSafe hs
      ⟨hm.1.step (hm.1.stealsSwitched hok.1) hstep,
        hm.2.1.step (fun _ _ => trivial) hok.2.1 hstep, hm.2.2.step hok.2.2 hs⟩
  refine ⟨?_, fun c p t ht => ?_, fun c t ht => ?_, fun c r t ht => ?_, fun c t => hm.inv.slot,
    fun t ht => ⟨fun hparked => ?_, ?_⟩, fun c r hr => (hgrouped.groups c r _ hr).1 rfl,
    hgrouped.asserts, halive.lives_of_parked⟩
  · exact hm.inv.exclusive.nodup_flatMap (holds_eq_list m.kernel) m.kernel.nodup_containers
  · exact ⟨hm.inv.status (mem_holds (k := .ready c p) ht), (hm.inv.policy (mem_holds ht)).2⟩
  · exact hm.inv.status (mem_holds (k := .sleeping c) (Array.mem_toList_iff.mpr ht))
  · exact ⟨hm.inv.status (mem_holds (k := .blocked c r) ht), hm.inv.blockedOn (mem_holds ht)⟩
  · obtain ⟨k, hk⟩ := exists_of_mem_parked hparked
    exact hm.inv.free_of_running ht k hk
  · obtain ⟨c, hc⟩ := hm.inv.running ht
    exact ⟨c, hc, fun i hi => hm.homed.one (.inl (.inl hi)) (.inl (.inl hc))⟩

/-- Task 5 blocks on core 0, task 6 sleeps there, and task 4, which core 1 has woken and stolen,
runs on core 1. -/
theorem placement_stolen : ∃ m : Machine dualCore,
    (system sv39 (bump 5) 1000).ReachableBy
      (fun m a => m.undisturbed a ∧ m.Fits a ∧ m.freePid a) m ∧
      m.kernel.parked = [6, 5] ∧ m.kernel.parked.Nodup ∧
      ∃! c, m.kernel.currentTask c = some 4 := by
  obtain ⟨m, hm, hp⟩ := dualCore_reaches (fun m a => m.undisturbed a ∧ m.Fits a ∧ m.freePid a)
    (bootBoth ++ blockOnCore0 ++ [goOn cpu0, goOn cpu0] ++ stealFromCore0 ++ [goOn cpu1,
      ⟨cpu0, .addTask {}⟩, ⟨cpu0, .schedule⟩, goOn cpu0, goOn cpu0, ⟨cpu0, .block (.of .mutex 7)⟩,
      goOn cpu0, goOn cpu0, ⟨cpu0, .sleep 5⟩, goOn cpu0, goOn cpu0])
    (fun m => m.kernel.parked = [6, 5] ∧ (m.kernel.tcb 4).status = .running) (by decide)
  obtain ⟨hnodup, -, -, -, -, hrun, -, -, -⟩ := placement sv39 (bump 5) 1000 hm
  exact ⟨m, hm, hp.1, hnodup, (hrun 4 hp.2).2⟩

/-- `AddTask` destroys the task 4, whose pid the task 5 has got, and leaves it in the queue. -/
theorem destroyed_task_ready : ∃ m : Machine dualCore,
    (system sv39 (bump 5) 1000).ReachableBy (fun m a => m.undisturbed a ∧ m.Fits a) m ∧
      4 ∈ (m.kernel.cpuSchedulers cpu0).readyQueue .normal ∧ 4 ∈ m.kernel.destroyed := by
  exact dualCore_reaches (fun m a => m.undisturbed a ∧ m.Fits a)
    (bootBoth ++ [⟨cpu0, .addTask { pid := 7 }⟩, ⟨cpu0, .addTask { pid := 7 }⟩])
    (fun m => 4 ∈ (m.kernel.cpuSchedulers cpu0).readyQueue .normal ∧ 4 ∈ m.kernel.destroyed)
    (by decide)

/-- What holds in every interleaving: nothing is kept twice; a task is where its status says; a
running task is that of a core; a core executes its running task or is on its way there; and what
is kept or runs has not been destroyed. -/
theorem placement_interleaved (A : CpuIo) (al : Allocator A) (tick : ℕ) {m : Machine N}
    (h : (system A al tick).ReachableBy (fun m a => m.freePid a) m) :
    m.kernel.parked.Nodup ∧
    (∀ k t, t ∈ Container.list m.kernel k → (m.kernel.tcb t).status = k.status) ∧
    (∀ t, (m.kernel.tcb t).status = .running → ∃ c, m.kernel.currentTask c = some t) ∧
    (∀ c, m.executing c = m.kernel.currentTask c ∨ ∃ current next k,
      m.pc c = .switchTo current next k ∧ m.executing c = some current ∧
        m.kernel.currentTask c = some next) ∧
    ∀ t, t ∈ m.kernel.parked ∨ (m.kernel.tcb t).status = .running → m.kernel.Lives t := by
  have hm : m.Alive := h.invariant (P := Machine.Alive) (fun _ hm => Machine.Initial.alive hm)
    fun _ _ _ hm hok hs => hm.step hok hs
  refine ⟨?_, fun k t ht => hm.inv.status (mem_holds ht), fun t => hm.inv.running, fun c => ?_,
    hm.lives_of_parked⟩
  · exact hm.inv.exclusive.nodup_flatMap (holds_eq_list m.kernel) m.kernel.nodup_containers
  · cases hpc : m.pc c with
    | switchTo current next k => exact .inr ⟨current, next, k, rfl, hm.switching hpc⟩
    | _ => exact .inl (hm.executing (by rw [hpc]; rfl))

/-- Core 0 is on its way to task 4. -/
theorem placement_interleaved_switch : ∃ m : Machine dualCore,
    (system sv39 (bump 5) 1000).ReachableBy (fun m a => m.freePid a) m ∧
      m.executing cpu0 ≠ m.kernel.currentTask cpu0 ∧ m.kernel.parked.Nodup := by
  obtain ⟨m, hm, hp⟩ := dualCore_reaches (fun m a => m.freePid a)
    (bootBoth ++ [⟨cpu0, .addTask {}⟩, ⟨cpu0, .schedule⟩, goOn cpu0])
    (fun m => m.executing cpu0 ≠ m.kernel.currentTask cpu0) (by decide)
  exact ⟨m, hm, hp, (placement_interleaved sv39 (bump 5) 1000 hm).1⟩

/-! ## The map of the blocked groups -/

/-- `Block` is carried out, or it changes nothing: the map `blocked_tasks` does not overflow, and a
task that has not been blocked finds its control block and all containers as they were. -/
def BlocksOrKeeps (c : N.Core) (t : TaskPtr) (r : ResourceId) (s : State N) : Prop :=
  (block c t r s).assertFailed = false ∧
    (((block c t r s).tcb t).status ≠ .blocked → block c t r s = s)

theorem blocksOrKeeps_of_hasRoom {c : N.Core} {t : TaskPtr} {r : ResourceId}
    (hlive : s.assertFailed = false) (hrun : (s.tcb t).status = .running) (hroom : s.HasRoom c r) :
    BlocksOrKeeps c t r s := by
  refine ⟨(block_asserts hroom).trans hlive, ?_⟩
  have hfits : ¬ (r ∉ (s.cpuSchedulers c).blockedTasks ∧
      maxBlockedGroups ≤ (s.cpuSchedulers c).blockedTasks.keys.length) :=
    fun h => hroom.elim h.1 (Nat.not_lt.mpr h.2)
  intro hstatus
  rw [block, if_neg hfits] at hstatus ⊢
  dsimp only at hstatus ⊢
  split
  · rfl
  rename_i hshort
  rw [if_neg hshort] at hstatus
  simp [State.setWaiting, TaskControlBlock.receive, TaskControlBlock.setBlockedOn, hrun,
    TaskStatus.receive] at hstatus

/-- If the action blocks a task, it does so on one of the resources of its core. -/
def Machine.blocksIn (ids : N.Core → Finset ResourceId) (m : Machine N) (a : Action N) : Bool :=
  (m.blocksOn a).all fun r => decide (r ∈ ids a.core)

theorem Machine.Grouped.hasRoom {ids : N.Core → Finset ResourceId} {c : N.Core} {r : ResourceId}
    (h : m.Grouped fun c r => r ∈ ids c) (hcard : (ids c).card ≤ maxBlockedGroups)
    (hr : r ∈ ids c) : m.kernel.HasRoom c r := by
  by_cases hgroup : r ∈ (m.kernel.cpuSchedulers c).blockedTasks
  · exact .inl hgroup
  set keys := (m.kernel.cpuSchedulers c).blockedTasks.keys
  have hmem : ∀ {r}, r ∈ keys.toFinset → r ∈ (m.kernel.cpuSchedulers c).blockedTasks :=
    fun hkey => AList.mem_keys.mpr (mem_toFinset.mp hkey)
  have hsub : keys.toFinset ⊂ ids c := by
    refine (Finset.ssubset_iff_of_subset fun r' hr' => ?_).mpr ⟨r, hr, mt hmem hgroup⟩
    obtain ⟨list, hlist⟩ := Option.isSome_iff_exists.mp (AList.lookup_isSome.mpr (hmem hr'))
    exact (h.groups c r' list hlist).2
  refine .inr ?_
  calc keys.length = keys.toFinset.card := (toFinset_card_of_nodup (AList.keys_nodup _)).symm
    _ < (ids c).card := Finset.card_lt_card hsub
    _ ≤ maxBlockedGroups := hcard

/-- As long as the tasks block on at most 64 different resources at each core, the map has room for
the group of each of them. -/
theorem blocksOrKeeps_of_card_le (A : CpuIo) (al : Allocator A) (tick : ℕ)
    (ids : N.Core → Finset ResourceId) (hcard : ∀ c, (ids c).card ≤ maxBlockedGroups)
    {m : Machine N} (h : (system A al tick).ReachableBy (fun m a => m.blocksIn ids a) m) :
    m.kernel.assertFailed = false ∧ ∀ c t r, m.runningCurrent c = some t → r ∈ ids c →
      m.kernel.HasRoom c r ∧ BlocksOrKeeps c t r m.kernel := by
  have hm := h.invariant (P := Machine.Grouped fun c r => r ∈ ids c)
    (fun _ hm => Machine.Initial.grouped hm _) fun m a m' hm hok hs => by
      have hin : ∀ r, m.blocksOn a = some r → r ∈ ids a.core := fun r hr => by
        simpa [Machine.blocksIn, hr] using hok
      exact hm.step hin (fun r hr => hm.hasRoom (hcard _) (hin r hr)) (next_step hm.toSafe hs)
  refine ⟨hm.asserts, fun c t r ht hr => ?_⟩
  have hroom := hm.hasRoom (hcard c) hr
  exact ⟨hroom, blocksOrKeeps_of_hasRoom hm.asserts (runningCurrent_eq_some ht).2 hroom⟩

def blockApart (n : ℕ) : List (Action dualCore) :=
  ⟨cpu0, .initCurrentCore⟩ :: replicate (n + 1) ⟨cpu0, .addTask {}⟩ ++
    [⟨cpu0, .schedule⟩, goOn cpu0, goOn cpu0] ++
    (range n).flatMap fun i => [⟨cpu0, .block (.of .mutex i)⟩, goOn cpu0, goOn cpu0]

/-- The tasks of both cores block on two mutexes only. -/
theorem blocksOrKeeps_second : ∃ m : Machine dualCore,
    (system sv39 (bump 5) 1000).ReachableBy
      (fun m a => m.blocksIn (fun _ => {.of .mutex 0, .of .mutex 1}) a) m ∧
    m.runningCurrent cpu0 = some 3 ∧ BlocksOrKeeps cpu0 3 (.of .mutex 1) m.kernel := by
  obtain ⟨m, hm, hcur⟩ := dualCore_reaches
    (fun m a => m.blocksIn (fun _ => {.of .mutex 0, .of .mutex 1}) a) (blockApart 1)
    (fun m => m.runningCurrent cpu0 = some 3) (by decide)
  have hblocks := blocksOrKeeps_of_card_le sv39 (bump 5) 1000 _ (fun _ => by decide) hm
  exact ⟨m, hm, hcur, (hblocks.2 cpu0 3 _ hcur (by decide)).2⟩

/-- The mutex of the task 66 would be the group 65 of the map. -/
theorem block_overflows : ∃ m : Machine dualCore, (system sv39 (bump 5) 1000).Reachable m ∧
    m.kernel.assertFailed = false ∧ m.runningCurrent cpu0 = some 66 ∧
    ¬ BlocksOrKeeps cpu0 66 (.of .mutex 64) m.kernel := by
  obtain ⟨m, hm, hcur, hlive, hfailed⟩ := dualCore_reaches
    (fun _ _ => True) (blockApart maxBlockedGroups)
    (fun m => m.runningCurrent cpu0 = some 66 ∧ m.kernel.assertFailed = false ∧
      (block cpu0 66 (.of .mutex 64) m.kernel).assertFailed) (by decide +kernel)
  refine ⟨m, hm, hlive, hcur, ?_⟩
  rintro ⟨hasserts, -⟩
  rw [hfailed] at hasserts
  cases hasserts

end SimpleKernel.TaskManager
