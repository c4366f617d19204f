import SimpleKernel.Verification.Task.Placement

/-! A task is only kept, run or executed by a core that its affinity mask names. -/

namespace SimpleKernel.TaskManager

open Function
open VirtualMemory (CpuIo Allocator sv39 bump)

variable {N : CoreCount} {A : CpuIo} {al : Allocator A} {tick : ℕ} {m m' : Machine N}
  {a : Action N} {s s' : State N} {c : N.Core} {source : N.Core}

/-! ## Masks -/

def State.affinity (s : State N) (t : TaskPtr) : BitVec 64 := (s.tcb t).aux.cpuAffinity

theorem Frame.affinity (h : Frame s s') (t : TaskPtr) : s'.affinity t = s.affinity t :=
  congrArg (fun assets => assets.2.1) (h.assets t)

theorem allowsCore_targetCore {affinity : BitVec 64} {i : N.Core}
    (h : affinity.getLsbD i.val = true) (c : N.Core) :
    allowsCore affinity (targetCore c affinity) = true := by
  unfold targetCore allowsCore
  rw [Bool.or_eq_true, decide_eq_true_eq]
  by_cases hall : affinity = BitVec.allOnes 64
  · exact .inl hall
  right
  rw [if_neg hall]
  cases hfind : (List.finRange N.val).find? fun i => affinity.getLsbD i.val with
  | none => exact absurd h (List.find?_eq_none.mp hfind i (List.mem_finRange i))
  | some j =>
    have hbit := List.find?_some hfind
    exact hbit

theorem allowsCore_allOnes (c : N.Core) : allowsCore (BitVec.allOnes 64) c = true := by
  unfold allowsCore
  rw [decide_eq_true rfl, Bool.true_or]

theorem getLsbD_of_allowsCore {affinity : BitVec 64} (h : allowsCore affinity c = true)
    (hc : c.val < 64) : affinity.getLsbD c.val = true := by
  unfold allowsCore at h
  rw [Bool.or_eq_true, decide_eq_true_eq] at h
  cases h with
  | inl hall => rw [hall, BitVec.getLsbD_allOnes, decide_eq_true hc]
  | inr hbit => exact hbit

theorem allowsCore_of_stolen {t : TaskPtr} (h : stolen c source s = some t) :
    allowsCore (s.affinity t) c = true := by
  unfold stolen at h
  split at h
  · cases h
  · exact (Option.filter_eq_some_iff.mp h).2

/-! ### Masks of new tasks -/

theorem assignIds_affinity (t : TaskPtr) (s : State N) (u : TaskPtr) :
    (assignIds t s).affinity u = s.affinity u := by
  obtain ⟨_, heq⟩ := assignIds_eq t s
  rw [heq]
  exact modify_tcb_read _ t _ (fun task => task.aux.cpuAffinity) (by rfl) u

theorem addTask_affinity (A : CpuIo) (c : N.Core) (t : TaskPtr) (s : State N) (u : TaskPtr) :
    (addTask A c t s).affinity u = s.affinity u := by
  rcases addTask_cases s t A c with ⟨-, heq⟩ | hstill
  · rw [heq]
    exact ((destroy_inert A t _).affinity u).trans (assignIds_affinity t s u)
  · rw [Frame.affinity hstill.kept.frame]
    exact ((insertTask_spec A t _).2.2.2.2 u).trans (assignIds_affinity t s u)

theorem reap_affinity (A : CpuIo) (t : TaskPtr) (s : State N) (u : TaskPtr) :
    (reap A t s).affinity u = s.affinity u := by
  unfold reap
  dsimp only
  split
  · rfl
  · exact (destroy_inert A _ _).affinity u

theorem clone_affinity (A : CpuIo) (al : Allocator A) (c : N.Core) (flags : BitVec 64)
    (s : State N) :
    Silent s (clone A al c flags s).2 ∨
      (∀ u < s.nextTask, (clone A al c flags s).2.affinity u = s.affinity u) ∧
        (clone A al c flags s).2.affinity s.nextTask = BitVec.allOnes 64 := by
  obtain ⟨_, hclone⟩ | ⟨parent, hcur, hpid⟩ := clone_cases A al c flags s
  · left
    rw [hclone]
    exact ⟨fun _ => rfl, fun _ => rfl, rfl⟩
  right
  obtain ⟨s₁, hs₁, hclone⟩ := clone_equipped A al flags hcur hpid
  have hinert : Inert _ _ := (withChild_inert s parent (completeFlags flags)).trans hs₁.inert
  have hcreate : ∀ u, (clone A al c flags s).2.affinity u = ((allocatePid s).2.create
      (cloneTask (s.tcb parent) s.pidAllocator (completeFlags flags))).affinity u := by
    intro u
    obtain hclone | hclone := hclone
    · rw [hclone]
      exact ((destroy_inert A s.nextTask s₁).affinity u).trans (hinert.affinity u)
    · rw [hclone, addTask_affinity]
      exact hinert.affinity u
  constructor
  · intro u hu
    rw [hcreate]
    exact congrArg (fun task => task.aux.cpuAffinity) (create_tcb_of_lt (allocatePid s).2 _ hu)
  · rw [hcreate]
    exact congrArg (fun task => task.aux.cpuAffinity) (create_tcb_self (allocatePid s).2 _)

theorem initCurrentCore_affinity (hoff : (s.cpuSchedulers c).schedulers = none) (u : TaskPtr) :
    (u < s.nextTask → (initCurrentCore c s).affinity u = s.affinity u) ∧
      (s.nextTask ≤ u → u < (initCurrentCore c s).nextTask →
        (initCurrentCore c s).affinity u = BitVec.allOnes 64) := by
  obtain ⟨-, hnext, hold, hnew⟩ := initCurrentCore_tasks hoff
  unfold State.affinity
  constructor
  · intro hu
    rw [hold u (.inl hu)]
  · intro hle hlt
    rw [hnext] at hlt
    rcases hnew u hlt hle with htcb | htcb
    · rw [htcb]
    · rw [htcb]

/-! ## The invariant -/

def Machine.Hosts (m : Machine N) (c : N.Core) (t : TaskPtr) : Prop :=
  m.kernel.board.Near c t ∨ m.executing c = some t

structure Machine.Affine (m : Machine N) : Prop extends m.Safe where
  allows : ∀ {c t}, m.Hosts c t → allowsCore (m.kernel.affinity t) c = true

/-- A new task may run on some core. -/
def Action.placeable (a : Action N) : Bool :=
  match a.call with
  | .addTask task => (List.finRange N.val).any fun i => task.aux.cpuAffinity.getLsbD i.val
  | _ => true

namespace Machine.Affine

variable {pid : Pid} {policy : SchedPolicy} {target : N.Core}

theorem lt (h : m.Safe) {t : TaskPtr} (ht : m.Hosts c t) : t < m.kernel.nextTask := by
  cases ht with
  | inl hnear => exact h.inv.created hnear
  | inr hexec => exact h.created hexec

theorem enter {t : TaskPtr} (ha : Admitted m.kernel m'.kernel pid policy target)
    (htarget : allowsCore (m'.kernel.affinity m.kernel.nextTask) target = true)
    (hn : m'.kernel.board.Near c t) :
    m.kernel.board.Near c t ∨ allowsCore (m'.kernel.affinity t) c = true := by
  cases ha.board with
  | inl hdiscard =>
    obtain ⟨r, hb⟩ := hdiscard
    rw [hb] at hn
    exact .inl hn
  | inr hadd =>
    obtain ⟨r, he⟩ := hadd
    obtain hn | ⟨rfl, rfl⟩ := he.near hn
    · exact .inl hn
    · exact .inr htarget

theorem admits (hok : a.placeable) (ha : Admits A al m a m' pid policy target) :
    (∀ t < m.kernel.nextTask, m'.kernel.affinity t = m.kernel.affinity t) ∧
      ∀ c t, m'.kernel.board.Near c t →
        m.kernel.board.Near c t ∨ allowsCore (m'.kernel.affinity t) c = true := by
  have hnew := ha.newTask
  unfold Machine.newTask at hnew
  cases ha.origin with
  | inl hadd =>
    obtain ⟨task, hcall, hk⟩ := hadd
    rw [hcall] at hnew
    obtain ⟨-, -, rfl⟩ := hnew
    have haff : ∀ t, m'.kernel.affinity t = (m.kernel.create task).affinity t := by
      intro t
      rw [hk]
      exact addTask_affinity A a.core _ _ t
    refine ⟨fun t ht => ?_, fun c t => enter ha.admitted ?_⟩
    · rw [haff t]
      exact congrArg (fun task => task.aux.cpuAffinity) (create_tcb_of_lt m.kernel task ht)
    · rw [haff, State.affinity, create_tcb_self]
      unfold Action.placeable at hok
      rw [hcall] at hok
      obtain ⟨i, -, hi⟩ := List.any_eq_true.mp hok
      exact allowsCore_targetCore hi a.core
  | inr hclone =>
    obtain ⟨flags, hcall, hk⟩ := hclone
    have hclone := clone_affinity A al a.core flags m.kernel
    rw [← hk] at hclone
    cases hclone with
    | inl hsilent =>
      refine ⟨fun t _ => hsilent.frame.affinity t, fun c t hn => .inl ?_⟩
      rwa [hsilent.board] at hn
    | inr haff =>
      refine ⟨haff.1, fun c t => enter ha.admitted ?_⟩
      rw [haff.2]
      exact allowsCore_allOnes target

section

variable (h : m.Affine)
include h

theorem of_near (hstep : Step A al m a m')
    (haff : ∀ t < m.kernel.nextTask, m'.kernel.affinity t = m.kernel.affinity t)
    (hnear : ∀ c t, m'.kernel.board.Near c t →
      m.kernel.board.Near c t ∨ allowsCore (m'.kernel.affinity t) c = true) : m'.Affine := by
  have hold : ∀ {c t}, m.Hosts c t → allowsCore (m'.kernel.affinity t) c = true := by
    intro c t ht
    rw [haff t (lt h.toSafe ht)]
    exact h.allows ht
  have hnew : ∀ {c t}, m'.kernel.board.Near c t → allowsCore (m'.kernel.affinity t) c = true := by
    intro c t hn
    obtain hn | hnew := hnear c t hn
    · exact hold (.inl hn)
    · exact hnew
  refine ⟨h.toSafe.step hstep, fun {c t} ht => ?_⟩
  cases ht with
  | inl hn => exact hnew hn
  | inr hx =>
    obtain hx | hn := hstep.executing_cases h.toSafe hx
    · exact hold (.inr hx)
    · exact hnew hn

theorem balance {t : TaskPtr} (hn : (balance c source m.kernel).board.Near i t) :
    m.kernel.board.Near i t ∨ allowsCore ((TaskManager.balance c source m.kernel).affinity t) i := by
  obtain hb | ⟨u, hs⟩ | ⟨u, hstolen, hs⟩ := balance_board h.inv c source
  · rw [hb] at hn
    exact .inl hn
  · left
    obtain hn | ⟨rfl, rfl⟩ := hs.2.near hn
    · exact Board.near_take hn
    · exact Board.near_of_mem hs.1
  obtain hn | ⟨rfl, rfl⟩ := hs.2.near hn
  · exact .inl (Board.near_take hn)
  · right
    rw [(balance_still m.kernel i source).kept.frame.affinity t]
    exact allowsCore_of_stolen hstolen

theorem step (hok : a.placeable) (hstep : Step A al m a m') : m'.Affine := by
  have hsafe := h.toSafe.step hstep
  have hof := h.of_near hstep
  have hchange : ∀ {c}, Change c m.kernel m'.kernel → m'.Affine := by
    intro c hc
    refine hof (fun t _ => hc.frame.affinity t) fun i t hn => .inl (hc.moves.near_of_lt ?_ hn)
    exact (hsafe.inv.created hn).trans_eq hc.frame.nextTask
  have hboard : m'.kernel.board = m.kernel.board →
      (∀ t, m'.kernel.affinity t = m.kernel.affinity t) → m'.Affine := by
    intro hb haff
    rw [hb] at hof
    exact hof (fun t _ => haff t) fun _ _ => .inl
  cases hstep with
  | plain hp => exact hchange hp.change
  | schedule hs => exact hchange hs.effect.toChange
  | switchTo _ _ _ hk => exact hboard (by rw [hk]) fun t => by rw [hk]
  | @balance source _ _ =>
    have hframe := (balance_still m.kernel a.core source).kept.frame
    exact hof (fun t _ => hframe.affinity t) fun _ _ => h.balance
  | select => exact hboard rfl fun _ => rfl
  | @reap _ t _ hk =>
    refine hboard (by rw [hk, (reap_spec A t m.kernel).1]) fun u => ?_
    rw [hk]
    exact reap_affinity A t m.kernel u
  | enter ha =>
    obtain ⟨haff, hnear⟩ := admits hok ha
    exact hof haff hnear
  | init hpc hk =>
    have haff := initCurrentCore_affinity (h.schedulers_eq_none hpc)
    rw [← hk] at haff
    refine hof (fun t => (haff t).1) fun i t hn => ?_
    have hlt := hsafe.inv.created hn
    rw [(h.init_board hpc hk).1] at hn
    obtain hn | ⟨-, hle, -⟩ := Board.near_start hn
    · exact .inl hn
    · right
      rw [(haff t).2 hle hlt]
      exact allowsCore_allOnes i

end

end Machine.Affine

theorem Machine.Initial.affine (h : m.Initial) : m.Affine := by
  have hsafe := h.safe
  obtain ⟨memory, rfl⟩ := h
  refine ⟨hsafe, ?_⟩
  intro c t ht
  exact absurd (Machine.Affine.lt hsafe ht) (Nat.not_lt_zero t)

/-! ## Runs -/

/-- In every run in which a new task may run on some core, a core that keeps a task, runs it or is
on its stack is named by the mask of the task. For the source this supposes that no control block
reuses an address and that `AddTask` gets no pid of the table. -/
theorem affinity_respected (A : CpuIo) (al : Allocator A) (tick : ℕ) {m : Machine N}
    (h : (system A al tick).ReachableBy (fun _ a => a.placeable) m) {c : N.Core}
    (hc : c.val < 64) {t : TaskPtr}
    (ht : (∃ p, t ∈ (m.kernel.cpuSchedulers c).readyQueue p) ∨
      (m.kernel.cpuSchedulers c).idleSlot = some t ∨
      t ∈ (m.kernel.cpuSchedulers c).sleepingTasks ∨
      (∃ r, t ∈ (m.kernel.cpuSchedulers c).waiting r) ∨
      m.kernel.currentTask c = some t ∨ m.executing c = some t) :
    (m.kernel.tcb t).aux.cpuAffinity.getLsbD c.val = true := by
  have hm : m.Affine := h.invariant (P := Machine.Affine)
    (fun _ hm => Machine.Initial.affine hm)
    fun _ _ _ hm hok hs => hm.step hok (next_step hm.toSafe hs)
  refine getLsbD_of_allowsCore (hm.allows ?_) hc
  have hmem : ∀ {k : Container N}, k.core = c → t ∈ k.list m.kernel → m.Hosts c t := by
    rintro k rfl hk
    refine .inl (Board.near_of_mem ?_)
    rw [holds_eq_list]
    exact Multiset.mem_coe.mpr hk
  rcases ht with ⟨p, hready⟩ | hslot | hsleeping | ⟨r, hblocked⟩ | hcurrent | hexec
  · exact hmem (k := .ready c p) rfl hready
  · exact .inl (.inr (.inl hslot))
  · exact hmem (k := .sleeping c) rfl (Array.mem_toList_iff.mpr hsleeping)
  · exact hmem (k := .blocked c r) rfl hblocked
  · exact .inl (.inl hcurrent)
  · exact .inr hexec

/-- Core 0 adds task 4 for core 1. There it runs and blocks. -/
theorem affinity_respected_blocked : ∃ m : Machine dualCore,
    (system sv39 (bump 5) 1000).ReachableBy (fun _ a => a.placeable) m ∧
      4 ∈ (m.kernel.cpuSchedulers cpu1).waiting (.of .mutex 7) ∧
      (m.kernel.tcb 4).aux.cpuAffinity.getLsbD 1 = true := by
  obtain ⟨m, hm, hblocked⟩ := dualCore_reaches (fun _ a => a.placeable)
    (bootBoth ++ [⟨cpu0, .addTask { aux := { cpuAffinity := 2 } }⟩, ⟨cpu1, .schedule⟩, goOn cpu1,
      goOn cpu1, ⟨cpu1, .block (.of .mutex 7)⟩])
    (fun m => 4 ∈ (m.kernel.cpuSchedulers cpu1).waiting (.of .mutex 7)) (by decide)
  exact ⟨m, hm, hblocked, affinity_respected sv39 (bump 5) 1000 hm (by decide)
    (.inr (.inr (.inr (.inl ⟨_, hblocked⟩))))⟩

end SimpleKernel.TaskManager
