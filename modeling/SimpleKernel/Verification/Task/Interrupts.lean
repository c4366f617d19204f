import SimpleKernel.Model.Task.Interrupts
import SimpleKernel.Verification.Task.Collection
import SimpleKernel.Verification.Task.Resumption

/-! `Exit` is entered by running tasks only, provided that no timer interrupt is taken while a task
has given up its core but has not been switched away. -/

namespace SimpleKernel.TaskManager

open List Function
open VirtualMemory (CpuIo Allocator sv39 bump)

variable {N : CoreCount} {A : CpuIo} {al : Allocator A} {tick : ℕ} {m m' : Machine N}
  {a : Action N} {c : N.Core} {t : TaskPtr} {p : Pc N}

/-! ## Running tasks -/

/-- A core that has not given up its current task runs it, be it of policy `kIdle` or not. -/
structure Machine.Steady (m : Machine N) : Prop extends m.Apart, m.Resumable where
  runs : ∀ {c t}, (m.pc c).isSettled → m.kernel.currentTask c = some t →
    m.kernel.board.status t = .running

theorem next_schedule {k : Resume} (hpc : m.pc a.core = .schedule k)
    (hs : next A al tick m a = some m') : m'.kernel = (schedule a.core m.kernel).2 := by
  obtain ⟨_, hs⟩ := next_pcStep hs hpc nofun nofun
  rw [pcStep] at hs
  cases hresult : schedule a.core m.kernel with
  | mk result kernel =>
    rw [hresult] at hs
    cases result with
    | none | some pair =>
      cases hs
      rfl

theorem Machine.Steady.step (h : m.Steady) (hsteal : m.stealsSwitched a) (hslot : m.leavesSlot a)
    (hs : next A al tick m a = some m') : m'.Steady := by
  have hstep := next_step h.toSafe hs
  refine ⟨h.toApart.step hsteal hstep, (h.toResumable.step hslot hs).idle, ?_⟩
  intro c t hc ht
  cases hstep.settles h.toSafe h.homed hc ht with
  | schedule _ hsched =>
    obtain ⟨next, s, -, hdispatch, hready, -, -⟩ := chosen_spec h.inv h.idle hsched.before
    obtain ⟨hrunning, hcurrent⟩ := dispatch_running (c := a.core) hready
    rw [← hdispatch, ← next_schedule hsched.source hs] at hrunning hcurrent
    cases hcurrent.symm.trans hsched.after
    exact hrunning
  | init _ _ hstatus _ => exact hstatus
  | before hset hcur _ hstatus => exact hstatus (h.runs hset hcur)

theorem Machine.Initial.steady (h : m.Initial) : m.Steady := by
  refine ⟨h.apart, h.resumable.idle, ?_⟩
  obtain ⟨memory, rfl⟩ := h
  intro c t _ ht
  cases ht

theorem isSettled_of_isExit (h : m.isExit a) : (m.pc a.core).isSettled := by
  unfold Machine.isExit at h
  split at h
  case h_4 => cases h
  all_goals
    rename_i hpc
    rw [hpc]
    rfl

/-! ### The interrupted code -/

def Pc.isQuiet (p : Pc N) : Bool := p.atRest && p ≠ .off

theorem Pc.isQuiet_iff : p.isQuiet = true ↔ p.isSettled = true ∧ p.isSwitch = false ∧ p ≠ .off := by
  unfold Pc.isQuiet Pc.atRest
  rw [Bool.and_eq_true, Bool.and_eq_true, Bool.not_eq_true', decide_eq_true_eq, and_assoc]

theorem Machine.Safe.goto (h : m.Safe) (hpc : (m.pc c).isQuiet) (hp : p.isQuiet) :
    (m.goto c p).Safe := by
  obtain ⟨-, hswitch, hoff⟩ := Pc.isQuiet_iff.mp hpc
  obtain ⟨-, hswitch', hoff'⟩ := Pc.isQuiet_iff.mp hp
  exact h.of_same h.inv rfl rfl rfl rfl le_rfl hoff hswitch hoff' hswitch'

theorem Machine.Steady.goto (h : m.Steady) (hpc : (m.pc c).isQuiet) (hp : p.isQuiet) :
    (m.goto c p).Steady := by
  have hbefore : ∀ {i}, ((m.goto c p).pc i).isSettled → (m.pc i).isSettled := by
    intro i hi
    by_cases hic : i = c
    · subst hic
      exact (Pc.isQuiet_iff.mp hpc).1
    have heq : (m.goto c p).pc i = m.pc i := update_of_ne hic _ _
    rw [heq] at hi
    exact hi
  have hsafe := h.toSafe.goto hpc hp
  exact ⟨⟨hsafe, h.homed, fun hi ht => h.active (hbefore hi) ht⟩, h.idle,
    fun hi ht => h.runs (hbefore hi) ht⟩

/-! ## Runs with interrupts -/

namespace InterruptMachine

def exiting (m : InterruptMachine N) : InterruptAction N → Option TaskPtr
  | .run a => if a.call.isStep ∨ m.handlers a.core = [] then m.machine.exiting a else none
  | .handler c =>
    match m.machine.pc c, m.handlers c with
    | .task, h :: _ => if h.ticked then none else m.machine.exiting ⟨c, .checkPendingSignals⟩
    | _, _ => none
  | _ => none

/-- The timer interrupt is taken when the current task of the core has not given it up, and the core
is not between the end of `Schedule` and `switch_to`. The other steps meet the conditions for
`Balance` and for the task in the idle slot. -/
def undisturbed (m : InterruptMachine N) : InterruptAction N → Bool
  | .run a => m.machine.stealsSwitched a && m.machine.leavesSlot a
  | .timer c => (m.machine.pc c).atRest
  | .handler c => m.machine.leavesSlot ⟨c, .checkPendingSignals⟩
  | .setInterrupts _ _ => true

structure Orderly (m : InterruptMachine N) : Prop where
  steady : m.machine.Steady
  handlers : ∀ c, ∀ h ∈ m.handlers c, h.interrupted.isQuiet = true
  saved : ∀ t, ∀ h ∈ m.saved t, h.interrupted.isQuiet = true

variable {m m' : InterruptMachine N} {act : InterruptAction N}

theorem runStep_eq_some (hs : InterruptMachine.runStep A al tick m a = some m') :
    ∃ machine, (a.call.isStep ∨ m.handlers a.core = []) ∧
      next A al tick m.machine a = some machine ∧ m' = { m.switched a with machine } := by
  unfold runStep at hs
  split at hs
  · rename_i hcalls
    obtain ⟨machine, hmachine, rfl⟩ := Option.map_eq_some_iff.mp hs
    exact ⟨machine, hcalls, hmachine, rfl⟩
  · cases hs

theorem timerStep_eq_some (hs : InterruptMachine.timerStep A al tick m c = some m') :
    ∃ machine, m.machine.pc c ≠ .off ∧
      next A al tick (m.machine.goto c .task) ⟨c, .tickUpdate⟩ = some machine ∧
      m' = { m with
        machine := machine
        handlers := update m.handlers c ({ interrupted := m.machine.pc c } :: m.handlers c)
        enabled := update m.enabled c false } := by
  unfold timerStep at hs
  split at hs
  · rename_i henabled
    obtain ⟨machine, hmachine, rfl⟩ := Option.map_eq_some_iff.mp hs
    exact ⟨machine, henabled.2, hmachine, rfl⟩
  · cases hs

theorem setInterrupts_eq_some {enabled : Bool}
    (hs : InterruptMachine.step A al tick m (.setInterrupts c enabled) = some m') :
    m' = { m with enabled := update m.enabled c enabled } := by
  obtain ⟨-, ⟨⟩⟩ := Option.ite_none_right_eq_some.mp hs
  rfl

namespace Orderly

variable {machine : Machine N}

variable (h : m.Orderly)
include h

theorem of_handlers {frames : List (TimerFrame N)} {enabled : N.Core → Bool} (hsteady : machine.Steady)
    (hframes : ∀ f ∈ frames, f.interrupted.isQuiet = true) :
    ({ m with
      machine := machine, handlers := update m.handlers c frames,
      enabled := enabled } : InterruptMachine N).Orderly := by
  refine ⟨hsteady, ?_, h.saved⟩
  exact (forall_update_iff m.handlers fun _ frames => ∀ f ∈ frames, f.interrupted.isQuiet = true).mpr
    ⟨hframes, fun i _ => h.handlers i⟩

theorem switchTo {current next : TaskPtr} (hsteady : machine.Steady) :
    ({ m.switchTo c current next with machine } : InterruptMachine N).Orderly := by
  have hsaved := (forall_update_iff m.saved fun _ frames =>
      ∀ f ∈ frames, f.interrupted.isQuiet = true).mpr
    ⟨h.handlers c, fun t (_ : t ≠ current) => h.saved t⟩
  refine ⟨hsteady, ?_, hsaved⟩
  exact (forall_update_iff m.handlers fun _ frames => ∀ f ∈ frames, f.interrupted.isQuiet = true).mpr
    ⟨hsaved next, fun i _ => h.handlers i⟩

theorem switched (hsteady : machine.Steady) :
    ({ m.switched a with machine } : InterruptMachine N).Orderly := by
  unfold InterruptMachine.switched
  split
  · exact h.switchTo hsteady
  · exact ⟨hsteady, h.handlers, h.saved⟩

theorem timerStep (hok : (m.machine.pc c).atRest)
    (hs : InterruptMachine.timerStep A al tick m c = some m') : m'.Orderly := by
  obtain ⟨machine, hoff, hmachine, rfl⟩ := timerStep_eq_some hs
  have hquiet : (m.machine.pc c).isQuiet := by
    unfold Pc.isQuiet
    rw [hok, decide_eq_true hoff]
    rfl
  have htask := h.steady.goto (p := .task) hquiet rfl
  have hpc : (m.machine.goto c .task).pc c = .task := update_self _ _ _
  apply h.of_handlers
  · refine htask.step ?_ ?_ hmachine
    · unfold Machine.stealsSwitched
      rw [hpc]
    · unfold Machine.leavesSlot Machine.parks
      rw [hpc]
      rfl
  · intro f hf
    obtain rfl | hf := mem_cons.mp hf
    · exact hquiet
    · exact h.handlers c f hf

theorem handlerStep (hok : m.machine.leavesSlot ⟨c, .checkPendingSignals⟩)
    (hs : InterruptMachine.handlerStep A al tick m c = some m') : m'.Orderly := by
  unfold InterruptMachine.handlerStep at hs
  split at hs
  · rename_i frame rest hpc hhandlers
    have hframes := h.handlers c
    rw [hhandlers] at hframes
    split at hs
    · cases hs
      apply h.of_handlers
      · exact h.steady.goto (by rw [hpc]; rfl) (hframes frame mem_cons_self)
      · exact fun f hf => hframes f (mem_cons_of_mem _ hf)
    obtain ⟨machine, hmachine, rfl⟩ := Option.map_eq_some_iff.mp hs
    apply h.of_handlers
    · refine h.steady.step ?_ hok hmachine
      unfold Machine.stealsSwitched
      rw [hpc]
    · intro f hf
      obtain rfl | hf := mem_cons.mp hf
      · exact hframes frame mem_cons_self
      · exact hframes f (mem_cons_of_mem _ hf)
  · cases hs

theorem step {act : InterruptAction N} (hok : m.undisturbed act)
    (hs : InterruptMachine.step A al tick m act = some m') : m'.Orderly := by
  cases act with
  | run a =>
    obtain ⟨hsteal, hslot⟩ := Bool.and_eq_true_iff.mp hok
    obtain ⟨machine, -, hmachine, rfl⟩ := runStep_eq_some hs
    exact h.switched (h.steady.step hsteal hslot hmachine)
  | timer c => exact h.timerStep hok hs
  | handler c => exact h.handlerStep hok hs
  | setInterrupts c enabled =>
    rw [setInterrupts_eq_some hs]
    exact ⟨h.steady, h.handlers, h.saved⟩

end Orderly

/-! ### The tasks that exit -/

theorem Orderly.exiting_running (h : m.Orderly)
    (ht : m.exiting act = some t) : (m.machine.kernel.tcb t).status = .running := by
  have hmachine : ∀ {a : Action N}, m.machine.exiting a = some t →
      (m.machine.kernel.tcb t).status = .running := by
    intro a ha
    obtain ⟨hexit, hcur⟩ := exiting_eq_some ha
    exact h.steady.runs (isSettled_of_isExit hexit) hcur
  cases act with
  | run a =>
    dsimp only [exiting] at ht
    split at ht
    · exact hmachine ht
    · cases ht
  | handler c =>
    dsimp only [exiting] at ht
    split at ht
    · split at ht
      · cases ht
      · exact hmachine ht
    · cases ht
  | timer c => cases ht
  | setInterrupts c enabled => cases ht

theorem Orderly.kernel_step (h : m.Orderly) (hok : m.undisturbed act)
    (hs : InterruptMachine.step A al tick m act = some m') :
    (m'.machine.kernel = m.machine.kernel ∧ m.exiting act = none) ∨
      ∃ m₁ a, m₁.Safe ∧ m₁.kernel = m.machine.kernel ∧
        next A al tick m₁ a = some m'.machine ∧ ∀ t ∈ m.exiting act, m₁.exiting a = some t := by
  cases act with
  | run a =>
    obtain ⟨machine, hcalls, hmachine, rfl⟩ := runStep_eq_some hs
    refine .inr ⟨m.machine, a, h.steady.toSafe, rfl, hmachine, ?_⟩
    intro t ht
    dsimp only [exiting] at ht
    rw [if_pos hcalls] at ht
    exact ht
  | timer c =>
    obtain ⟨machine, hoff, hmachine, rfl⟩ := timerStep_eq_some hs
    refine .inr ⟨m.machine.goto c .task, _, ?_, rfl, hmachine, nofun⟩
    refine h.steady.toSafe.goto ?_ rfl
    unfold Pc.isQuiet
    rw [show (m.machine.pc c).atRest = true from hok, decide_eq_true hoff]
    rfl
  | handler c =>
    dsimp only [InterruptMachine.step, InterruptMachine.handlerStep] at hs
    split at hs
    · rename_i frame rest hpc hhandlers
      have hexiting : m.exiting (.handler c) =
          if frame.ticked then none else m.machine.exiting ⟨c, .checkPendingSignals⟩ := by
        simp [exiting, hpc, hhandlers]
      split at hs
      · rename_i hticked
        cases hs
        rw [if_pos hticked] at hexiting
        exact .inl ⟨rfl, hexiting⟩
      rename_i hticked
      obtain ⟨machine, hmachine, rfl⟩ := Option.map_eq_some_iff.mp hs
      rw [if_neg hticked] at hexiting
      exact .inr ⟨m.machine, _, h.steady.toSafe, rfl, hmachine, fun t ht => hexiting ▸ ht⟩
    · cases hs
  | setInterrupts c enabled =>
    rw [setInterrupts_eq_some hs]
    exact .inl ⟨rfl, rfl⟩

def recordExits (m : InterruptMachine N) (act : InterruptAction N) (_ : InterruptMachine N)
    (exits : List TaskPtr) : List TaskPtr :=
  (m.exiting act).toList ++ exits

/-- The record of a run says who has ended. -/
structure Ended (m : InterruptMachine N) (exits : List TaskPtr) : Prop extends m.Orderly where
  ended : ∀ t ∈ exits, t < m.machine.kernel.nextTask ∧ (m.machine.kernel.ids t).fate.isSome
  nodup : exits.Nodup

theorem Ended.step {exits : List TaskPtr} (h : m.Ended exits)
    (hok : m.undisturbed act) (hs : InterruptMachine.step A al tick m act = some m') :
    m'.Ended (recordExits m act m' exits) := by
  have horderly := h.toOrderly.step hok hs
  unfold recordExits
  obtain ⟨hk, hnone⟩ | ⟨m₁, a, hsafe, hk, hnext, hexit⟩ := h.toOrderly.kernel_step hok hs
  · rw [hnone]
    refine ⟨horderly, ?_, h.nodup⟩
    rw [hk]
    exact h.ended
  have hfiles := (next_exec hnext).files hsafe
  have hcreated := hfiles.created_le
  have hold : ∀ t ∈ exits, t < m'.machine.kernel.nextTask ∧
      (m'.machine.kernel.ids t).fate.isSome := by
    intro t ht
    obtain ⟨hlt, hfate⟩ := h.ended t ht
    rw [← hk] at hlt hfate
    obtain ⟨f, hf⟩ := Option.isSome_iff_exists.mp hfate
    rw [(hfiles.ended hlt hf).1]
    exact ⟨hlt.trans_le hcreated, rfl⟩
  cases hact : m.exiting act with
  | none => exact ⟨horderly, hold, h.nodup⟩
  | some t =>
    have hexits := exiting_exits (hexit t hact) hnext
    have hlt : t < m₁.kernel.nextTask :=
      hsafe.inv.created (.inl (exiting_eq_some (hexit t hact)).2)
    refine ⟨horderly, ?_, nodup_cons.mpr ⟨?_, h.nodup⟩⟩
    · intro u hu
      obtain rfl | hu := mem_cons.mp hu
      · exact ⟨hlt.trans_le hcreated, hexits.ended⟩
      · exact hold u hu
    · intro hmem
      have hfate := (h.ended t hmem).2
      rw [← hk, hexits.alive] at hfate
      cases hfate

def recordedExits (A : CpuIo) (al : Allocator A) (tick : ℕ) :
    Transition (InterruptMachine N × List TaskPtr) (InterruptAction N) :=
  (interruptSystem A al tick).recorded [] recordExits

theorem ended_init {m : InterruptMachine N} (h : (interruptSystem A al tick).init m) :
    m.Ended [] := by
  obtain ⟨hmachine, hhandlers, hsaved, -⟩ := h
  refine ⟨⟨hmachine.steady, ?_, ?_⟩, nofun, nodup_nil⟩
  · intro c f hf
    rw [hhandlers c] at hf
    cases hf
  · intro t f hf
    rw [hsaved t] at hf
    cases hf

end InterruptMachine

open InterruptMachine (recordedExits)

def killOnCore0 : List (InterruptAction dualCore) :=
  (bootBoth ++ [⟨cpu0, .addTask {}⟩, ⟨cpu0, .schedule⟩, goOn cpu0, goOn cpu0,
    ⟨cpu1, .sendSignal 1 sigKill⟩]).map .run

def tickOnCore0 : List (InterruptAction dualCore) :=
  [.timer cpu0, .run (goOn cpu0), .run (goOn cpu0)]

end SimpleKernel.TaskManager
