import SimpleKernel.Model.Task.Fsm
import SimpleKernel.Shared.Transition

/-! `Mutex::Lock`, `Mutex::TryLock` and `Mutex::UnLock`, one atomic access at a time.
Every task runs its own sequence of calls on one mutex, on a core of its choice at each
step; the critical sections of the slow path and of `WakeupOne` are those of the cores'
scheduler locks. -/

namespace SimpleKernel.Mutex

/-- The two atomics of a `Mutex`. -/
structure Data where
  locked : Bool := false
  owner : ℕ := sizeMax
  deriving DecidableEq, Repr

inductive Call where
  | lock
  | tryLock
  | unLock
  deriving DecidableEq, Repr

/-- The step that a task executes next. -/
inductive Pc (N : CoreCount) where
  | outside
  -- `IsLockedByCurrentTask`, called by all three functions
  | loadLocked (f : Call)
  | loadOwner (f : Call)
  -- `TryLock`, and the fast path of `Lock`
  | compareExchange (f : Call)
  | storeOwner
  -- the slow path of `Lock`, under the scheduler lock of core `c`
  | enterSched
  | recheck (c : N.Core)
  | storeOwnerLocked (c : N.Core)
  | block (c : N.Core)
  | leaveSched (c : N.Core) (acquired : Bool)
  | schedule
  | retry
  -- `UnLock`
  | resetOwner
  | storeLocked
  | wakeupOne (i : ℕ)
  deriving DecidableEq

/-- A task's latest call, and whether the task held the mutex when it made it. -/
structure CallRecord where
  call : Call
  held : Bool
  deriving DecidableEq, Repr

/-- A task's control state. The last three fields are history; `holds` lasts from the
compare-exchange that acquired the mutex to the store that cleared `locked_`. -/
structure Task (N : CoreCount) where
  pc : Pc N := .outside
  holds : Bool := false
  record : Option CallRecord := none
  result : Option (Expected Unit) := none
  deriving DecidableEq

/-- `waiting c` is the list `blocked_tasks[resource_id_]` of core `c`, and `schedLock c` the
task inside a critical section of that core's scheduler lock. `woken` is history: it lasts
from a task's wakeup to the compare-exchange that `Lock` then retries. -/
structure State (N : CoreCount) (τ : Type*) where
  mutex : Data := {}
  schedLock : N.Core → Option τ := fun _ => none
  waiting : N.Core → List τ := fun _ => []
  status : τ → TaskStatus
  woken : τ → Bool := fun _ => false
  tasks : τ → Task N := fun _ => {}

inductive Action (N : CoreCount) (τ : Type*) where
  | call (t : τ) (f : Call)
  /-- Task `t` executes its next step, on core `c`. -/
  | step (t : τ) (c : N.Core)
  /-- The scheduler of some core picks `t`. -/
  | dispatch (t : τ)
  /-- The timer takes the core away from `t`. -/
  | preempt (t : τ)
  /-- `Wakeup` of the mutex's resource on core `c`, as `SendSignal` does it. -/
  | wakeup (c : N.Core)
  deriving DecidableEq

variable {N : CoreCount} {τ : Type*}

def Task.goto (k : Task N) (pc : Pc N) : Task N := { k with pc := pc }

def Task.return (k : Task N) (r : Expected Unit) : Task N :=
  { k with pc := .outside, result := some r }

def Task.isOwner (k : Task N) : Call → Task N
  | .lock => k.return (.error .mutexRecursiveLock)
  | .tryLock => k.return (.error .mutexRecursiveLock)
  | .unLock => k.goto .resetOwner

def Task.notOwner (k : Task N) : Call → Task N
  | .lock => k.goto (.compareExchange .lock)
  | .tryLock => k.goto (.compareExchange .tryLock)
  | .unLock => k.return (.error .mutexNotOwned)

/-- The steps that a task still executes after it has blocked. -/
def Pc.leaving : Pc N → Bool
  | .leaveSched _ _ => true
  | .schedule => true
  | _ => false

/-- A task executes while it is `kRunning`, and on to its switch after it has blocked. -/
def State.Executes (s : State N τ) (t : τ) : Prop :=
  (s.tasks t).pc.leaving = true ∨ s.status t = .running

instance (s : State N τ) (t : τ) : Decidable (s.Executes t) :=
  inferInstanceAs (Decidable (_ ∨ _))

variable [DecidableEq τ]

def State.setTask (s : State N τ) (t : τ) (k : Task N) : State N τ :=
  { s with tasks := Function.update s.tasks t k }

def State.receive (s : State N τ) (t : τ) (msg : Msg) : State N τ :=
  { s with status := Function.update s.status t ((s.status t).receive msg) }

def State.setWoken (s : State N τ) (t : τ) (b : Bool) : State N τ :=
  { s with woken := Function.update s.woken t b }

def State.wake (s : State N τ) (t : τ) : State N τ :=
  (s.receive t .wakeup).setWoken t true

/-- A compare-exchange from `false` to `true` that succeeds; `pc` is the step after it. -/
def State.acquire (s : State N τ) (t : τ) (pc : Pc N) : State N τ :=
  { s with mutex := { s.mutex with locked := true } }.setTask t
    { s.tasks t with pc := pc, holds := true }

/-- One step of the call that task `t` is in, executed on core `here`. -/
def atomicStep (pid : τ → ℕ) (s : State N τ) (t : τ) (here : N.Core) : Option (State N τ) :=
  let k := s.tasks t
  match k.pc with
  | .outside => none
  | .loadLocked f =>
    if s.mutex.locked then some (s.setTask t (k.goto (.loadOwner f)))
    else some (s.setTask t (k.notOwner f))
  | .loadOwner f =>
    if s.mutex.owner = pid t then some (s.setTask t (k.isOwner f))
    else some (s.setTask t (k.notOwner f))
  | .compareExchange f =>
    if s.mutex.locked then
      if f = .lock then some (s.setTask t (k.goto .enterSched))
      else some (s.setTask t (k.return (.error .mutexNotLocked)))
    else some (s.acquire t .storeOwner)
  | .storeOwner =>
    some ({ s with mutex := { s.mutex with owner := pid t } }.setTask t (k.return (.ok ())))
  | .enterSched =>
    if s.schedLock here = none then
      some ({ s with schedLock := Function.update s.schedLock here (some t) }.setTask t
        (k.goto (.recheck here)))
    else none
  | .recheck c =>
    if s.mutex.locked then some (s.setTask t (k.goto (.block c)))
    else some (s.acquire t (.storeOwnerLocked c))
  | .storeOwnerLocked c =>
    some ({ s with mutex := { s.mutex with owner := pid t } }.setTask t
      (k.goto (.leaveSched c true)))
  | .block c =>
    -- a full list makes `Block` return with the task still running
    if (s.waiting c).length < maxBlockedPerGroup then
      some ({ s with waiting := Function.update s.waiting c (s.waiting c ++ [t]) }.setTask t
        (k.goto (.leaveSched c false)) |>.receive t .block)
    else some (s.setTask t (k.goto (.leaveSched c false)))
  | .leaveSched c acquired =>
    some ({ s with schedLock := Function.update s.schedLock c none }.setTask t
      (if acquired then k.return (.ok ()) else k.goto .schedule))
  | .schedule =>
    -- `Schedule` yields for a task that is still running
    let s' := if s.status t = .running then s.receive t .yield else s
    some (s'.setTask t (k.goto .retry))
  | .retry =>
    let s' := s.setWoken t false
    if s.mutex.locked then some (s'.setTask t (k.goto .enterSched))
    else some (s'.acquire t .storeOwner)
  | .resetOwner =>
    some ({ s with mutex := { s.mutex with owner := sizeMax } }.setTask t (k.goto .storeLocked))
  | .storeLocked =>
    some ({ s with mutex := { s.mutex with locked := false } }.setTask t
      { k with pc := .wakeupOne 0, holds := false })
  | .wakeupOne i =>
    if h : i < N.val then
      if s.schedLock ⟨i, h⟩ = none then
        match s.waiting ⟨i, h⟩ with
        | [] => some (s.setTask t (k.goto (.wakeupOne (i + 1))))
        | x :: rest =>
          some (({ s with waiting := Function.update s.waiting ⟨i, h⟩ rest }.setTask t
            (k.return (.ok ()))).wake x)
      else none
    else some (s.setTask t (k.return (.ok ())))

def next (pid : τ → ℕ) (s : State N τ) : Action N τ → Option (State N τ)
  | .call t f =>
    let k := s.tasks t
    if k.pc = .outside ∧ s.status t = .running then
      some (s.setTask t { k with
        pc := .loadLocked f
        record := some ⟨f, k.holds⟩
        result := none })
    else none
  | .step t c => if s.Executes t then atomicStep pid s t c else none
  | .dispatch t => if s.status t = .ready then some (s.receive t .schedule) else none
  | .preempt t => if s.status t = .running then some (s.receive t .yield) else none
  | .wakeup c =>
    if s.schedLock c = none then
      some ((s.waiting c).foldl State.wake { s with waiting := Function.update s.waiting c [] })
    else none

/-- A freshly constructed mutex, and tasks that have not called it yet. -/
def Initial (s : State N τ) : Prop :=
  s = { status := s.status } ∧ ∀ t, s.status t = .ready ∨ s.status t = .running

def system (N : CoreCount) (pid : τ → ℕ) : Transition (State N τ) (Action N τ) where
  init := Initial
  step := next pid

end SimpleKernel.Mutex
