import SimpleKernel.Model.Task.ControlBlock
import SimpleKernel.Shared.Transition

/-! The signals of one task, in the atomic steps of `CheckPendingSignals`, `SetSignalMask` and
`SendSignal`. -/

namespace SimpleKernel

/-- `how` of `SetSignalMask`. Any other value is `other`. -/
inductive SignalMaskOp where
  | sigBlock
  | sigUnblock
  | sigSetmask
  | other
  deriving DecidableEq, Repr

def uncatchableMask : BitVec 32 := BitVec.twoPow 32 sigKill ||| BitVec.twoPow 32 sigStop

/-- Whether the delivery of the signal calls `Exit`. -/
def SignalState.terminates (s : SignalState) (signum : ℕ) : Bool :=
  if signum = sigKill then true
  else if signum = sigStop ∨ signum = sigTstp ∨ signum = sigCont then false
  else
    match s.actions signum with
    | .ign => false
    | .dfl => defaultActionTerminates signum
    | .user _ => false

/-- A call of the task that has not returned. The calls of `CheckPendingSignals` have a number. -/
inductive SignalCall where
  /-- `CheckPendingSignals` in `HasDeliverableSignal`, or in `GetNextDeliverableSignal` if `next`,
  with the masks that it has loaded. The order of the two loads is not determined. -/
  | look (call : ℕ) (next : Bool) (pending blocked : Option (BitVec 32))
  /-- `CheckPendingSignals` before `ClearPending`. -/
  | clear (call signum : ℕ)
  /-- `CheckPendingSignals` before the signal takes effect. -/
  | deliver (call signum : ℕ)
  /-- `SetSignalMask` before it changes the mask. -/
  | mask (how : SignalMaskOp) (set : BitVec 32)
  /-- `SetSignalMask` before it takes the uncatchable signals out. -/
  | strip
  deriving DecidableEq, Repr

/-- The calls of the task, the innermost first: an interrupt may call `CheckPendingSignals` within
any other call. -/
structure SignalMachine where
  signals : SignalState := {}
  calls : List SignalCall := []
  started : ℕ := 0
  exited : Bool := false

/-- `sendSignal` is the one step of a `SendSignal` on another core that changes a mask. -/
inductive SignalAction where
  | sendSignal (signum : ℤ)
  | setSignalMask (how : SignalMaskOp) (set : BitVec 32)
  | checkPendingSignals
  | loadPending
  | loadBlocked
  | next
  deriving DecidableEq, Repr

namespace SignalMachine

/-- What follows when both masks are loaded, if the call does not return. -/
def looked (call : ℕ) (next : Bool) (pending blocked : BitVec 32) : Option SignalCall :=
  let loaded : SignalState := { pending, blocked }
  if !next then
    if loaded.hasDeliverableSignal then some (.look call true none none) else none
  else
    let signum := loaded.getNextDeliverableSignal
    if signum = sigNone then none else some (.clear call signum)

/-- The next step of the innermost call that is not a load. -/
def nextStep (m : SignalMachine) : SignalCall → List SignalCall → Option SignalMachine
  | .look call next (some pending) (some blocked), rest =>
    some { m with calls := (looked call next pending blocked).toList ++ rest }
  | .look .., _ => none
  | .clear call signum, rest =>
    some { m with signals := m.signals.clearPending signum, calls := .deliver call signum :: rest }
  | .deliver _ signum, rest =>
    some { m with calls := rest, exited := m.signals.terminates signum }
  | .mask how set, rest =>
    match how with
    | .sigBlock =>
      some { m with
        signals := { m.signals with blocked := m.signals.blocked ||| set }
        calls := .strip :: rest }
    | .sigUnblock =>
      some { m with
        signals := { m.signals with blocked := m.signals.blocked &&& ~~~set }
        calls := .strip :: rest }
    | .sigSetmask =>
      some { m with signals := { m.signals with blocked := set }, calls := .strip :: rest }
    | .other => some { m with calls := rest }
  | .strip, rest =>
    some { m with
      signals := { m.signals with blocked := m.signals.blocked &&& ~~~uncatchableMask }
      calls := rest }

def step (m : SignalMachine) : SignalAction → Option SignalMachine
  | .sendSignal signum =>
    if SignalState.isValid signum then
      some { m with signals := m.signals.setPending signum.toNat }
    else some m
  | .setSignalMask how set =>
    if m.exited = false ∧ m.calls = [] then
      some { m with calls := [.mask how (set &&& ~~~uncatchableMask)] }
    else none
  | .checkPendingSignals =>
    if m.exited = false then
      some { m with calls := .look m.started false none none :: m.calls, started := m.started + 1 }
    else none
  | .loadPending =>
    match m.exited, m.calls with
    | false, .look call next none blocked :: rest =>
      some { m with calls := .look call next (some m.signals.pending) blocked :: rest }
    | _, _ => none
  | .loadBlocked =>
    match m.exited, m.calls with
    | false, .look call next pending none :: rest =>
      some { m with calls := .look call next pending (some m.signals.blocked) :: rest }
    | _, _ => none
  | .next =>
    match m.exited, m.calls with
    | false, call :: rest => m.nextStep call rest
    | _, _ => none

end SignalMachine

/-- A new task with any signal actions. -/
def signalSystem : Transition SignalMachine SignalAction where
  init m := m.signals.pending = 0 ∧ m.signals.blocked = 0 ∧ m.calls = [] ∧ m.started = 0 ∧
    m.exited = false
  step := SignalMachine.step

end SimpleKernel
