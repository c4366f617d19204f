import Mathlib.Data.BitVec
import SimpleKernel.Shared.Transition

/-! The guard of a static local variable: `__cxa_guard_acquire`, `__cxa_guard_release` and
`__cxa_guard_abort`, one atomic access at a time. A core that acquires the guard initialises the
variable and then releases the guard, or aborts. -/

namespace SimpleKernel.Guard

def initializedMask : BitVec 64 := 0x01

def inUseMask : BitVec 64 := 0x100

/-- The step that a core executes next, with the local variable `expected` of the loop. -/
inductive Pc where
  | outside
  | compareExchange (expected : BitVec 64)
  | testInitialized (expected : BitVec 64)
  | pause
  -- between an acquire that returned 1 and the release or abort
  | initialising
  deriving DecidableEq, Repr

inductive Event (κ : Type*) where
  | acquired (c : κ) (result : ℕ)
  | released (c : κ)
  | aborted (c : κ)
  deriving DecidableEq, Repr

/-- `events` is history, the latest event first. -/
structure State (κ : Type*) where
  guard : BitVec 64 := 0
  pc : κ → Pc := fun _ => .outside
  events : List (Event κ) := []

/-- `step` is the next step in the loop of acquire; `spurious` tells that `compare_exchange_weak`
fails although the values are equal. -/
inductive Action (κ : Type*) where
  | acquire (c : κ)
  | step (c : κ) (spurious : Bool)
  | release (c : κ)
  | abort (c : κ)
  deriving DecidableEq, Repr

variable {κ : Type*} [DecidableEq κ]

namespace State

def goto (s : State κ) (c : κ) (pc : Pc) : State κ := { s with pc := Function.update s.pc c pc }

def log (s : State κ) (event : Event κ) : State κ := { s with events := event :: s.events }

def acquireStep (s : State κ) (c : κ) (spurious : Bool) : Pc → Option (State κ)
  | .compareExchange expected =>
    if s.guard = expected ∧ !spurious then
      some (({ s with guard := inUseMask }.log (.acquired c 1)).goto c .initialising)
    -- `expected` becomes the value of the guard
    else some (s.goto c (.testInitialized s.guard))
  | .testInitialized expected =>
    if expected &&& initializedMask ≠ 0 then some ((s.log (.acquired c 0)).goto c .outside)
    else some (s.goto c .pause)
  | .pause => some (s.goto c (.compareExchange 0))
  | .outside | .initialising => none

def step (s : State κ) : Action κ → Option (State κ)
  | .acquire c => if s.pc c = .outside then some (s.goto c (.compareExchange 0)) else none
  | .step c spurious => s.acquireStep c spurious (s.pc c)
  | .release c =>
    if s.pc c = .initialising then
      some (({ s with guard := initializedMask }.log (.released c)).goto c .outside)
    else none
  | .abort c =>
    if s.pc c = .initialising then
      some (({ s with guard := 0 }.log (.aborted c)).goto c .outside)
    else none

end State

def system (κ : Type*) [DecidableEq κ] : Transition (State κ) (Action κ) where
  init s := s = {}
  step := State.step

end SimpleKernel.Guard
