import SimpleKernel.Model.Basic
import SimpleKernel.Shared.Transition

/-! `SpinLock::Lock` and `SpinLock::UnLock`, one memory step at a time. Every core runs
its own sequence of calls; the cores interleave between any two steps. -/

namespace SimpleKernel.SpinLock

/-- The three data members of a `SpinLock`. -/
structure Data where
  locked : Bool := false
  coreId : ℕ := sizeMax
  savedIntrEnable : Bool := false
  deriving DecidableEq, Repr

inductive Call (ι : Type*) where
  | lock (l : ι)
  | unLock (l : ι)
  deriving DecidableEq, Repr

/-- The step of `Lock` or `UnLock` that a core executes next. The local variable
`intr_enable` of `Lock` is carried along, as is the value `UnLock` has read from
`saved_intr_enable_`. -/
inductive Pc (ι : Type*) where
  | outside
  | getInterruptStatus (l : ι)
  | disableInterrupt (l : ι) (intrEnable : Bool)
  | testAndSet (l : ι) (intrEnable : Bool)
  | loadCoreId (l : ι) (intrEnable : Bool)
  | restoreInterrupt (l : ι) (intrEnable : Bool)
  | storeCoreId (l : ι) (intrEnable : Bool)
  | storeSaved (l : ι) (intrEnable : Bool)
  | testLocked (l : ι)
  | testCoreId (l : ι)
  | resetCoreId (l : ι)
  | clear (l : ι)
  | loadSaved (l : ι)
  | enableInterrupt (l : ι) (saved : Bool)
  deriving DecidableEq, Repr

/-- What is remembered of a core's latest call: the call itself, and whether the core
held the lock and had interrupts enabled when it made it. -/
structure CallRecord (ι : Type*) where
  call : Call ι
  held : Bool
  intr : Bool
  deriving DecidableEq, Repr

/-- A core: its interrupt-enable flag and its control state. The last four fields are
history. `held` lists the locks for which this core has won a `test_and_set` that it
has not undone by `clear`, the latest first, each with the interrupt flag just before
its `Lock`; `closing` is that flag for the pair `UnLock` is closing. -/
structure Core (ι : Type*) where
  intr : Bool
  pc : Pc ι := .outside
  held : List (ι × Bool) := []
  record : Option (CallRecord ι) := none
  result : Option (Expected Unit) := none
  closing : Bool := false

structure State (N : CoreCount) (ι : Type*) where
  locks : ι → Data
  cores : N.Core → Core ι

inductive Action (N : CoreCount) (ι : Type*) where
  /-- Core `c` calls one of the two functions. -/
  | call (c : N.Core) (f : Call ι)
  /-- Core `c` executes the next memory step of its call. -/
  | step (c : N.Core)
  /-- Core `c` switches its interrupts outside of the two functions. -/
  | setInterrupt (c : N.Core) (enable : Bool)

variable {N : CoreCount} {ι : Type*}

/-- Core `c` holds `l`: it is between its winning `test_and_set` and its `clear`. -/
def State.Holds (s : State N ι) (c : N.Core) (l : ι) : Prop :=
  l ∈ (s.cores c).held.map Prod.fst

def State.setCore (s : State N ι) (c : N.Core) (k : Core ι) : State N ι :=
  { s with cores := Function.update s.cores c k }

variable [DecidableEq ι]

instance (s : State N ι) (c : N.Core) (l : ι) : Decidable (s.Holds c l) :=
  inferInstanceAs (Decidable (l ∈ _))

def State.setLock (s : State N ι) (l : ι) (d : Data) : State N ι :=
  { s with locks := Function.update s.locks l d }

/-- The interrupt flag recorded when `Lock` was called. -/
def Core.entryIntr (k : Core ι) : Bool :=
  k.record.elim false CallRecord.intr

def flagOf (l : ι) (held : List (ι × Bool)) : Bool :=
  (held.lookup l).getD false

def release (l : ι) (held : List (ι × Bool)) : List (ι × Bool) :=
  held.eraseP fun e => e.1 = l

def Core.goto (k : Core ι) (pc : Pc ι) : Core ι := { k with pc := pc }

def Core.return (k : Core ι) (r : Expected Unit) : Core ι :=
  { k with pc := .outside, result := some r }

/-- One memory step of the call that core `c` is in. -/
def memoryStep (s : State N ι) (c : N.Core) : Option (State N ι) :=
  let k := s.cores c
  match k.pc with
  | .outside => none
  -- `SpinLock::Lock`
  | .getInterruptStatus l => some (s.setCore c (k.goto (.disableInterrupt l k.intr)))
  | .disableInterrupt l b =>
    some (s.setCore c { k with intr := false, pc := .testAndSet l b })
  | .testAndSet l b =>
    if (s.locks l).locked then some (s.setCore c (k.goto (.loadCoreId l b)))
    else some ((s.setLock l { s.locks l with locked := true }).setCore c
      { k with pc := .storeCoreId l b, held := (l, k.entryIntr) :: k.held })
  | .loadCoreId l b =>
    if (s.locks l).coreId = c.val then some (s.setCore c (k.goto (.restoreInterrupt l b)))
    else some (s.setCore c (k.goto (.testAndSet l b)))
  | .restoreInterrupt _ b =>
    some (s.setCore c ({ k with intr := b || k.intr }.return (.error .spinLockRecursiveLock)))
  | .storeCoreId l b =>
    some ((s.setLock l { s.locks l with coreId := c.val }).setCore c (k.goto (.storeSaved l b)))
  | .storeSaved l b =>
    some ((s.setLock l { s.locks l with savedIntrEnable := b }).setCore c (k.return (.ok ())))
  -- `SpinLock::UnLock`
  | .testLocked l =>
    if (s.locks l).locked then some (s.setCore c (k.goto (.testCoreId l)))
    else some (s.setCore c (k.return (.error .spinLockNotOwned)))
  | .testCoreId l =>
    if (s.locks l).coreId = c.val then some (s.setCore c (k.goto (.resetCoreId l)))
    else some (s.setCore c (k.return (.error .spinLockNotOwned)))
  | .resetCoreId l =>
    some ((s.setLock l { s.locks l with coreId := sizeMax }).setCore c (k.goto (.clear l)))
  | .clear l =>
    some ((s.setLock l { s.locks l with locked := false }).setCore c
      { k with pc := .loadSaved l, held := release l k.held, closing := flagOf l k.held })
  | .loadSaved l =>
    some (s.setCore c (k.goto (.enableInterrupt l (s.locks l).savedIntrEnable)))
  | .enableInterrupt _ b =>
    some (s.setCore c ({ k with intr := b || k.intr }.return (.ok ())))

def Call.entry : Call ι → Pc ι
  | .lock l => .getInterruptStatus l
  | .unLock l => .testLocked l

def Call.target : Call ι → ι
  | .lock l => l
  | .unLock l => l

def next (s : State N ι) : Action N ι → Option (State N ι)
  | .call c f =>
    let k := s.cores c
    if k.pc = .outside then
      some (s.setCore c { k with
        pc := f.entry
        record := some ⟨f, decide (s.Holds c f.target), k.intr⟩
        result := none })
    else none
  | .step c => memoryStep s c
  | .setInterrupt c b =>
    let k := s.cores c
    if k.pc = .outside then some (s.setCore c { k with intr := b }) else none

/-- Freshly constructed locks, and cores that have not called them yet. -/
def Initial (s : State N ι) : Prop :=
  (∀ l, s.locks l = {}) ∧ ∀ c, s.cores c = { intr := (s.cores c).intr }

def system (N : CoreCount) (ι : Type*) [DecidableEq ι] : Transition (State N ι) (Action N ι) where
  init := Initial
  step := next

end SimpleKernel.SpinLock
