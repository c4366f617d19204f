import Mathlib.Data.List.FinRange
import SimpleKernel.Model.Basic
import SimpleKernel.Shared.Transition

/-! The table of file descriptors of a task. The functions hold the lock of the table throughout, so
that each of them is one step. -/

namespace SimpleKernel.Filesystem

/-- A `vfs::File*`. -/
abbrev FilePtr := ℕ

def maxFd : ℕ := 64

abbrev Fd := Fin maxFd

def stdinFd : Fd := ⟨0, by decide⟩

def stdoutFd : Fd := ⟨1, by decide⟩

def stderrFd : Fd := ⟨2, by decide⟩

/-- `open_count_` is an `int`. -/
structure FileDescriptorTable where
  table : Fd → Option FilePtr := fun _ => none
  openCount : ℤ := 0

namespace FileDescriptorTable

def set (t : FileDescriptorTable) (fd : Fd) (file : Option FilePtr) : FileDescriptorTable :=
  { t with table := Function.update t.table fd file }

/-- The entry of a descriptor, unless `fd < 0 || fd >= kMaxFd`. -/
def index (fd : ℤ) : Option Fd :=
  if h : 0 ≤ fd ∧ fd < maxFd then some ⟨fd.toNat, by omega⟩ else none

/-- The loop of `Alloc` and `Dup`, which leaves out the standard files. -/
def firstFree (t : FileDescriptorTable) : Option Fd :=
  (List.finRange maxFd).find? fun fd => stderrFd < fd && t.table fd = none

/-- `Alloc`. A null pointer is `none`. -/
def alloc (t : FileDescriptorTable) (file : Option FilePtr) : Expected Fd × FileDescriptorTable :=
  if file = none then (.error .invalidArgument, t)
  else
    match t.firstFree with
    | none => (.error .fsFdTableFull, t)
    | some fd => (.ok fd, { t.set fd file with openCount := t.openCount + 1 })

def get (t : FileDescriptorTable) (fd : ℤ) : Option FilePtr := (index fd).bind t.table

def free (t : FileDescriptorTable) (fd : ℤ) : Expected Unit × FileDescriptorTable :=
  match index fd with
  | none => (.error .fsInvalidFd, t)
  | some fd =>
    if t.table fd = none then (.error .fsInvalidFd, t)
    else (.ok (), { t.set fd none with openCount := t.openCount - 1 })

/-- `Dup` to a given descriptor closes the file that it has. -/
def dupTo (t : FileDescriptorTable) (file : Option FilePtr) (newFd : Fd) :
    Expected Fd × FileDescriptorTable :=
  let t := if t.table newFd ≠ none then { t.set newFd none with openCount := t.openCount - 1 } else t
  (.ok newFd, { t.set newFd file with openCount := t.openCount + 1 })

def dup (t : FileDescriptorTable) (oldFd newFd : ℤ) : Expected Fd × FileDescriptorTable :=
  match (index oldFd).bind t.table with
  | none => (.error .fsInvalidFd, t)
  | some file =>
    match index newFd with
    | some newFd => t.dupTo (some file) newFd
    | none =>
      if newFd = -1 then
        match t.firstFree with
        | none => (.error .fsFdTableFull, t)
        | some fd => (.ok fd, { t.set fd (some file) with openCount := t.openCount + 1 })
      else (.error .fsFdTableFull, t)

def closeAll (_ : FileDescriptorTable) : FileDescriptorTable := { table := fun _ => none, openCount := 0 }

/-- The descriptor counts if it had no file and gets one. -/
def countNew (t : FileDescriptorTable) (fd : Fd) (file : Option FilePtr) : FileDescriptorTable :=
  if t.table fd = none ∧ file ≠ none then { t with openCount := t.openCount + 1 } else t

def setupStandardFiles (t : FileDescriptorTable) (stdinFile stdoutFile stderrFile : Option FilePtr) :
    FileDescriptorTable :=
  let t := t.countNew stdinFd stdinFile
  let t := t.countNew stdoutFd stdoutFile
  let t := t.countNew stderrFd stderrFile
  ((t.set stdinFd stdinFile).set stdoutFd stdoutFile).set stderrFd stderrFile

/-- What the move of a table leaves of it. -/
def moved (_ : FileDescriptorTable) : FileDescriptorTable := { table := fun _ => none, openCount := 0 }

/-- The move assignment of another table: all files are closed first. -/
def assign (t other : FileDescriptorTable) : FileDescriptorTable :=
  { t.closeAll with table := other.table, openCount := other.openCount }

end FileDescriptorTable

/-! ## Sequences of calls -/

/-- The tables that have been constructed, by their addresses. -/
abbrev FdTables := ℕ → Option FileDescriptorTable

inductive FdCall where
  | construct (i : ℕ)
  | moveConstruct (i other : ℕ)
  | moveAssign (i other : ℕ)
  | alloc (i : ℕ) (file : Option FilePtr)
  | free (i : ℕ) (fd : ℤ)
  | dup (i : ℕ) (oldFd newFd : ℤ)
  | closeAll (i : ℕ)
  | setupStandardFiles (i : ℕ) (stdinFile stdoutFile stderrFile : Option FilePtr)
  deriving DecidableEq, Repr

namespace FdTables

def on (s : FdTables) (i : ℕ) (f : FileDescriptorTable → FileDescriptorTable) : Option FdTables :=
  (s i).map fun t => Function.update s i (some (f t))

def step (s : FdTables) : FdCall → Option FdTables
  | .construct i => if s i = none then some (Function.update s i (some {})) else none
  | .moveConstruct i other =>
    if s i = none then
      (s other).map fun t => Function.update (Function.update s i (some t)) other (some t.moved)
    else none
  | .moveAssign i other =>
    (s i).bind fun t => (s other).map fun t' =>
      if i = other then s
      else Function.update (Function.update s i (some (t.assign t'))) other (some t'.moved)
  | .alloc i file => s.on i fun t => (t.alloc file).2
  | .free i fd => s.on i fun t => (t.free fd).2
  | .dup i oldFd newFd => s.on i fun t => (t.dup oldFd newFd).2
  | .closeAll i => s.on i fun t => t.closeAll
  | .setupStandardFiles i stdinFile stdoutFile stderrFile =>
    s.on i fun t => t.setupStandardFiles stdinFile stdoutFile stderrFile

end FdTables

def fdSystem : Transition FdTables FdCall where
  init s := s = fun _ => none
  step := FdTables.step

end SimpleKernel.Filesystem
