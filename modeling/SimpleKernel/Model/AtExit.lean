import Mathlib.Data.List.Basic

/-! The table of the functions that `__cxa_finalize` calls. The functions do not call it or
`__cxa_atexit` themselves. -/

namespace SimpleKernel.AtExit

def maxAtExitFuncsCount : ℕ := 128

/-- An entry of `atexit_funcs`, where a null pointer is `none`. -/
structure Entry where
  destructorFunc : Option ℕ
  objPtr : ℕ
  deriving DecidableEq, Repr

/-- An entry that was invoked, as it was then, behind its index. -/
abbrev Invocation := ℕ × Entry

/-- The entries in use. `log` is history: what each `__cxa_finalize` has invoked, in this order. -/
structure State where
  atexitFuncs : List Entry := []
  log : List (List Invocation) := []
  deriving DecidableEq, Repr

/-- `__cxa_atexit`, with what it returns. A function that is registered is not null. -/
def atexit (s : State) (destructorFunc objPtr : ℕ) : Int × State :=
  if maxAtExitFuncsCount ≤ s.atexitFuncs.length then (-1, s)
  else (0, { s with atexitFuncs := s.atexitFuncs ++ [⟨some destructorFunc, objPtr⟩] })

/-- The tests of the two loops of `__cxa_finalize`. -/
def Entry.hit (e : Entry) : Option ℕ → Bool
  | none => e.destructorFunc ≠ none
  | some f => e.destructorFunc = some f

/-- The loops of `__cxa_finalize` from index `i - 1` down to 0, and what they invoke. Only the loop
for one function clears the entry. -/
def finalizeLoop (destructorFunc : Option ℕ) : ℕ → List Entry → List Entry × List Invocation
  | 0, funcs => (funcs, [])
  | idx + 1, funcs =>
    match funcs[idx]? with
    | none => finalizeLoop destructorFunc idx funcs
    | some e =>
      if e.hit destructorFunc then
        let funcs :=
          if destructorFunc = none then funcs else funcs.set idx { e with destructorFunc := none }
        let (funcs, log) := finalizeLoop destructorFunc idx funcs
        (funcs, (idx, e) :: log)
      else finalizeLoop destructorFunc idx funcs

def finalize (s : State) (destructorFunc : Option ℕ) : State :=
  let (atexitFuncs, log) := finalizeLoop destructorFunc s.atexitFuncs.length s.atexitFuncs
  { atexitFuncs, log := s.log ++ [log] }

inductive Call where
  | atexit (destructorFunc objPtr : ℕ)
  | finalize (destructorFunc : Option ℕ)
  deriving DecidableEq, Repr

def step (s : State) : Call → State
  | .atexit f obj => (atexit s f obj).2
  | .finalize f => finalize s f

def run : List Call → State := List.foldl step {}

end SimpleKernel.AtExit
