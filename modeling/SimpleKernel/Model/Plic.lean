import Mathlib.Algebra.Group.Nat.Defs
import Mathlib.Logic.Function.Basic

/-! The configuration of the interrupt controller of RISC-V. -/

namespace SimpleKernel

open Function

/-- `Plic`. -/
structure Plic where
  ndev : ℕ
  contextCount : ℕ
  ndev_lt : ndev < 1024

namespace Plic

/-- The registers, by their offset. -/
abbrev Memory := ℕ → BitVec 32

def getContextId (hartId : ℕ) : ℕ := (hartId * 2 + 1) % 2 ^ 32

def sourcePriority (sourceId : ℕ) : ℕ := 0x000000 + sourceId * 4

def pendingWord (sourceId : ℕ) : ℕ := 0x001000 + sourceId / 32 * 4

def enableWord (contextId sourceId : ℕ) : ℕ := 0x002000 + contextId * 0x80 + sourceId / 32 * 4

def priorityThreshold (contextId : ℕ) : ℕ := 0x200000 + contextId * 0x1000 + 0x0

section

variable (mem : Memory) (contextId sourceId : ℕ)

def getEnableBit : Bool := (mem (enableWord contextId sourceId)).getLsbD (sourceId % 32)

def getPendingBit : Bool := (mem (pendingWord sourceId)).getLsbD (sourceId % 32)

def setEnableBit (value : Bool) : Memory :=
  let word := mem (enableWord contextId sourceId)
  update mem (enableWord contextId sourceId)
    (if value then word ||| 1#32 <<< (sourceId % 32) else word &&& ~~~(1#32 <<< (sourceId % 32)))

def set (hartId sourceId : ℕ) (priority : BitVec 32) (enable : Bool) : Memory :=
  setEnableBit (update mem (sourcePriority sourceId) priority) (getContextId hartId) sourceId enable

def get (hartId sourceId : ℕ) : BitVec 32 × Bool × Bool :=
  (mem (sourcePriority sourceId), getEnableBit mem (getContextId hartId) sourceId,
    getPendingBit mem sourceId)

end

variable (p : Plic) (mem : Memory)

/-- What the constructor does for a context. -/
def reset (contextId : ℕ) : Memory :=
  (List.range (p.ndev + 1)).foldl (fun mem sourceId => setEnableBit mem contextId sourceId false)
    (update mem (priorityThreshold contextId) 0#32)

/-- The constructor. It counts contexts by `size_t` and numbers them by `uint32_t`. -/
def create : Memory :=
  (List.range p.contextCount).foldl (fun mem contextId => p.reset mem (contextId % 2 ^ 32))
    ((List.range (p.ndev + 1)).foldl (fun mem sourceId => update mem (sourcePriority sourceId) 0#32)
      mem)

end Plic

end SimpleKernel
