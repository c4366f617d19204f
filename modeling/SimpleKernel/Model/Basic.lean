import Mathlib.Algebra.Group.Int.Defs
import Mathlib.Algebra.Group.Nat.Defs
import Mathlib.Data.Fin.Basic

/-! Error codes and machine constants shared by the kernel's components. -/

namespace SimpleKernel

/-- The error codes of `expected.hpp` that the modelled functions return. -/
inductive ErrorCode where
  | success
  | spinLockRecursiveLock
  | spinLockNotOwned
  | mutexNoTaskContext
  | mutexRecursiveLock
  | mutexNotOwned
  | mutexNotLocked
  | vmAllocationFailed
  | vmMapFailed
  | vmPageNotMapped
  | taskNoCurrentTask
  | taskPidAllocationFailed
  | taskAllocationFailed
  | taskKernelStackAllocationFailed
  | taskNoChildFound
  | signalInvalidNumber
  | signalTaskNotFound
  | fdtParseFailed
  | deviceError
  | deviceNotSupported
  | ioError
  | notSupported
  | timeout
  | noFreeDescriptors
  | invalidDescriptor
  | noUsedBuffers
  | fsFileNotFound
  | fsNotADirectory
  | fsIsADirectory
  | fsFileExists
  | fsMountFailed
  | fsInvalidPath
  | fsNotMounted
  | fsCorrupted
  | fsAlreadyMounted
  | fsNotEmpty
  | fsInvalidFd
  | fsFdTableFull
  | fsPermissionDenied
  | fsNoSpace
  | blkReadFailed
  | invalidArgument
  | outOfMemory
  deriving DecidableEq, Repr

abbrev Expected := Except ErrorCode

instance decidableEqExcept {ε α : Type} [DecidableEq ε] [DecidableEq α] :
    DecidableEq (Except ε α)
  | .ok a, .ok b => decidable_of_iff (a = b) ⟨congrArg _, Except.ok.inj⟩
  | .error e, .error e' => decidable_of_iff (e = e') ⟨congrArg _, Except.error.inj⟩
  | .ok _, .error _ => isFalse nofun
  | .error _, .ok _ => isFalse nofun

/-- `std::numeric_limits<size_t>::max()`, the "no owner" mark of both locks. -/
def sizeMax : ℕ := 2 ^ 64 - 1

/-! ## The capacities of `kernel_config.hpp` -/

def maxTasks : ℕ := 256

def maxSleepingTasks : ℕ := 128

/-- `kMaxBlockedGroups`, the capacity of a core's map `blocked_tasks`. -/
def maxBlockedGroups : ℕ := 64

/-- `kMaxBlockedPerGroup`, the capacity of one list of a core's `blocked_tasks`. -/
def maxBlockedPerGroup : ℕ := 32

def maxReadyTasks : ℕ := 128

/-! ## Cores -/

/-- `SIMPLEKERNEL_MAX_CORE_COUNT`. It is a `size_t`, so that no core id reaches
`sizeMax`. -/
structure CoreCount where
  val : ℕ
  le_max : val ≤ sizeMax

theorem two_le_sizeMax : 2 ≤ sizeMax := by decide

/-- A core, named by its id. -/
abbrev CoreCount.Core (N : CoreCount) := Fin N.val

theorem CoreCount.Core.ne_max {N : CoreCount} (c : N.Core) : c.val ≠ sizeMax := by
  have hc := c.isLt
  have hN := N.le_max
  omega

end SimpleKernel
