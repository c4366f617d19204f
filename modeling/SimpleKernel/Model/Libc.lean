import SimpleKernel.Shared.Copying
import Mathlib.Algebra.Group.Nat.Defs

/-! The memory functions of the C library, on a flat memory with 64-bit addresses. -/

namespace SimpleKernel.Libc

open Copying

abbrev Memory := BitVec 64 → UInt8

/-- The memory after `memmove` and the pointer that it returns. -/
def memmove (m : Memory) (dest src n : BitVec 64) : Memory × BitVec 64 :=
  (if dest < src then copyLoop (· + 1) m dest src n.toNat
    else copyLoop (· - 1) m (dest + (n - 1)) (src + (n - 1)) n.toNat, dest)

end SimpleKernel.Libc
