import SimpleKernel.Model.Basic

/-! The read of a 64-bit field of the configuration space. The device may change the field between
any two register reads of the driver. -/

namespace SimpleKernel.Virtio

def maxConfigRetries : ℕ := 1000

/-- The generation and the field at the register reads of a call. -/
structure ConfigSpace where
  generation : ℕ → ℕ
  field : ℕ → ℕ

namespace ConfigSpace

/-- The halves of the field, read after the generation at the read `t`. -/
def halves (c : ConfigSpace) (t : ℕ) : ℕ :=
  let lo := c.field (t + 1) % 2 ^ 32
  let hi := c.field (t + 2) / 2 ^ 32
  hi <<< 32 ||| lo

/-- The loop from the read `t` on, with `left` retries left. The result comes with the number of
register reads. -/
def readConfigLoop (c : ConfigSpace) : ℕ → ℕ → ℕ × ℕ
  | 0, t => (c.halves t, t + 4)
  | left + 1, t =>
    if c.generation t ≠ c.generation (t + 3) then c.readConfigLoop left (t + 4)
    else (c.halves t, t + 4)

def readConfigU64 (c : ConfigSpace) : ℕ × ℕ := c.readConfigLoop (maxConfigRetries - 1) 0

end ConfigSpace

end SimpleKernel.Virtio
