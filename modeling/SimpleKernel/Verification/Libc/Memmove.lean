import SimpleKernel.Model.Libc

/-! `memmove` copies in the direction in which no byte is overwritten before it has been read. -/

namespace SimpleKernel.Libc

open Function Copying

theorem iterate_add_one (d : BitVec 64) (i : ℕ) : (· + 1)^[i] d = d + BitVec.ofNat 64 i := by
  induction i generalizing d with
  | zero => simp
  | succ i ih =>
    rw [iterate_succ_apply, ih]
    bv_omega

theorem iterate_sub_one (d : BitVec 64) (i : ℕ) : (· - 1)^[i] d = d - BitVec.ofNat 64 i := by
  induction i generalizing d with
  | zero => simp
  | succ i ih =>
    rw [iterate_succ_apply, ih]
    bv_omega

/-- The `n` bytes at `dest` are those of `m` at `src`, and every other byte is that of `m`. -/
structure Moved (m m' : Memory) (dest src n : BitVec 64) : Prop where
  inside : ∀ i < n.toNat, m' (dest + BitVec.ofNat 64 i) = m (src + BitVec.ofNat 64 i)
  outside : ∀ a, a.toNat < dest.toNat ∨ dest.toNat + n.toNat ≤ a.toNat → m' a = m a

variable {m : Memory} {dest src n : BitVec 64}

theorem moved_up (h : dest < src) (hsrc : src.toNat + n.toNat ≤ 2 ^ 64) :
    Moved m (copyLoop (· + 1) m dest src n.toNat) dest src n := by
  constructor
  · intro i hi
    rw [← iterate_add_one, ← iterate_add_one]
    refine copyLoop_iterate ?_ ?_ hi
    all_goals
      intro i hi j hj
      rw [iterate_add_one, iterate_add_one]
      bv_omega
  · intro a ha
    apply copyLoop_of_ne
    intro i hi
    rw [iterate_add_one]
    bv_omega

theorem moved_down (h : src ≤ dest) (hdest : dest.toNat + n.toNat ≤ 2 ^ 64) :
    Moved m (copyLoop (· - 1) m (dest + (n - 1)) (src + (n - 1)) n.toNat) dest src n := by
  constructor
  · intro i hi
    have hlast : ∀ d, d + BitVec.ofNat 64 i = (· - 1)^[n.toNat - 1 - i] (d + (n - 1)) := by
      intro d
      rw [iterate_sub_one]
      bv_omega
    rw [hlast, hlast]
    refine copyLoop_iterate ?_ ?_ (by omega)
    all_goals
      intro i hi j hj
      rw [iterate_sub_one, iterate_sub_one]
      bv_omega
  · intro a ha
    apply copyLoop_of_ne
    intro i hi
    rw [iterate_sub_one]
    bv_omega

/-- Neither range wraps around; the two may overlap in any way. -/
theorem memmove_moved (hsrc : src.toNat + n.toNat ≤ 2 ^ 64)
    (hdest : dest.toNat + n.toNat ≤ 2 ^ 64) : Moved m (memmove m dest src n).1 dest src n := by
  unfold memmove
  split
  case isTrue h => exact moved_up h hsrc
  case isFalse h => exact moved_down (BitVec.not_lt.mp h) hdest

theorem memmove_moved_overlapping :
    Moved (fun a => a.toNat.toUInt8) (memmove (fun a => a.toNat.toUInt8) 1 0 2).1 1 0 2 :=
  memmove_moved (by decide) (by decide)

end SimpleKernel.Libc
