import Mathlib.Data.Nat.Bitwise

/-! Sets of small numbers as the bits of a word. -/

namespace SimpleKernel.Bits

theorem testBit_and_sub_one {n k : ℕ} (hk : n.testBit k) (hlow : ∀ j < k, n.testBit j = false)
    (i : ℕ) : (n &&& (n - 1)).testBit i = (n.testBit i && decide (i ≠ k)) := by
  have hmod : n % 2 ^ k = 0 := by
    apply Nat.eq_of_testBit_eq
    intro j
    rw [Nat.testBit_mod_two_pow, Nat.zero_testBit]
    by_cases hj : j < k
    · rw [hlow j hj, Bool.and_false]
    · rw [decide_eq_false hj, Bool.false_and]
  obtain ⟨m, rfl⟩ : ∃ m, n = 2 ^ k * (2 * m + 1) := by
    use n / 2 ^ k / 2
    have hdiv := Nat.div_add_mod n (2 ^ k)
    have hodd : n / 2 ^ k % 2 = 1 := by
      rw [Nat.testBit_eq_decide_div_mod_eq] at hk
      exact of_decide_eq_true hk
    have hhalf := Nat.div_add_mod (n / 2 ^ k) 2
    rw [hodd] at hhalf
    rw [hhalf]
    omega
  have hpos : 0 < 2 ^ k := Nat.two_pow_pos k
  have hpred : 2 ^ k * (2 * m + 1) - 1 = 2 ^ k * (2 * m) + (2 ^ k - 1) := by
    rw [Nat.mul_add]
    omega
  have hlt : 2 ^ k - 1 < 2 ^ k := by omega
  have hself := Nat.testBit_two_pow_mul_add (2 * m + 1) hpos i
  rw [Nat.add_zero] at hself
  rw [Nat.testBit_and, hpred, Nat.testBit_two_pow_mul_add _ hlt, hself]
  rcases Nat.lt_trichotomy i k with hi | rfl | hi
  · simp [hi]
  · simp
  obtain ⟨d, rfl⟩ := Nat.exists_eq_add_of_lt hi
  have hd : k + d + 1 - k = d + 1 := by omega
  have hne : k + d + 1 ≠ k := by omega
  have hge : ¬ k + d + 1 < k := by omega
  simp [hd, hne, hge, Nat.testBit_succ, Nat.mul_add_div]

variable {w : ℕ} {x : BitVec w} {i j : ℕ}

theorem getLsbD_and_sub_one (hx : x ≠ 0#w) (i : ℕ) :
    (x &&& (x - 1#w)).getLsbD i = (x.getLsbD i && decide (i ≠ x.ctz.toNat)) := by
  have h0 : x.toNat ≠ 0 := fun h => hx (BitVec.eq_of_toNat_eq (by simpa using h))
  have hsub : (x - 1#w).toNat = x.toNat - 1 := by
    have hle : 1#w ≤ x := by
      exact (Nat.mod_le _ _).trans (Nat.one_le_iff_ne_zero.mpr h0)
    have hone : 1 % 2 ^ w = 1 := Nat.mod_eq_of_lt (by omega)
    rw [BitVec.toNat_sub_of_le hle, BitVec.toNat_ofNat, hone]
  have hbits := testBit_and_sub_one (BitVec.getLsbD_true_ctz_of_ne_zero hx)
    (fun j hj => BitVec.getLsbD_false_of_lt_ctz hj) i
  rw [← hsub, ← BitVec.toNat_and] at hbits
  exact hbits

theorem ctz_le (h : x.getLsbD i) : x.ctz.toNat ≤ i := by
  by_contra hlt
  rw [BitVec.getLsbD_false_of_lt_ctz (by omega)] at h
  cases h

theorem ctz_lt (hx : x ≠ 0#w) : x.ctz.toNat < w :=
  BitVec.lt_of_getLsbD (BitVec.getLsbD_true_ctz_of_ne_zero hx)

theorem ne_zero_of_getLsbD (h : x.getLsbD i) : x ≠ 0#w := by
  rintro rfl
  simp at h

theorem getLsbD_set (hi : i < w) : (x ||| 1#w <<< i).getLsbD j = (x.getLsbD j || decide (j = i)) := by
  rw [BitVec.getLsbD_or, ← BitVec.twoPow_eq, BitVec.getLsbD_twoPow]
  by_cases hj : j = i
  · simp [hj, hi]
  · simp [hj, Ne.symm hj]

theorem getLsbD_clear (hi : i < w) :
    (x &&& ~~~(1#w <<< i)).getLsbD j = (x.getLsbD j && decide (j ≠ i)) := by
  rw [BitVec.getLsbD_and, BitVec.getLsbD_not, ← BitVec.twoPow_eq, BitVec.getLsbD_twoPow]
  by_cases hj : j < w
  · by_cases hji : j = i
    · simp [hji, hi]
    · simp [hj, hji, Ne.symm hji]
  · rw [BitVec.getLsbD_of_ge x j (by omega), Bool.false_and, Bool.false_and]

theorem clear_set (hi : i < w) (h : x.getLsbD i = false) :
    (x ||| 1#w <<< i) &&& ~~~(1#w <<< i) = x := by
  apply BitVec.eq_of_getLsbD_eq
  intro j _
  rw [getLsbD_clear hi, getLsbD_set hi]
  by_cases hj : j = i
  · simp [hj, h]
  · simp [hj]

end SimpleKernel.Bits
