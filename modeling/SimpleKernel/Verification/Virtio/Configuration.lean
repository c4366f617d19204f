import SimpleKernel.Model.Virtio.MmioTransport

/-! # Torn reads of the configuration space

The generation shows a change of the field only to a driver that reads it once more. After its
last retry `ReadConfigU64` returns what it has read, whatever the generation. -/

namespace SimpleKernel.Virtio.ConfigSpace

variable {c : ConfigSpace} {g : ℕ → ℕ}

/-- The generation does not return to an earlier value. -/
def NoReturn (g : ℕ → ℕ) : Prop := ∀ i j k, i ≤ j → j ≤ k → g i = g k → g j = g i

/-- The field changes only with the generation. -/
def Announces (c : ConfigSpace) : Prop :=
  ∀ t, c.generation t = c.generation (t + 1) → c.field t = c.field (t + 1)

/-- The result is a value that the field had during the call. -/
def Untorn (c : ConfigSpace) : Prop :=
  ∃ t < c.readConfigU64.2, c.readConfigU64.1 = c.field t

theorem halves_of_eq {t : ℕ} (h : c.field (t + 1) = c.field (t + 2)) :
    c.halves t = c.field (t + 1) := by
  unfold halves
  rw [← h, ← Nat.shiftLeft_add_eq_or_of_lt (Nat.mod_lt _ (by decide)), Nat.shiftLeft_eq]
  exact Nat.div_add_mod' _ _

theorem readConfigLoop_spec (c : ConfigSpace) (left t : ℕ) : ∃ r ≤ left,
    c.readConfigLoop left t = (c.halves (t + 4 * r), t + 4 * r + 4) ∧
      (c.generation (t + 4 * r) = c.generation (t + 4 * r + 3) ∨ r = left ∧
        ∀ i ≤ left, c.generation (t + 4 * i) ≠ c.generation (t + 4 * i + 3)) := by
  induction left generalizing t with
  | zero =>
    refine ⟨0, le_rfl, rfl, ?_⟩
    by_cases h : c.generation t = c.generation (t + 3)
    · exact .inl h
    refine .inr ⟨rfl, fun i hi => ?_⟩
    obtain rfl := Nat.le_zero.mp hi
    exact h
  | succ left ih =>
    unfold readConfigLoop
    split_ifs with h
    · obtain ⟨r, hr, heq, hend⟩ := ih (t + 4)
      have hnext : ∀ i, t + 4 * (i + 1) = t + 4 + 4 * i := by omega
      refine ⟨r + 1, by omega, by rw [heq, hnext], ?_⟩
      rw [hnext]
      refine hend.imp_right fun ⟨hr, hall⟩ => ⟨by omega, fun i hi => ?_⟩
      cases i with
      | zero => exact h
      | succ i =>
        rw [hnext]
        exact hall i (by omega)
    · exact ⟨0, Nat.zero_le _, rfl, .inl (not_not.mp h)⟩

/-- A field that changes between the two reads of the last round. -/
def torn (g : ℕ → ℕ) : ConfigSpace := ⟨g, fun t => if t ≤ 3997 then 0 else 2 ^ 32 + 1⟩

theorem torn_announces (h : g 3997 ≠ g 3998) : (torn g).Announces := by
  intro t ht
  have hne : t ≠ 3997 := by
    rintro rfl
    exact h ht
  simp only [torn]
  split_ifs <;> omega

theorem torn_not_untorn (h : ∀ r < maxConfigRetries, g (4 * r) ≠ g (4 * r + 3)) :
    ¬ (torn g).Untorn := by
  obtain ⟨r, hr, heq, hend⟩ := (torn g).readConfigLoop_spec (maxConfigRetries - 1) 0
  rw [Nat.zero_add] at heq hend
  have hlt : r < maxConfigRetries := Nat.lt_of_le_of_lt hr (by decide)
  obtain ⟨rfl, -⟩ := hend.resolve_left (h r hlt)
  have hv : (torn g).halves (4 * (maxConfigRetries - 1)) = 2 ^ 32 := by
    simp [halves, torn, maxConfigRetries]
  rintro ⟨t, -, ht⟩
  rw [readConfigU64, heq, hv] at ht
  simp only [torn] at ht
  split at ht <;> omega

/-- For every sequence of generations, no read of a field that changes with them is torn if and only
if one round finds its generation unchanged, or the last one reads both halves in one generation. -/
theorem untorn_iff (hg : NoReturn g) :
    (∀ field, Announces ⟨g, field⟩ → Untorn ⟨g, field⟩) ↔
      (∃ r < maxConfigRetries, g (4 * r) = g (4 * r + 3)) ∨ g 3997 = g 3998 := by
  constructor
  · intro hall
    by_contra hno
    simp only [not_or, not_exists, not_and] at hno
    exact torn_not_untorn hno.1 (hall _ (torn_announces hno.2))
  · intro hcond field hc
    obtain ⟨r, hr, heq, hend⟩ := readConfigLoop_spec ⟨g, field⟩ (maxConfigRetries - 1) 0
    rw [Nat.zero_add] at heq hend
    have hone : g (4 * r + 1) = g (4 * r + 2) := by
      rcases hend with h | ⟨rfl, hall⟩
      · exact (hg _ _ _ (by omega) (by omega) h).trans (hg _ _ _ (by omega) (by omega) h).symm
      refine hcond.resolve_left ?_
      rintro ⟨i, hi, h⟩
      exact hall i (Nat.le_pred_of_lt hi) (by simpa using h)
    refine ⟨4 * r + 1, ?_, ?_⟩
    · rw [readConfigU64, heq]
      omega
    · rw [readConfigU64, heq]
      exact halves_of_eq (c := ⟨g, field⟩) (hc _ hone)

/-- The field changes between the rounds only. -/
theorem untorn_iff_rounds : Untorn ⟨fun t => t / 4, fun t => t / 4⟩ := by
  refine (untorn_iff ?_).mpr (.inl ⟨0, by decide, rfl⟩) _ fun t h => h
  intro i j k hij hjk
  dsimp only
  omega

/-- The generation changes at every read. -/
theorem readConfigU64_torn : ∃ c : ConfigSpace, NoReturn c.generation ∧ c.Announces ∧ ¬ c.Untorn :=
  ⟨torn id, fun _ _ _ hij hjk h => le_antisymm (hjk.trans h.ge) hij, torn_announces (by decide),
    torn_not_untorn fun r _ => by simp⟩

end SimpleKernel.Virtio.ConfigSpace
