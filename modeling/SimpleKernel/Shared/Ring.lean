import Mathlib.Data.Nat.ModEq
import Mathlib.Logic.Function.Basic

/-! Rings: the entries from `lo` to `hi` of an endless sequence, each in the cell that its number
has modulo the size. The counters of the two ends wrap at a multiple of the size. -/

namespace SimpleKernel

variable {α : Type*} {size m lo hi k : ℕ} {ring : ℕ → α} {R R' : ℕ → α → Prop}

/-- The ring has a cell with the property `R k` for every entry `k` from `lo` to `hi`. -/
structure Window (size : ℕ) (ring : ℕ → α) (lo hi : ℕ) (R : ℕ → α → Prop) : Prop where
  le : lo ≤ hi
  fits : hi ≤ lo + size
  entry : ∀ k, lo ≤ k → k < hi → R k (ring (k % size))

namespace Window

variable (h : Window size ring lo hi R)
include h

theorem imp (hR : ∀ k, lo ≤ k → k < hi → ∀ a, R k a → R' k a) : Window size ring lo hi R' :=
  ⟨h.le, h.fits, fun k hlo hhi => hR k hlo hhi _ (h.entry k hlo hhi)⟩

theorem push (hfits : hi < lo + size) {a : α} (ha : R hi a) :
    Window size (Function.update ring (hi % size) a) lo (hi + 1) R := by
  have hle := h.le
  refine ⟨by omega, by omega, fun k hlo hhi => ?_⟩
  by_cases hk : k = hi
  · subst hk
    rwa [Function.update_self]
  have hne : k % size ≠ hi % size := by
    intro heq
    have hdvd := (Nat.modEq_iff_dvd' (by omega)).mp heq
    have hle := Nat.le_of_dvd (by omega) hdvd
    omega
  rw [Function.update_of_ne hne]
  exact h.entry k hlo (by omega)

theorem pop (hlt : lo < hi) : Window size ring (lo + 1) hi R :=
  ⟨hlt, by have hfits := h.fits; omega, fun k hlo hhi => h.entry k (by omega) hhi⟩

theorem counter_eq_iff (hm : size < m) : lo % m = hi % m ↔ lo = hi := by
  refine ⟨fun heq => ?_, fun heq => by rw [heq]⟩
  have hle := h.le
  have hfits := h.fits
  have hdvd := (Nat.modEq_iff_dvd' hle).mp heq
  by_contra hne
  have hle := Nat.le_of_dvd (by omega) hdvd
  omega

end Window

end SimpleKernel
