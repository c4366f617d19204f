import Mathlib.Logic.Function.Iterate
import Mathlib.Logic.Function.Basic

/-! Copying one cell after another, with the two places moved on by one function. -/

namespace Copying

open Function

variable {α β : Type*} [DecidableEq α]

def copyLoop (next : α → α) (m : α → β) (d s : α) : ℕ → α → β
  | 0 => m
  | n + 1 => copyLoop next (update m d (m s)) (next d) (next s) n

variable {next : α → α} {m : α → β} {d s a : α} {n i : ℕ}

theorem copyLoop_of_ne (ha : ∀ i < n, a ≠ next^[i] d) : copyLoop next m d s n a = m a := by
  induction n generalizing m d s with
  | zero => rfl
  | succ n ih =>
    rw [copyLoop, ih fun i hi => ha (i + 1) (by omega)]
    exact update_of_ne (ha 0 (by omega)) _ _

theorem copyLoop_iterate (hd : ∀ i < n, ∀ j < i, next^[i] d ≠ next^[j] d)
    (hs : ∀ i < n, ∀ j < i, next^[i] s ≠ next^[j] d) (hi : i < n) :
    copyLoop next m d s n (next^[i] d) = m (next^[i] s) := by
  induction n generalizing m d s i with
  | zero => omega
  | succ n ih =>
    rw [copyLoop]
    cases i with
    | zero =>
      rw [copyLoop_of_ne fun j hj => (hd (j + 1) (by omega) 0 (by omega)).symm]
      exact update_self _ _ _
    | succ i =>
      rw [iterate_succ_apply, iterate_succ_apply,
        ih (fun i hi j hj => hd (i + 1) (by omega) (j + 1) (by omega))
          (fun i hi j hj => hs (i + 1) (by omega) (j + 1) (by omega)) (by omega)]
      exact update_of_ne (hs (i + 1) hi 0 (by omega)) _ _

end Copying
