import Mathlib.Data.List.Basic
import Mathlib.Data.Nat.Notation

/-! A log of writes to several arrays, the latest write first: the value that was written last at a
position, and the largest end of a write. -/

namespace SimpleKernel.WriteLog

/-- The values written to the positions of array `key` from `offset` on. -/
structure Write (κ α : Type*) where
  key : κ
  offset : ℕ
  values : List α
  deriving DecidableEq, Repr

variable {κ α : Type*} [DecidableEq κ] {log : List (Write κ α)} {key : κ} {pos : ℕ} {w : Write κ α}

namespace Write

def valueAt (w : Write κ α) (key : κ) (pos : ℕ) : Option α :=
  if w.key = key ∧ w.offset ≤ pos then w.values[pos - w.offset]? else none

def stop (w : Write κ α) : ℕ := w.offset + w.values.length

theorem valueAt_of_ne (h : w.key ≠ key) : w.valueAt key pos = none :=
  if_neg fun hand => h hand.1

theorem lt_stop {a : α} (h : w.valueAt key pos = some a) : w.key = key ∧ pos < w.stop := by
  unfold valueAt at h
  split at h
  · rename_i hand
    obtain ⟨hlt, _⟩ := List.getElem?_eq_some_iff.mp h
    unfold stop
    exact ⟨hand.1, by omega⟩
  · cases h

theorem valueAt_eq_none (h : w.valueAt key pos = none) (hkey : w.key = key) :
    pos < w.offset ∨ w.stop ≤ pos := by
  unfold valueAt at h
  unfold stop
  split_ifs at h with hand
  · rw [List.getElem?_eq_none_iff] at h
    omega
  left
  by_contra hle
  exact hand ⟨hkey, Nat.le_of_not_lt hle⟩

end Write

/-- The value that was written last at the position. -/
def latest : List (Write κ α) → κ → ℕ → Option α
  | [], _, _ => none
  | w :: log, key, pos => (w.valueAt key pos).or (latest log key pos)

/-- The largest end of a write. -/
def extent : List (Write κ α) → κ → ℕ
  | [], _ => 0
  | w :: log, key => if w.key = key then max w.stop (extent log key) else extent log key

theorem latest_cons_of_ne (h : w.key ≠ key) : latest (w :: log) key pos = latest log key pos := by
  rw [latest, Write.valueAt_of_ne h, Option.none_or]

theorem extent_cons_of_ne (h : w.key ≠ key) : extent (w :: log) key = extent log key := if_neg h

theorem extent_cons_self (w : Write κ α) (log : List (Write κ α)) :
    extent (w :: log) w.key = max w.stop (extent log w.key) := if_pos rfl

theorem latest_cons_eq_some {a : α} (h : latest (w :: log) key pos = some a) :
    w.valueAt key pos = some a ∨ w.valueAt key pos = none ∧ latest log key pos = some a := by
  rw [latest, Option.or_eq_some_iff] at h
  exact h

theorem lt_extent {a : α} (h : latest log key pos = some a) : pos < extent log key := by
  induction log with
  | nil => cases h
  | cons w log ih =>
    obtain hw | ⟨_, hlog⟩ := latest_cons_eq_some h
    · obtain ⟨rfl, hlt⟩ := w.lt_stop hw
      rw [extent_cons_self]
      exact Nat.lt_of_lt_of_le hlt (Nat.le_max_left _ _)
    by_cases hkey : w.key = key
    · subst hkey
      rw [extent_cons_self]
      exact Nat.lt_of_lt_of_le (ih hlog) (Nat.le_max_right _ _)
    · rw [extent_cons_of_ne hkey]
      exact ih hlog

theorem extent_of_forall_key_ne (h : ∀ w ∈ log, w.key ≠ key) : extent log key = 0 := by
  induction log with
  | nil => rfl
  | cons w log ih =>
    rw [List.forall_mem_cons] at h
    exact (extent_cons_of_ne h.1).trans (ih h.2)

end SimpleKernel.WriteLog
