import SimpleKernel.Verification.Task.Fairness

/-! When the completely fair scheduler preempts a task, and where a task that arrives later stands
among the others. -/

namespace SimpleKernel

variable {data data' : TaskPtr → CfsData} {t u next : TaskPtr} {queue : List TaskPtr}

/-! ## Preemption -/

namespace CfsScheduler

variable {s : CfsScheduler}

/-- The call of `OnTick` for the running task after `k` others. -/
def repeatOnTick (s : CfsScheduler) (data : TaskPtr → CfsData) (t : TaskPtr) :
    ℕ → Bool × CfsScheduler × (TaskPtr → CfsData)
  | 0 => s.onTick data t
  | k + 1 => repeatOnTick (s.onTick data t).2.1 (s.onTick data t).2.2 t k

theorem onTick_fst (hqueue : s.readyQueue = next :: queue) (hne : next ≠ t)
    (hnext : (data next).vruntime + minGranularity < 2 ^ 64)
    (hlt : (data t).vruntime + delta (data t) < 2 ^ 64) :
    (s.onTick data t).1 = true ↔
      (data next).vruntime + minGranularity < (data t).vruntime + delta (data t) := by
  simp only [onTick, hqueue, Function.update_of_ne hne, Nat.mod_eq_of_lt hnext,
    Nat.mod_eq_of_lt hlt]
  split
  · rename_i hlt
    exact iff_of_true rfl hlt
  · rename_i hle
    exact iff_of_false Bool.false_ne_true hle

theorem delta_eq_zero_iff (hweight : 0 < (data t).weight) :
    delta (data t) = 0 ↔ 1024000 < (data t).weight := by
  rw [delta, Nat.div_eq_zero_iff]
  unfold defaultWeight
  omega

theorem repeatOnTick_preempts (hqueue : s.readyQueue = next :: queue) (hne : next ≠ t)
    (hdelta : 0 < delta (data t)) {n : ℕ}
    (hgap : (data next).vruntime + minGranularity < (data t).vruntime + n)
    (hnext : (data next).vruntime + minGranularity + delta (data t) < 2 ^ 64)
    (hlt : (data t).vruntime + delta (data t) < 2 ^ 64) :
    ∃ k, (s.repeatOnTick data t k).1 = true := by
  induction n generalizing s data with
  | zero => exact ⟨0, (onTick_fst hqueue hne (by omega) hlt).mpr (by omega)⟩
  | succ n ih =>
    by_cases hahead : (data next).vruntime + minGranularity < (data t).vruntime + delta (data t)
    · exact ⟨0, (onTick_fst hqueue hne (by omega) hlt).mpr hahead⟩
    have hticked := s.onTick_ticked hlt
    generalize hs' : (s.onTick data t).2.1 = s' at hticked
    generalize hd' : (s.onTick data t).2.2 = data' at hticked
    have hother := hticked.other next hne
    have hsame : delta (data' t) = delta (data t) := by
      rw [hticked.self]
      rfl
    have hcharged : (data' t).vruntime = (data t).vruntime + delta (data t) := by
      rw [hticked.self]
    have hcloser : (data' next).vruntime + minGranularity < (data' t).vruntime + n := by
      rw [hother]
      omega
    obtain ⟨k, hk⟩ := ih (hticked.readyQueue.trans hqueue) (by omega) hcloser (by rw [hother]; omega)
      (by omega)
    refine ⟨k + 1, ?_⟩
    rw [repeatOnTick, hs', hd']
    exact hk

theorem repeatOnTick_stays (hqueue : s.readyQueue = next :: queue) (hne : next ≠ t)
    (hdelta : delta (data t) = 0)
    (hbehind : (data t).vruntime ≤ (data next).vruntime + minGranularity)
    (hnext : (data next).vruntime + minGranularity < 2 ^ 64) (k : ℕ) :
    (s.repeatOnTick data t k).1 = false := by
  have hlt : (data t).vruntime + delta (data t) < 2 ^ 64 := by omega
  induction k generalizing s with
  | zero =>
    rw [repeatOnTick, ← Bool.not_eq_true, onTick_fst hqueue hne hnext hlt]
    omega
  | succ k ih =>
    have hticked := s.onTick_ticked hlt
    have hsame : (s.onTick data t).2.2 = data := by
      funext u
      by_cases hu : u = t
      · rw [hu, hticked.self, hdelta]
        rfl
      · exact hticked.other u hu
    rw [repeatOnTick, hsame]
    exact ih (hticked.readyQueue.trans hqueue)

/-- Repeated calls of `OnTick` preempt the running task exactly if its weight is at most `1024000`,
or if it is ahead of the first task in the queue from the beginning. -/
theorem cfs_preempts_iff (hqueue : s.readyQueue = next :: queue) (hrunning : t ∉ s.readyQueue)
    (hweight : 0 < (data t).weight)
    (hrange : max (data t).vruntime ((data next).vruntime + minGranularity) + delta (data t) <
      2 ^ 64) :
    (∃ k, (s.repeatOnTick data t k).1 = true) ↔
      (data t).weight ≤ 1024000 ∨ (data next).vruntime + minGranularity < (data t).vruntime := by
  have hne : next ≠ t := by
    rintro rfl
    exact hrunning (hqueue ▸ List.mem_cons_self)
  have hzero := delta_eq_zero_iff hweight
  constructor
  · rintro ⟨k, hk⟩
    by_contra hnot
    rw [repeatOnTick_stays hqueue hne (by omega) (by omega) (by omega)] at hk
    cases hk
  · rintro (hle | hahead)
    · exact repeatOnTick_preempts hqueue hne (by omega)
        (n := (data next).vruntime + minGranularity + 1) (by omega) (by omega) (by omega)
    · exact ⟨0, (onTick_fst hqueue hne (by omega) (by omega)).mpr (by omega)⟩

/-- Task 0 runs with the weight of its argument, and task 1 is in the queue. -/
def weighted (weight : ℕ) (t : TaskPtr) : CfsData := if t = 0 then { weight } else { weight := 1024 }

theorem cfs_preempts_default : ∃ k,
    (repeatOnTick { readyQueue := [1] } (weighted 1024) 0 k).1 = true := by
  have hqueue : ({ readyQueue := [1] } : CfsScheduler).readyQueue = [1] := rfl
  exact (cfs_preempts_iff hqueue (by decide) (by decide) (by decide)).mpr (.inl (by decide))

/-- A task of weight `1024001` is never preempted. -/
theorem heavy_task_not_preempted : (weighted 1024001 0).weight < 2 ^ 32 ∧
    ¬ ∃ k, (repeatOnTick { readyQueue := [1] } (weighted 1024001) 0 k).1 = true := by
  refine ⟨by decide, ?_⟩
  rintro ⟨k, hk⟩
  have hqueue : ({ readyQueue := [1] } : CfsScheduler).readyQueue = [1] := rfl
  rw [repeatOnTick_stays hqueue (by decide) (by decide) (by decide) (by decide)] at hk
  cases hk

end CfsScheduler

/-! ## Arrivals -/

def twoArrivals : CfsRun where
  tasks := [0, 1]
  data _ := { weight := 1024 }
  fresh := [0, 1]

theorem twoArrivals_init : arrivalSystem.init twoArrivals := by
  refine ⟨by decide, ?_, rfl, rfl, rfl⟩
  decide

end SimpleKernel
