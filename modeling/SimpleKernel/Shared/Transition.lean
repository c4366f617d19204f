import Mathlib.Logic.Function.Basic
import Mathlib.Data.List.Basic

/-! Transition systems with computed steps. An action that is not enabled in a
state has no successor; all nondeterminism is in the choice of the action. -/

namespace SimpleKernel

/-- A transition system over states `σ` and actions `ι`. -/
structure Transition (σ ι : Type*) where
  init : σ → Prop
  step : σ → ι → Option σ

namespace Transition

variable {σ ι : Type*} (T : Transition σ ι)

/-- The states reached by runs all of whose steps meet the side condition `ok`,
which sees the state before the step. -/
inductive ReachableBy (ok : σ → ι → Prop) : σ → Prop where
  | init {s} : T.init s → ReachableBy ok s
  | step {s a s'} : ReachableBy ok s → ok s a → T.step s a = some s' → ReachableBy ok s'

def Reachable : σ → Prop := T.ReachableBy fun _ _ => True

variable {T} {ok : σ → ι → Prop}

theorem ReachableBy.mono {ok' : σ → ι → Prop} (hok : ∀ s a, ok s a → ok' s a) {s : σ}
    (h : T.ReachableBy ok s) : T.ReachableBy ok' s := by
  induction h with
  | init h => exact .init h
  | step _ ha hs ih => exact .step ih (hok _ _ ha) hs

theorem ReachableBy.invariant {P : σ → Prop} (hinit : ∀ s, T.init s → P s)
    (hstep : ∀ s a s', P s → ok s a → T.step s a = some s' → P s') {s : σ}
    (h : T.ReachableBy ok s) : P s := by
  induction h with
  | init h => exact hinit _ h
  | step _ ha hs ih => exact hstep _ _ _ ih ha hs

theorem Reachable.invariant {P : σ → Prop} (hinit : ∀ s, T.init s → P s)
    (hstep : ∀ s a s', P s → T.step s a = some s' → P s') {s : σ} (h : T.Reachable s) : P s :=
  ReachableBy.invariant hinit (fun s a s' hp _ => hstep s a s' hp) h

theorem Reachable.step {s s' : σ} {a : ι} (h : T.Reachable s) (hs : T.step s a = some s') :
    T.Reachable s' :=
  ReachableBy.step h trivial hs

/-- Execute a list of actions, checking the side condition before each of them. -/
def run (T : Transition σ ι) (ok : σ → ι → Prop) [∀ s a, Decidable (ok s a)] :
    σ → List ι → Option σ
  | s, [] => some s
  | s, a :: rest => if ok s a then (T.step s a).bind fun s' => run T ok s' rest else none

theorem ReachableBy.of_run [∀ s a, Decidable (ok s a)] {s s' : σ} {acts : List ι}
    (hs : T.ReachableBy ok s) (h : T.run ok s acts = some s') : T.ReachableBy ok s' := by
  induction acts generalizing s with
  | nil =>
    simp only [run, Option.some.injEq] at h
    exact h ▸ hs
  | cons a rest ih =>
    simp only [run] at h
    split at h
    · rename_i hok
      obtain ⟨t, ht, hrest⟩ := Option.bind_eq_some_iff.mp h
      exact ih (.step hs hok ht) hrest
    · cases h

theorem exists_of_run (T : Transition σ ι) (ok : σ → ι → Prop)
    [∀ s a, Decidable (ok s a)] (acts : List ι) (p : σ → Prop) [DecidablePred p] {s : σ}
    (hs : T.init s) (h : (T.run ok s acts).any (fun s' => decide (p s')) = true) :
    ∃ s', T.ReachableBy ok s' ∧ p s' := by
  cases hr : T.run ok s acts with
  | none => simp [hr] at h
  | some s' =>
    rw [hr, Option.any_some] at h
    exact ⟨s', ReachableBy.of_run (.init hs) hr, of_decide_eq_true h⟩

def startAt (T : Transition σ ι) (s : σ) : Transition σ ι := { T with init := (· = s) }

theorem Reachable.startAt {s s' : σ} (hs : T.Reachable s) (h : (T.startAt s).ReachableBy ok s') :
    T.Reachable s' :=
  h.invariant (fun _ heq => heq ▸ hs) fun _ _ _ hr _ hstep => hr.step hstep

/-! ## Records of runs -/

/-- The system together with a record that every step extends. -/
def recorded {η : Type*} (T : Transition σ ι) (start : η) (record : σ → ι → σ → η → η) :
    Transition (σ × η) ι where
  init p := T.init p.1 ∧ p.2 = start
  step p a := (T.step p.1 a).map fun s' => (s', record p.1 a s' p.2)

theorem step_recorded {η : Type*} {start : η} {record : σ → ι → σ → η → η} {p p' : σ × η} {a : ι}
    (h : (T.recorded start record).step p a = some p') :
    T.step p.1 a = some p'.1 ∧ p'.2 = record p.1 a p'.1 p.2 := by
  obtain ⟨s', hs, rfl⟩ := Option.map_eq_some_iff.mp h
  exact ⟨hs, rfl⟩

theorem ReachableBy.recorded {η : Type*} {start : η} {record : σ → ι → σ → η → η}
    {ok : σ × η → ι → Prop} {P : σ → η → Prop} (hinit : ∀ s, T.init s → P s start)
    (hstep : ∀ s h a s', P s h → ok (s, h) a → T.step s a = some s' → P s' (record s a s' h))
    {p : σ × η} (hp : (T.recorded start record).ReachableBy ok p) : P p.1 p.2 := by
  refine hp.invariant (P := fun p => P p.1 p.2) ?_ ?_
  · intro p h
    rw [h.2]
    exact hinit p.1 h.1
  · intro p a p' hp hok hs
    obtain ⟨hs, hrecord⟩ := step_recorded hs
    rw [hrecord]
    exact hstep p.1 p.2 a p'.1 hp hok hs

end Transition

end SimpleKernel
