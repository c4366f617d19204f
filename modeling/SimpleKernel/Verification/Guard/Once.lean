import SimpleKernel.Model.Guard

/-! A static local variable is initialised by one core at a time, and not again once its guard has
been released. -/

namespace SimpleKernel.Guard

variable {κ : Type*} [DecidableEq κ] {s s' : State κ} {a : Action κ}

/-! ## Steps -/

/-- Everything that a step may do. -/
inductive Step (s : State κ) : State κ → Prop where
  | acquire {c} : s.pc c = .outside → Step s (s.goto c (.compareExchange 0))
  | exchange {c expected} : s.pc c = .compareExchange expected → s.guard = expected →
      Step s (({ s with guard := inUseMask }.log (.acquired c 1)).goto c .initialising)
  | fail {c expected} : s.pc c = .compareExchange expected →
      Step s (s.goto c (.testInitialized s.guard))
  | give {c expected} : s.pc c = .testInitialized expected → expected &&& initializedMask ≠ 0 →
      Step s ((s.log (.acquired c 0)).goto c .outside)
  | wait {c expected} : s.pc c = .testInitialized expected → Step s (s.goto c .pause)
  | retry {c} : s.pc c = .pause → Step s (s.goto c (.compareExchange 0))
  | release {c} : s.pc c = .initialising →
      Step s (({ s with guard := initializedMask }.log (.released c)).goto c .outside)
  | abort {c} : s.pc c = .initialising →
      Step s (({ s with guard := 0 }.log (.aborted c)).goto c .outside)

variable {c : κ}

theorem step_of_acquireStep {spurious : Bool} (h : s.acquireStep c spurious (s.pc c) = some s') :
    Step s s' := by
  cases hpc : s.pc c with
  | outside | initialising =>
    rw [hpc] at h
    cases h
  | compareExchange expected =>
    rw [hpc, State.acquireStep] at h
    split_ifs at h with hequal
    · cases h
      exact .exchange hpc hequal.1
    · cases h
      exact .fail hpc
  | testInitialized expected =>
    rw [hpc, State.acquireStep] at h
    split_ifs at h with hset
    · cases h
      exact .give hpc hset
    · cases h
      exact .wait hpc
  | pause =>
    rw [hpc] at h
    cases h
    exact .retry hpc

theorem step_cases (h : s.step a = some s') : Step s s' := by
  cases a with
  | acquire c =>
    obtain ⟨hpc, ⟨⟩⟩ := Option.ite_none_right_eq_some.mp h
    exact .acquire hpc
  | step c spurious => exact step_of_acquireStep h
  | release c =>
    obtain ⟨hpc, ⟨⟩⟩ := Option.ite_none_right_eq_some.mp h
    exact .release hpc
  | abort c =>
    obtain ⟨hpc, ⟨⟩⟩ := Option.ite_none_right_eq_some.mp h
    exact .abort hpc

theorem goto_pc (s : State κ) (c i : κ) (p : Pc) :
    (s.goto c p).pc i = if i = c then p else s.pc i :=
  Function.update_apply s.pc c p i

/-! ## The invariant -/

namespace State

def Released (s : State κ) : Prop := ∃ c, .released c ∈ s.events

omit [DecidableEq κ] in
theorem released_log {e : Event κ} (he : ∀ c, .released c ≠ e) : (s.log e).Released ↔ s.Released := by
  simp [Released, log, he]

/-- What the value of the guard tells: nobody initialises the variable, one core does so, or it is
initialised. -/
inductive Phase (s : State κ) : Prop where
  | free : s.guard = 0 → (∀ c, s.pc c ≠ .initialising) → ¬ s.Released → Phase s
  | busy (c : κ) : s.guard = inUseMask → (∀ i, s.pc i = .initialising ↔ i = c) → ¬ s.Released →
      Phase s
  | done : s.guard = initializedMask → (∀ c, s.pc c ≠ .initialising) → s.Released → Phase s

def InOrder : List (Event κ) → Prop
  | [] => True
  | .acquired _ result :: earlier =>
    (result = 1 ∧ (∀ i, .released i ∉ earlier) ∨ result = 0 ∧ ∃ i, .released i ∈ earlier) ∧
      InOrder earlier
  | .released _ :: earlier | .aborted _ :: earlier => InOrder earlier

structure Inv (s : State κ) : Prop where
  phase : s.Phase
  expected : ∀ {c expected}, s.pc c = .compareExchange expected → expected = 0
  tested : ∀ {c expected}, s.pc c = .testInitialized expected →
    expected &&& initializedMask ≠ 0 → s.Released
  inOrder : InOrder s.events

end State

open State

omit [DecidableEq κ] in
theorem State.Phase.released_of_guard (h : s.Phase) (hset : s.guard &&& initializedMask ≠ 0) :
    s.Released := by
  cases h with
  | free hg | busy c hg =>
    rw [hg] at hset
    exact absurd (by decide) hset
  | done _ _ hr => exact hr

theorem State.Phase.goto (h : s.Phase) {p : Pc} (hc : s.pc c ≠ .initialising) (hp : p ≠ .initialising) :
    (s.goto c p).Phase := by
  have hpc : ∀ i, (s.goto c p).pc i = .initialising ↔ s.pc i = .initialising := by
    intro i
    rw [goto_pc]
    split_ifs with hi
    · subst hi
      exact iff_of_false hp hc
    · exact Iff.rfl
  cases h with
  | free hg hnone hr => exact .free hg (fun i hi => hnone i ((hpc i).mp hi)) hr
  | busy c' hg hone hr => exact .busy c' hg (fun i => (hpc i).trans (hone i)) hr
  | done hg hnone hr => exact .done hg (fun i hi => hnone i ((hpc i).mp hi)) hr

theorem State.Phase.leave (h : s.Phase) (hc : s.pc c = .initialising) :
    (∀ i, (s.goto c .outside).pc i ≠ .initialising) ∧ ¬ s.Released := by
  cases h with
  | free _ hnone _ => exact absurd hc (hnone c)
  | done _ hnone _ => exact absurd hc (hnone c)
  | busy c' _ hone hr =>
    refine ⟨?_, hr⟩
    intro i hi
    rw [goto_pc] at hi
    split at hi
    · cases hi
    · rename_i hne
      exact hne (((hone i).mp hi).trans ((hone c).mp hc).symm)

namespace State.Inv

omit [DecidableEq κ] in
theorem init : ({} : State κ).Inv := by
  refine ⟨.free rfl (fun _ => nofun) ?_, nofun, nofun, trivial⟩
  rintro ⟨c, hc⟩
  cases hc

theorem of_goto (h : s.Inv) {s₁ : State κ} {p : Pc} (hpc : s₁.pc = s.pc)
    (hphase : (s₁.goto c p).Phase) (hr : s.Released → s₁.Released) (horder : InOrder s₁.events)
    (hexpected : ∀ expected, p = .compareExchange expected → expected = 0)
    (htested : ∀ expected, p = .testInitialized expected → expected &&& initializedMask ≠ 0 →
      s₁.Released) : (s₁.goto c p).Inv := by
  refine ⟨hphase, ?_, ?_, horder⟩
  · intro i expected hi
    rw [goto_pc] at hi
    split at hi
    · exact hexpected expected hi
    · rw [hpc] at hi
      exact h.expected hi
  · intro i expected hi hset
    rw [goto_pc] at hi
    split at hi
    · exact htested expected hi hset
    · rw [hpc] at hi
      exact hr (h.tested hi hset)

theorem step (h : s.Inv) (hs : Step s s') : s'.Inv := by
  cases hs with
  | acquire hpc | retry hpc =>
    have hphase := h.phase.goto (p := .compareExchange 0) (by rw [hpc]; nofun) nofun
    refine h.of_goto rfl hphase id h.inOrder ?_ nofun
    intro expected he
    cases he
    rfl
  | @exchange c expected hpc hequal =>
    obtain rfl := h.expected hpc
    have hfree : (∀ i, s.pc i ≠ .initialising) ∧ ¬ s.Released := by
      cases h.phase with
      | free _ hnone hr => exact ⟨hnone, hr⟩
      | busy _ hg | done hg => exact absurd (hg.symm.trans hequal) (by decide)
    refine h.of_goto rfl (.busy c rfl ?_ (mt (released_log nofun).mp hfree.2))
      (released_log nofun).mpr ⟨.inl ⟨rfl, ?_⟩, h.inOrder⟩ nofun nofun
    · intro i
      rw [goto_pc]
      split_ifs with hi
      · exact iff_of_true rfl hi
      · exact iff_of_false (hfree.1 i) hi
    · exact fun i hi => hfree.2 ⟨i, hi⟩
  | fail hpc =>
    have hphase := h.phase.goto (p := .testInitialized s.guard) (by rw [hpc]; nofun) nofun
    refine h.of_goto rfl hphase id h.inOrder nofun ?_
    intro expected he hset
    cases he
    exact h.phase.released_of_guard hset
  | @give c expected hpc hset =>
    have hr := h.tested hpc hset
    have hr' : (s.log (.acquired c 0)).Released := (released_log nofun).mpr hr
    have hdone : (s.log (.acquired c 0)).Phase := by
      cases h.phase with
      | free _ _ hno => exact absurd hr hno
      | busy _ _ _ hno => exact absurd hr hno
      | done hg hnone _ => exact .done hg hnone hr'
    have hc : (s.log (.acquired c 0)).pc c ≠ .initialising := by
      change s.pc c ≠ .initialising
      rw [hpc]
      nofun
    exact h.of_goto rfl (hdone.goto hc nofun) (fun _ => hr') ⟨.inr ⟨rfl, hr⟩, h.inOrder⟩ nofun nofun
  | wait hpc =>
    have hphase := h.phase.goto (p := .pause) (by rw [hpc]; nofun) nofun
    exact h.of_goto rfl hphase id h.inOrder nofun nofun
  | @release c hpc =>
    have hnone := (h.phase.leave hpc).1
    have hr : ({ s with guard := initializedMask }.log (.released c)).Released :=
      ⟨c, List.mem_cons_self⟩
    exact h.of_goto rfl (.done rfl hnone hr) (fun _ => hr) h.inOrder nofun nofun
  | @abort c hpc =>
    obtain ⟨hnone, hno⟩ := h.phase.leave hpc
    exact h.of_goto rfl (.free rfl hnone (mt (released_log nofun).mp hno))
      (fun hr => absurd hr hno) h.inOrder nofun nofun

end State.Inv

/-! ## Runs -/

omit [DecidableEq κ] in
theorem State.InOrder.acquired {events earlier later : List (Event κ)} {result : ℕ} (h : InOrder events)
    (heq : events = later ++ .acquired c result :: earlier) :
    result = 1 ∧ (∀ i, .released i ∉ earlier) ∨ result = 0 ∧ ∃ i, .released i ∈ earlier := by
  induction later generalizing events with
  | nil =>
    subst heq
    exact h.1
  | cons event later ih =>
    subst heq
    cases event with
    | acquired _ _ => exact ih h.2 rfl
    | released _ | aborted _ =>
      rw [List.cons_append, InOrder] at h
      exact ih h rfl

/-- In every run, with spurious failures or not, at most one core is between an acquire that returned
1 and its release or abort; an acquire returns 1 only before the first release, and 0 only after
it. -/
theorem guard_initialises_once {s : State κ} (h : (system κ).Reachable s) :
    (∀ i j, s.pc i = .initialising → s.pc j = .initialising → i = j) ∧
      ∀ later c result earlier, s.events = later ++ .acquired c result :: earlier →
        (result = 1 ∧ ∀ i, .released i ∉ earlier) ∨ (result = 0 ∧ ∃ i, .released i ∈ earlier) := by
  have hinv : s.Inv := h.invariant (P := State.Inv) (fun _ hs => hs ▸ .init)
    fun _ _ _ hs hstep => hs.step (step_cases hstep)
  constructor
  · intro i j hi hj
    cases hinv.phase with
    | free _ hnone _ => exact absurd hi (hnone i)
    | busy c _ hone _ => exact ((hone i).mp hi).trans ((hone j).mp hj).symm
    | done _ hnone _ => exact absurd hi (hnone i)
  · intro later c result earlier heq
    exact hinv.inOrder.acquired heq

def waitForRelease : List (Action (Fin 2)) :=
  [.acquire 0, .acquire 1, .step 0 true, .step 0 false, .step 0 false, .step 0 false,
    .step 1 false, .step 1 false, .step 1 false, .release 0, .step 1 false, .step 1 false]

theorem guard_initialises_once_waits : ∃ s : State (Fin 2), (system (Fin 2)).Reachable s ∧
    s.events = [.acquired 1 0, .released 0, .acquired 0 1] ∧
      (∀ i j, s.pc i = .initialising → s.pc j = .initialising → i = j) ∧
      ∃ i, .released i ∈ [Event.released (0 : Fin 2), .acquired 0 1] := by
  obtain ⟨s, hs, hevents⟩ := (system (Fin 2)).exists_of_run (fun _ _ => True)
    waitForRelease (fun s => s.events = [.acquired 1 0, .released 0, .acquired 0 1]) (s := {}) rfl
    (by decide)
  obtain ⟨hone, horder⟩ := guard_initialises_once hs
  obtain ⟨hresult, -⟩ | ⟨-, hreleased⟩ := horder [] 1 0 _ hevents
  · cases hresult
  · exact ⟨s, hs, hevents, hone, hreleased⟩

end SimpleKernel.Guard
