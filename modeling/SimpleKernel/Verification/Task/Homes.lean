import SimpleKernel.Verification.Task.Board

/-! Every task belongs to one core: the one that keeps it, runs it or is still on its stack. -/

namespace SimpleKernel.TaskManager

variable {N : CoreCount} {b b' : Board N} {executing executing' : N.Core → Option TaskPtr}
  {c i j source : N.Core} {t : TaskPtr}

namespace Board

def At (b : Board N) (executing : N.Core → Option TaskPtr) (i : N.Core) (t : TaskPtr) : Prop :=
  b.Near i t ∨ executing i = some t

/-- No task is at two cores, and the tasks that are executed have been created. -/
structure Homed (b : Board N) (executing : N.Core → Option TaskPtr) : Prop where
  one : ∀ {i j t}, b.At executing i t → b.At executing j t → i = j
  created : ∀ {i t}, b.At executing i t → t < b.created

theorem start_near (b : Board N) (c : N.Core) : ∃ home : Option N.Core, ∀ i t,
    (b.start c).Near i t → b.Near i t ∨ (b.created ≤ t ∧ some i = home) :=
  ⟨some c, fun _ _ hn => (near_start hn).imp_right fun hnew => ⟨hnew.2.1, congrArg some hnew.1⟩⟩

section

variable (h : b.Homed executing)
include h

theorem Homed.of_at (home : Option N.Core)
    (hat : ∀ i t, b'.At executing' i t → b.At executing i t ∨ (b.created ≤ t ∧ some i = home))
    (hlt : ∀ i t, b'.At executing' i t → t < b'.created) : b'.Homed executing' := by
  refine ⟨fun {i j t} hi hj => ?_, fun hi => hlt _ _ hi⟩
  rcases hat i t hi with hi | ⟨hi, hhome⟩
  · rcases hat j t hj with hj | ⟨hj, -⟩
    · exact h.one hi hj
    · exact absurd (h.created hi) hj.not_gt
  rcases hat j t hj with hj | ⟨-, hhome'⟩
  · exact absurd (h.created hj) hi.not_gt
  · exact Option.some.inj (hhome.trans hhome'.symm)

theorem Homed.mono (hc : b.created ≤ b'.created)
    (hat : ∀ i t, b'.At executing' i t → b.At executing i t) : b'.Homed executing' :=
  h.of_at none (fun i t hi => .inl (hat i t hi)) fun i t hi => (h.created (hat i t hi)).trans_le hc

theorem Homed.of_near (hinv : b'.Inv) (hc : b.created ≤ b'.created)
    (hnear : ∃ home : Option N.Core, ∀ i t, b'.Near i t →
      b.Near i t ∨ (b.created ≤ t ∧ some i = home)) : b'.Homed executing := by
  obtain ⟨home, hnear⟩ := hnear
  refine h.of_at home (fun i t hi => ?_) fun i t hi => ?_
  · rcases hi with hi | hi
    · exact (hnear i t hi).imp_left .inl
    · exact .inl (.inr hi)
  · rcases hi with hi | hi
    · exact hinv.created hi
    · exact (h.created (.inr hi)).trans_le hc

theorem Homed.moves (hinv : b.Inv) (hm : Moves c b b') : b'.Homed executing := by
  induction hm with
  | refl => exact h
  | tail hrest hstep ih =>
    exact ih.of_near ((hinv.moves hrest).move hstep) hstep.created_le hstep.near

theorem Homed.start (hinv : b.Inv) (hoff : ¬ b.online c) : (b.start c).Homed executing :=
  h.of_near (hinv.start hoff) (Nat.le_add_right _ 2) (start_near b c)

theorem Homed.steal (hinv : b.Inv) (hs : Steal source i t b b')
    (hrun : ∀ j, b.running j ≠ some t) (hexec : ∀ j, executing j ≠ some t) :
    b'.Homed executing := by
  have hnot : ∀ j, ¬ (b.take (.ready source .normal) t).At executing j t := by
    rintro j ((hj | hj | ⟨k, -, hk⟩) | hj)
    · exact hrun j hj
    · have hpol := (hinv.policy hs.1).2
      rw [hinv.slot hj] at hpol
      cases hpol
    · exact hinv.free_take hs.1 k hk
    · exact hexec j hj
  have hat : ∀ {j u}, b'.At executing j u → (u ≠ t ∧ b.At executing j u) ∨ (u = t ∧ j = i) := by
    intro j u hj
    by_cases hu : u = t
    · subst hu
      rcases hj with hj | hj
      · rcases hs.2.near hj with hj | ⟨-, rfl⟩
        · exact absurd (.inl hj) (hnot j)
        · exact .inr ⟨rfl, rfl⟩
      · exact absurd hj (hexec j)
    refine .inl ⟨hu, ?_⟩
    rcases hj with hj | hj
    · rcases hs.2.near hj with hj | ⟨rfl, -⟩
      · exact .inl (near_take hj)
      · exact absurd rfl hu
    · exact .inr hj
  have hcreated : b'.created = b.created := hs.2.created
  refine ⟨fun {j₁ j₂ u} h₁ h₂ => ?_, fun {j u} hj => ?_⟩
  · rcases hat h₁ with ⟨hu, h₁⟩ | ⟨hu, rfl⟩
    · rcases hat h₂ with ⟨-, h₂⟩ | ⟨hu', -⟩
      · exact h.one h₁ h₂
      · exact absurd hu' hu
    rcases hat h₂ with ⟨hu', -⟩ | ⟨-, rfl⟩
    · exact absurd hu hu'
    · rfl
  · rw [hcreated]
    rcases hat hj with ⟨-, hj⟩ | ⟨rfl, -⟩
    · exact h.created hj
    · exact hinv.created (near_of_mem hs.1)

theorem Homed.requeue (hs : Steal source source t b b') : b'.Homed executing := by
  refine h.mono hs.2.created.ge fun j u hj => ?_
  rcases hj with hj | hj
  · rcases hs.2.near hj with hj | ⟨rfl, rfl⟩
    · exact .inl (near_take hj)
    · exact .inl (near_of_mem hs.1)
  · exact .inr hj

end

end Board

theorem Moves.status_running (hm : Moves c b b') (hinv : b.Inv) (hs : b.status t = .running)
    (hnear : ¬ b.Near c t) : b'.status t = .running := by
  obtain ⟨i, hi⟩ := hinv.running hs
  induction hm with
  | refl => exact hs
  | tail hrest hstep ih =>
    refine hstep.status_running (hinv.moves hrest) ih fun hc => hnear ?_
    exact Moves.near_of_lt hrest (hinv.created (.inl hi)) (.inl hc)

/-! ## Tasks that are not stolen -/

namespace Board

variable {p : SchedPolicy}

def Lodged (p : SchedPolicy) (b : Board N) : Prop :=
  ∀ i j t, b.policy t = p → b.Near i t → b.Near j t → i = j

section

variable (h : b.Lodged p) (hinv : b.Inv)
include h hinv

theorem Lodged.of_near
    (hpolicy : ∀ t < b.created, b'.policy t = b.policy t)
    (hnear : ∃ home : Option N.Core, ∀ i t, b'.Near i t →
      b.Near i t ∨ (b.created ≤ t ∧ some i = home)) : b'.Lodged p := by
  intro i j t hp hi hj
  obtain ⟨home, hnear⟩ := hnear
  obtain hi | ⟨hlei, hi⟩ := hnear i t hi
  · obtain hj | ⟨hlej, -⟩ := hnear j t hj
    · rw [hpolicy t (hinv.created hi)] at hp
      exact h i j t hp hi hj
    · exact absurd (hinv.created hi) hlej.not_gt
  · obtain hj | ⟨-, hj⟩ := hnear j t hj
    · exact absurd (hinv.created hj) hlei.not_gt
    · exact Option.some.inj (hi.trans hj.symm)

theorem Lodged.moves (hm : Moves c b b') : b'.Lodged p := by
  induction hm with
  | refl => exact h
  | tail hrest hstep ih =>
    exact ih.of_near (hinv.moves hrest) (fun t ht => hstep.policy_eq ht) hstep.near

theorem Lodged.steal (hp : p ≠ .normal) (hs : Steal source i t b b') : b'.Lodged p := by
  have hnear : ∀ {j u}, b'.policy u = p → b'.Near j u → b.policy u = p ∧ b.Near j u := by
    intro j u hu hn
    rw [hs.2.policy] at hu
    obtain hn | ⟨rfl, -⟩ := hs.2.near hn
    · exact ⟨hu, near_take hn⟩
    · exact absurd (hu.symm.trans (hinv.policy hs.1).2) hp
  intro j₁ j₂ u hu h₁ h₂
  exact h j₁ j₂ u (hnear hu h₁).1 (hnear hu h₁).2 (hnear hu h₂).2

theorem Lodged.start : (b.start c).Lodged p :=
  h.of_near hinv (fun _ ht => (start_of_lt c ht).2) (start_near b c)

end

end Board

end SimpleKernel.TaskManager
