import Mathlib.Logic.Function.Basic
import Mathlib.Data.Nat.Notation

/-! A lock made of two words that are written one after the other: a flag saying whether
the lock is taken, and the name of its owner. Taking the lock sets the flag first and then
publishes the owner; giving it back retracts the owner first and then clears the flag. -/

namespace SimpleKernel.OwnedLock

/-- How far an agent has come in taking or giving back the lock. -/
inductive Phase where
  | out
  | won
  | owning
  | leaving
  deriving DecidableEq, Repr

/-- Distinct names for the agents, and a mark that names nobody. -/
structure Names (α : Type*) where
  name : α → ℕ
  mark : ℕ
  injective : Function.Injective name
  ne_mark : ∀ a, name a ≠ mark

structure State (α : Type*) where
  locked : Bool
  owner : ℕ
  phase : α → Phase

variable {α : Type*} {I : Names α} {s s' : State α} {a : α}

/-- The four writes of the protocol, and stuttering. -/
inductive Step (I : Names α) (s s' : State α) : Prop where
  | acquire (a : α) (free : s.locked = false) (locked : s'.locked = true)
      (owner : s'.owner = s.owner) (phase : s'.phase a = .won)
      (others : ∀ b, b ≠ a → s'.phase b = s.phase b)
  | publish (a : α) (won : s.phase a = .won) (locked : s'.locked = s.locked)
      (owner : s'.owner = I.name a) (phase : s'.phase a = .owning)
      (others : ∀ b, b ≠ a → s'.phase b = s.phase b)
  | retract (a : α) (owning : s.phase a = .owning) (locked : s'.locked = s.locked)
      (owner : s'.owner = I.mark) (phase : s'.phase a = .leaving)
      (others : ∀ b, b ≠ a → s'.phase b = s.phase b)
  | release (a : α) (leaving : s.phase a = .leaving) (locked : s'.locked = false)
      (owner : s'.owner = s.owner) (phase : s'.phase a = .out)
      (others : ∀ b, b ≠ a → s'.phase b = s.phase b)
  | stutter (locked : s'.locked = s.locked) (owner : s'.owner = s.owner)
      (phase : ∀ b, s'.phase b = s.phase b)

/-- At most one agent is inside, the flag is set while one is, and the owner word names
an agent exactly between its publication and its retraction. -/
structure Inv (I : Names α) (s : State α) : Prop where
  locked : ∀ a, s.phase a ≠ .out → s.locked = true
  excl : ∀ a b, s.phase a ≠ .out → s.phase b ≠ .out → a = b
  owner : ∀ a, s.phase a = .owning → s.owner = I.name a
  unowned : (∀ a, s.phase a ≠ .owning) → s.owner = I.mark

theorem inv_initial (hphase : ∀ a, s.phase a = .out) (howner : s.owner = I.mark) : Inv I s := by
  refine ⟨fun a ha => ?_, fun a b ha => ?_, fun a ha => ?_, fun _ => howner⟩
  · exact absurd (hphase a) ha
  · exact absurd (hphase a) ha
  · rw [hphase a] at ha; cases ha

theorem Inv.out_of_unlocked (hi : Inv I s) (h : s.locked = false) (a : α) : s.phase a = .out := by
  by_contra ha
  rw [hi.locked a ha] at h
  cases h

theorem Inv.owner_iff (hi : Inv I s) : s.owner = I.name a ↔ s.phase a = .owning := by
  refine ⟨fun h => ?_, hi.owner a⟩
  by_cases hex : ∃ b, s.phase b = .owning
  · obtain ⟨b, hb⟩ := hex
    rwa [← I.injective ((hi.owner b hb).symm.trans h)]
  · have hmark := hi.unowned fun b hb => hex ⟨b, hb⟩
    exact absurd (h.symm.trans hmark) (I.ne_mark a)

theorem Inv.others_out (hi : Inv I s) (ha : s.phase a ≠ .out) {b : α} (hb : b ≠ a) :
    s.phase b = .out := by
  by_contra h
  exact hb (hi.excl b a h ha)

theorem Inv.of_alone (hout : ∀ b, b ≠ a → s.phase b = .out)
    (hlocked : s.phase a ≠ .out → s.locked = true)
    (howner : s.phase a = .owning → s.owner = I.name a)
    (hmark : s.phase a ≠ .owning → s.owner = I.mark) : Inv I s := by
  have honly : ∀ b, s.phase b ≠ .out → b = a := by
    intro b hb
    by_contra hne
    exact hb (hout b hne)
  refine ⟨fun b hb => ?_, fun b c hb hc => ?_, fun b hb => ?_, fun h => hmark (h a)⟩
  · obtain rfl := honly b hb
    exact hlocked hb
  · rw [honly b hb, honly c hc]
  · obtain rfl := honly b (by rw [hb]; nofun)
    exact howner hb

theorem Inv.step (hi : Inv I s) (h : Step I s s') : Inv I s' := by
  cases h with
  | acquire a free locked owner phase others =>
    have hall : ∀ b, s.phase b = .out := hi.out_of_unlocked free
    have hmark : s.owner = I.mark := hi.unowned fun b hb => by rw [hall b] at hb; cases hb
    apply Inv.of_alone (a := a)
    · intro b hb; rw [others b hb, hall b]
    · intro _; exact locked
    · intro h; rw [phase] at h; cases h
    · intro _; rw [owner, hmark]
  | publish a won locked owner phase others =>
    have hin : s.phase a ≠ .out := by rw [won]; nofun
    apply Inv.of_alone (a := a)
    · intro b hb; rw [others b hb]; exact hi.others_out hin hb
    · intro _; rw [locked]; exact hi.locked a hin
    · intro _; exact owner
    · intro h; exact absurd phase h
  | retract a owning locked owner phase others =>
    have hin : s.phase a ≠ .out := by rw [owning]; nofun
    apply Inv.of_alone (a := a)
    · intro b hb; rw [others b hb]; exact hi.others_out hin hb
    · intro _; rw [locked]; exact hi.locked a hin
    · intro h; rw [phase] at h; cases h
    · intro _; exact owner
  | release a leaving locked owner phase others =>
    have hin : s.phase a ≠ .out := by rw [leaving]; nofun
    have hmark : s.owner = I.mark := by
      apply hi.unowned
      intro b hb
      obtain rfl := hi.excl b a (by rw [hb]; nofun) hin
      rw [leaving] at hb
      cases hb
    apply Inv.of_alone (a := a)
    · intro b hb; rw [others b hb]; exact hi.others_out hin hb
    · intro h; exact absurd phase h
    · intro h; rw [phase] at h; cases h
    · intro _; rw [owner, hmark]
  | stutter locked owner phase =>
    refine ⟨fun b hb => ?_, fun b c hb hc => ?_, fun b hb => ?_, fun h => ?_⟩
    · rw [locked]; exact hi.locked b (phase b ▸ hb)
    · exact hi.excl b c (phase b ▸ hb) (phase c ▸ hc)
    · rw [owner]; exact hi.owner b (phase b ▸ hb)
    · rw [owner]; exact hi.unowned fun b hb => h b ((phase b).trans hb)

end SimpleKernel.OwnedLock
