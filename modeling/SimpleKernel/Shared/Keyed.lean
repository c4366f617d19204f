import Mathlib.Data.List.Perm.Basic
import Mathlib.Data.List.Nodup

/-! Lists whose members have different keys: the member with a key, and the removal of a member by
putting the last one in its place. -/

namespace SimpleKernel.Keyed

open List

variable {α κ : Type*} [DecidableEq κ] {key : α → κ} {l l' : List α} {a : α} {k : κ}

theorem find?_eq_some_iff (hnodup : (l.map key).Nodup) :
    l.find? (fun b => key b = k) = some a ↔ a ∈ l ∧ key a = k := by
  induction l with
  | nil => simp
  | cons b l ih =>
    rw [map_cons, nodup_cons] at hnodup
    by_cases hb : key b = k
    · rw [find?_cons_of_pos (by simpa using hb), Option.some.injEq, mem_cons]
      constructor
      · rintro rfl
        exact ⟨.inl rfl, hb⟩
      · rintro ⟨rfl | ha, hk⟩
        · rfl
        · exact absurd (mem_map.mpr ⟨a, ha, hk.trans hb.symm⟩) hnodup.1
    rw [find?_cons_of_neg (by simpa using hb), ih hnodup.2, mem_cons]
    constructor
    · rintro ⟨ha, hk⟩
      exact ⟨.inr ha, hk⟩
    · rintro ⟨rfl | ha, hk⟩
      · exact absurd hk hb
      · exact ⟨ha, hk⟩

theorem find?_eq_none_iff : l.find? (fun b => key b = k) = none ↔ ∀ b ∈ l, key b ≠ k := by
  simp

theorem find?_concat (ha : ∀ b ∈ l, key b ≠ key a) :
    (l ++ [a]).find? (fun b => key b = k) =
      if k = key a then some a else l.find? fun b => key b = k := by
  rw [find?_append]
  by_cases hk : k = key a
  · subst hk
    rw [find?_eq_none_iff.mpr ha]
    simp
  · have hak : ¬ key a = k := fun h => hk h.symm
    simp [hak, hk]

theorem find?_of_perm_cons (hnodup : (l.map key).Nodup) (hp : l.Perm (a :: l')) :
    l'.find? (fun b => key b = k) = if k = key a then none else l.find? fun b => key b = k := by
  have hkeys := (hp.map key).nodup_iff.mp hnodup
  rw [map_cons, nodup_cons] at hkeys
  by_cases hk : k = key a
  · rw [if_pos hk, find?_eq_none_iff]
    rintro b hb rfl
    exact hkeys.1 (hk ▸ mem_map_of_mem hb)
  rw [if_neg hk]
  apply Option.ext
  intro b
  rw [find?_eq_some_iff hkeys.2, find?_eq_some_iff hnodup, hp.mem_iff, mem_cons]
  constructor
  · rintro ⟨hb, hkb⟩
    exact ⟨.inr hb, hkb⟩
  · rintro ⟨rfl | hb, hkb⟩
    · exact absurd hkb.symm hk
    · exact ⟨hb, hkb⟩

theorem map_range_perm (f : ℕ → α) {n j : ℕ} (hj : j ≤ n) :
    ((range (n + 1)).map f).Perm (f j :: (range n).map fun k => if k = j then f n else f k) := by
  rw [range_succ, map_append, map_singleton]
  refine (perm_append_singleton _ _).trans ?_
  by_cases hjn : j = n
  · subst hjn
    have hmap : (range j).map (fun k => if k = j then f j else f k) = (range j).map f := by
      apply map_congr_left
      intro k hk
      rw [if_neg (Nat.ne_of_lt (mem_range.mp hk))]
    rw [hmap]
  have hmem : j ∈ range n := mem_range.mpr (by omega)
  have hperm := perm_cons_erase hmem
  have hmap : ((range n).erase j).map (fun k => if k = j then f n else f k) =
      ((range n).erase j).map f := by
    apply map_congr_left
    intro k hk
    rw [if_neg (nodup_range.mem_erase_iff.mp hk).1]
  have hleft := hperm.map f
  have hright := hperm.map fun k => if k = j then f n else f k
  rw [map_cons] at hleft hright
  rw [if_pos rfl, hmap] at hright
  have hswap : (f n :: f j :: ((range n).erase j).map f).Perm
      (f j :: f n :: ((range n).erase j).map f) := List.Perm.swap _ _ _
  exact ((hleft.cons _).trans hswap).trans (hright.symm.cons _)

end SimpleKernel.Keyed
