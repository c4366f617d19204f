import Mathlib.Data.List.Nodup
import Mathlib.Data.Multiset.UnionInter
import Mathlib.Data.Multiset.ZeroCons
import Mathlib.Logic.Function.Basic

/-! Elements that move between holders. -/

namespace SimpleKernel.Holders

variable {κ α : Type*} {holds : κ → Multiset α} {k k' : κ} {x y : α}

/-- No element is held twice, neither by one holder nor by two of them. -/
structure Exclusive (holds : κ → Multiset α) : Prop where
  nodup : ∀ k, (holds k).Nodup
  one : ∀ {k k' x}, x ∈ holds k → x ∈ holds k' → k = k'

theorem Exclusive.nodup_flatMap (h : Exclusive holds) {contents : κ → List α}
    (hc : ∀ k, holds k = contents k) {ks : List κ} (hks : ks.Nodup) :
    (ks.flatMap contents).Nodup := by
  refine List.nodup_flatMap.mpr ⟨fun k _ => ?_, hks.imp ?_⟩
  · have hk := h.nodup k
    rwa [hc, Multiset.coe_nodup] at hk
  · intro i j hij x hi hj
    refine hij (h.one (x := x) ?_ ?_)
    · rw [hc]
      exact hi
    · rw [hc]
      exact hj

variable [DecidableEq κ]

def put (holds : κ → Multiset α) (k : κ) (x : α) : κ → Multiset α :=
  Function.update holds k (x ::ₘ holds k)

theorem update_eq_put {l l' : List α} (hk : holds k = l) (h : l'.Perm (x :: l)) :
    Function.update holds k l' = put holds k x := by
  rw [put, hk, Multiset.cons_coe, Multiset.coe_eq_coe.mpr h]

theorem mem_put : y ∈ put holds k x k' ↔ (k' = k ∧ y = x) ∨ y ∈ holds k' := by
  by_cases hk : k' = k
  · subst hk
    simp [put]
  · simp [put, hk]

theorem Exclusive.put (h : Exclusive holds) (hx : ∀ k', x ∉ holds k') :
    Exclusive (put holds k x) := by
  refine ⟨fun k' => ?_, fun {i j y} hi hj => ?_⟩
  · by_cases hk : k' = k
    · subst hk
      simpa [Holders.put] using ⟨hx k', h.nodup k'⟩
    · simpa [Holders.put, hk] using h.nodup k'
  · rcases mem_put.mp hi with ⟨rfl, rfl⟩ | hi'
    · rcases mem_put.mp hj with ⟨rfl, -⟩ | hj'
      · rfl
      · exact absurd hj' (hx j)
    rcases mem_put.mp hj with ⟨rfl, rfl⟩ | hj'
    · exact absurd hi' (hx i)
    · exact h.one hi' hj'

variable [DecidableEq α]

def take (holds : κ → Multiset α) (k : κ) (x : α) : κ → Multiset α :=
  Function.update holds k ((holds k).erase x)

theorem update_eq_take {l l' : List α} (hk : holds k = l) (h : l.Perm (x :: l')) :
    Function.update holds k l' = take holds k x := by
  rw [take, hk, Multiset.coe_eq_coe.mpr h, ← Multiset.cons_coe, Multiset.erase_cons_head]

theorem mem_of_mem_take (h : y ∈ take holds k x k') : y ∈ holds k' := by
  by_cases hk : k' = k
  · subst hk
    exact Multiset.mem_of_mem_erase (by simpa [take] using h)
  · simpa [take, hk] using h

theorem mem_take_of_ne (hy : y ≠ x) : y ∈ take holds k x k' ↔ y ∈ holds k' := by
  by_cases hk : k' = k
  · subst hk
    simp [take, Multiset.mem_erase_of_ne hy]
  · simp [take, hk]

theorem Exclusive.mem_take (h : Exclusive holds) (hx : x ∈ holds k) :
    y ∈ take holds k x k' ↔ y ∈ holds k' ∧ y ≠ x := by
  by_cases hk : k' = k
  · subst hk
    simp [take, (h.nodup k').mem_erase_iff, and_comm]
  refine ⟨fun hy => ⟨mem_of_mem_take hy, ?_⟩, fun hy => by simpa [take, hk] using hy.1⟩
  rintro rfl
  exact hk (h.one (mem_of_mem_take hy) hx)

theorem Exclusive.take (h : Exclusive holds) : Exclusive (take holds k x) := by
  refine ⟨fun k' => ?_, fun hi hj => h.one (mem_of_mem_take hi) (mem_of_mem_take hj)⟩
  by_cases hk : k' = k
  · subst hk
    simpa [Holders.take] using (h.nodup k').erase x
  · simpa [Holders.take, hk] using h.nodup k'

end SimpleKernel.Holders
