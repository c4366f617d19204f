import Mathlib.Data.List.Perm.Basic
import Mathlib.Data.Nat.Notation

/-! The array heap of a priority queue. The comparison is an argument of every operation,
for the keys of the elements may change between two of them. -/

namespace SimpleKernel.BinaryHeap

variable {α : Type*} (comp : α → α → Bool)

def below (a : Array α) (i j : ℕ) : Bool :=
  match a[i]?, a[j]? with
  | some x, some y => comp x y
  | _, _ => false

/-- Move the element at `i` up while its parent compares below it. -/
def siftUp : ℕ → Array α → ℕ → Array α
  | 0, a, _ => a
  | fuel + 1, a, i =>
    let parent := (i - 1) / 2
    if 0 < i ∧ below comp a parent i then siftUp fuel (a.swapIfInBounds i parent) parent else a

def sink : ℕ → Array α → ℕ → Array α × ℕ
  | 0, a, i => (a, i)
  | fuel + 1, a, i =>
    let right := 2 * i + 2
    if right < a.size then
      let child := if below comp a right (right - 1) then right - 1 else right
      sink fuel (a.swapIfInBounds i child) child
    else if right = a.size then (a.swapIfInBounds i (right - 1), right - 1)
    else (a, i)

def push (a : Array α) (x : α) : Array α := siftUp comp a.size (a.push x) a.size

def pop (a : Array α) : Array α :=
  let rest := (a.swapIfInBounds 0 (a.size - 1)).pop
  let sunk := sink comp rest.size rest 0
  siftUp comp rest.size sunk.1 sunk.2

/-! ## The elements -/

theorem swapIfInBounds_perm (a : Array α) (i j : ℕ) :
    (a.swapIfInBounds i j).toList.Perm a.toList := by
  unfold Array.swapIfInBounds
  split
  · split
    · exact (Array.swap_perm _ _).toList
    · exact List.Perm.refl _
  · exact List.Perm.refl _

variable {comp} {a : Array α} {i j : ℕ}

theorem siftUp_perm (fuel : ℕ) (a : Array α) (i : ℕ) :
    (siftUp comp fuel a i).toList.Perm a.toList := by
  induction fuel generalizing a i with
  | zero => exact List.Perm.refl _
  | succ fuel ih =>
    simp only [siftUp]
    split
    · exact (ih _ _).trans (swapIfInBounds_perm a _ _)
    · exact List.Perm.refl _

theorem sink_perm (fuel : ℕ) (a : Array α) (i : ℕ) :
    (sink comp fuel a i).1.toList.Perm a.toList := by
  induction fuel generalizing a i with
  | zero => exact List.Perm.refl _
  | succ fuel ih =>
    simp only [sink]
    split
    · exact (ih _ _).trans (swapIfInBounds_perm a _ _)
    split
    · exact swapIfInBounds_perm a _ _
    · exact List.Perm.refl _

@[simp] theorem size_siftUp (fuel : ℕ) (a : Array α) (i : ℕ) :
    (siftUp comp fuel a i).size = a.size := by
  simpa using (siftUp_perm fuel a i).length_eq

@[simp] theorem size_sink (fuel : ℕ) (a : Array α) (i : ℕ) :
    (sink comp fuel a i).1.size = a.size := by
  simpa using (sink_perm fuel a i).length_eq

theorem push_perm (a : Array α) (x : α) : (push comp a x).toList.Perm (x :: a.toList) := by
  refine (siftUp_perm _ _ _).trans ?_
  rw [Array.toList_push]
  exact List.perm_append_singleton x a.toList

theorem swap_pop_perm {x : α} (h : a[0]? = some x) :
    a.toList.Perm (x :: (a.swapIfInBounds 0 (a.size - 1)).pop.toList) := by
  obtain ⟨h0, rfl⟩ := Array.getElem?_eq_some_iff.mp h
  have hlast : a.size - 1 < a.size := Nat.sub_lt h0 Nat.one_pos
  have hswap : a.swapIfInBounds 0 (a.size - 1) = a.swap 0 (a.size - 1) h0 hlast := by
    simp [Array.swapIfInBounds, h0, hlast]
  rw [hswap]
  have hne : (a.swap 0 (a.size - 1) h0 hlast).toList ≠ [] := by
    intro hnil
    have hlen := congrArg List.length hnil
    simp only [Array.length_toList, Array.size_swap, List.length_nil] at hlen
    omega
  have hsplit := List.dropLast_concat_getLast hne
  have hgl : (a.swap 0 (a.size - 1) h0 hlast).toList.getLast hne = a[0] := by
    rw [List.getLast_eq_getElem]
    simp
  rw [hgl] at hsplit
  rw [Array.toList_pop]
  refine ((Array.swap_perm h0 hlast).toList.symm.trans ?_).trans (List.perm_append_singleton _ _)
  rw [hsplit]

theorem pop_perm {x : α} (h : a[0]? = some x) : a.toList.Perm (x :: (pop comp a).toList) := by
  refine (swap_pop_perm h).trans (List.Perm.cons x ?_)
  exact ((siftUp_perm _ _ _).trans (sink_perm _ _ _)).symm

/-! ## The order -/

variable (comp) in
/-- No element compares below one of its children. -/
def IsHeap (a : Array α) : Prop := ∀ j, 0 < j → j < a.size → below comp a ((j - 1) / 2) j = false

theorem IsHeap.congr {comp' : α → α → Bool} (h : IsHeap comp a)
    (hc : ∀ x ∈ a, ∀ y ∈ a, comp' x y = comp x y) : IsHeap comp' a := by
  intro j hj hlt
  have hp : (j - 1) / 2 < a.size := by omega
  have hold := h j hj hlt
  unfold below at hold ⊢
  rw [Array.getElem?_eq_getElem hlt, Array.getElem?_eq_getElem hp] at hold ⊢
  exact (hc _ (Array.getElem_mem hp) _ (Array.getElem_mem hlt)).trans hold

def exchange (i j k : ℕ) : ℕ := if k = i then j else if k = j then i else k

theorem getElem?_swapIfInBounds (hi : i < a.size) (hj : j < a.size)
    (k : ℕ) : (a.swapIfInBounds i j)[k]? = a[exchange i j k]? := by
  simp only [Array.swapIfInBounds, hi, hj, dif_pos, exchange]
  rw [Array.getElem?_swap]
  by_cases hkj : j = k
  · subst hkj
    by_cases hki : j = i
    · subst hki
      simp
    · simp [hki]
  by_cases hki : i = k
  · subst hki
    simp [hkj]
  · simp [hkj, hki, Ne.symm hkj, Ne.symm hki]

theorem below_swapIfInBounds (hi : i < a.size) (hj : j < a.size)
    (k l : ℕ) : below comp (a.swapIfInBounds i j) k l =
      below comp a (exchange i j k) (exchange i j l) := by
  simp [below, getElem?_swapIfInBounds hi hj]

section Order

variable (hasymm : ∀ x y, comp x y = true → comp y x = false)
  (htrans : ∀ x y z, comp x y = false → comp y z = false → comp x z = false)

include hasymm in
theorem below_asymm (h : below comp a i j = true) : below comp a j i = false := by
  unfold below at h ⊢
  cases hi : a[i]? <;> cases hj : a[j]? <;> simp only [hi, hj] at h ⊢
  exact hasymm _ _ h

include hasymm in
theorem below_self (a : Array α) (i : ℕ) : below comp a i i = false := by
  by_contra hk
  rw [Bool.not_eq_false] at hk
  rw [below_asymm hasymm hk] at hk
  cases hk

include htrans in
theorem below_trans {k : ℕ} (hj : j < a.size) (h : below comp a i j = false)
    (h' : below comp a j k = false) : below comp a i k = false := by
  unfold below at *
  rw [Array.getElem?_eq_getElem hj] at h h'
  cases hi : a[i]? <;> cases hk : a[k]? <;> simp only [hi, hk] at h h' ⊢
  exact htrans _ _ _ h h'

variable (comp) in
/-- A heap but for the element at `i`, which may have to move up. -/
structure RisingAt (a : Array α) (i : ℕ) : Prop where
  other : ∀ j, 0 < j → j < a.size → j ≠ i → below comp a ((j - 1) / 2) j = false
  across : ∀ j, 0 < i → j < a.size → 0 < j → (j - 1) / 2 = i → below comp a ((i - 1) / 2) j = false

include hasymm htrans in
theorem siftUp_isHeap {fuel : ℕ} (hfuel : i ≤ fuel) (hi : i < a.size)
    (h : RisingAt comp a i) : IsHeap comp (siftUp comp fuel a i) := by
  induction fuel generalizing a i with
  | zero =>
    intro j hj hlt
    exact h.other j hj hlt (by omega)
  | succ fuel ih =>
    rw [siftUp]
    split
    · rename_i hup
      obtain ⟨h0, hup⟩ := hup
      have hp : (i - 1) / 2 < i := by omega
      have hp' : (i - 1) / 2 < a.size := by omega
      have hback := below_asymm hasymm hup
      refine ih (by omega) (by simpa using hp') ⟨fun j hj hlt hne => ?_, fun j hp0 hlt hj hpar => ?_⟩
      · rw [below_swapIfInBounds hi hp']
        simp only [Array.size_swapIfInBounds] at hlt
        by_cases hji : j = i
        · subst hji
          simpa [exchange, Nat.ne_of_lt hp] using hback
        by_cases hpi : (j - 1) / 2 = i
        · simpa [exchange, hpi, hji, hne] using h.across j h0 hlt hj hpi
        by_cases hpp : (j - 1) / 2 = (i - 1) / 2
        · have hsib := h.other j hj hlt hji
          rw [hpp] at hsib
          simpa [exchange, hpp, Nat.ne_of_lt hp, hji, hne] using below_trans htrans hp' hback hsib
        · simpa [exchange, hpi, hpp, hji, hne] using h.other j hj hlt hji
      · rw [below_swapIfInBounds hi hp']
        simp only [Array.size_swapIfInBounds] at hlt
        have habove := h.other ((i - 1) / 2) hp0 hp' (Nat.ne_of_lt hp)
        have hgi : ((i - 1) / 2 - 1) / 2 ≠ i := by omega
        have hgp : ((i - 1) / 2 - 1) / 2 ≠ (i - 1) / 2 := by omega
        by_cases hji : j = i
        · subst hji
          simpa [exchange, hgi, hgp] using habove
        have hjp : j ≠ (i - 1) / 2 := by omega
        have hsib := h.other j hj hlt hji
        rw [hpar] at hsib
        simpa [exchange, hgi, hgp, hji, hjp] using below_trans htrans hp' habove hsib
    · rename_i hstay
      intro j hj hlt
      by_cases hji : j = i
      · subst hji
        simpa [hj] using hstay
      · exact h.other j hj hlt hji

include hasymm htrans in
theorem push_isHeap (h : IsHeap comp a) (x : α) : IsHeap comp (push comp a x) := by
  refine siftUp_isHeap hasymm htrans (Nat.le_refl _) (by simp)
    ⟨fun j hj hlt hne => ?_, fun j _ hlt _ hpar => ?_⟩
  · have hlt' : j < a.size := by
      simp only [Array.size_push] at hlt
      omega
    have hold := h j hj hlt'
    unfold below at hold ⊢
    rwa [Array.getElem?_push_lt hlt', Array.getElem?_push_lt (by omega),
      ← Array.getElem?_eq_getElem, ← Array.getElem?_eq_getElem]
  · simp only [Array.size_push] at hlt
    omega

variable (comp) in
/-- A heap but for the element at `i`, which may have to move down. -/
structure SinkingAt (a : Array α) (i : ℕ) : Prop where
  other : ∀ j, 0 < j → j < a.size → j ≠ i → (j - 1) / 2 ≠ i → below comp a ((j - 1) / 2) j = false
  across : ∀ j, 0 < i → j < a.size → 0 < j → (j - 1) / 2 = i → below comp a ((i - 1) / 2) j = false

theorem SinkingAt.exchange {c : ℕ} (h : SinkingAt comp a i) (hi : i < a.size)
    (hc : c < a.size) (hc0 : 0 < c) (hpar : (c - 1) / 2 = i)
    (hmin : ∀ j, j < a.size → 0 < j → (j - 1) / 2 = i → below comp a c j = false) :
    SinkingAt comp (a.swapIfInBounds i c) c := by
  refine ⟨fun j hj hlt hne hpc => ?_, fun j _ hlt hj hpj => ?_⟩
  · rw [below_swapIfInBounds hi hc]
    simp only [Array.size_swapIfInBounds] at hlt
    by_cases hji : j = i
    · subst hji
      have hgi : (j - 1) / 2 ≠ j := by omega
      have hgc : (j - 1) / 2 ≠ c := by omega
      simpa [BinaryHeap.exchange, hgi, hgc] using h.across c hj hc hc0 hpar
    · by_cases hpi : (j - 1) / 2 = i
      · simpa [BinaryHeap.exchange, hpi, hji, hne] using hmin j hlt hj hpi
      · simpa [BinaryHeap.exchange, hpi, hpc, hji, hne] using h.other j hj hlt hji hpi
  · rw [below_swapIfInBounds hi hc]
    simp only [Array.size_swapIfInBounds] at hlt
    have hji : j ≠ i := by omega
    have hjc : j ≠ c := by omega
    have hold := h.other j hj hlt hji (by omega)
    rw [hpj] at hold
    simpa [BinaryHeap.exchange, hpar, hji, hjc] using hold

include hasymm in
theorem sink_rising {fuel : ℕ} (hfuel : a.size ≤ fuel + i)
    (h0 : i < a.size ∨ a.size = 0) (h : SinkingAt comp a i) :
    RisingAt comp (sink comp fuel a i).1 (sink comp fuel a i).2 ∧
      ((sink comp fuel a i).2 < (sink comp fuel a i).1.size ∨ a.size = 0) := by
  have hleaf : ∀ {a : Array α} {i : ℕ}, SinkingAt comp a i → a.size ≤ 2 * i + 1 → RisingAt comp a i := by
    intro a i h hl
    refine ⟨fun j hj hlt hne => h.other j hj hlt hne (by omega), fun j _ hlt hj hpar => ?_⟩
    omega
  induction fuel generalizing a i with
  | zero =>
    have hl : a.size ≤ 2 * i + 1 := by omega
    exact ⟨hleaf h hl, h0⟩
  | succ fuel ih =>
    rw [sink]
    simp only
    split
    · rename_i hright
      have hi : i < a.size := by omega
      set c := if below comp a (2 * i + 2) (2 * i + 2 - 1) then 2 * i + 2 - 1 else 2 * i + 2 with hc
      have hcases : c = 2 * i + 1 ∨ c = 2 * i + 2 := by
        rw [hc]
        split
        · exact .inl (by omega)
        · exact .inr rfl
      have hmin : ∀ j, j < a.size → 0 < j → (j - 1) / 2 = i → below comp a c j = false := by
        intro j hlt hj hpar
        have hj' : j = 2 * i + 1 ∨ j = 2 * i + 2 := by omega
        rw [hc]
        split
        · rename_i hb
          rcases hj' with rfl | rfl
          · exact below_self hasymm a _
          · exact below_asymm hasymm hb
        rename_i hb
        rcases hj' with rfl | rfl
        · simpa using hb
        · exact below_self hasymm a _
      have hnext := h.exchange hi (by omega) (by omega) (by omega) hmin
      have hres := ih (a := a.swapIfInBounds i c) (i := c) (by simp; omega) (by simp; omega) hnext
      exact ⟨hres.1, hres.2.imp_right fun h => by simpa using h⟩
    · split
      · rename_i hright
        have hnext := h.exchange (c := 2 * i + 2 - 1) (by omega) (by omega) (by omega) (by omega)
          fun j hlt hj hpar => by
            obtain rfl : j = 2 * i + 2 - 1 := by omega
            exact below_self hasymm a _
        exact ⟨hleaf hnext (by simp; omega), .inl (by simp; omega)⟩
      · have hl : a.size ≤ 2 * i + 1 := by omega
        exact ⟨hleaf h hl, h0⟩

include hasymm htrans in
theorem pop_isHeap (h : IsHeap comp a) : IsHeap comp (pop comp a) := by
  unfold pop
  set rest := (a.swapIfInBounds 0 (a.size - 1)).pop with hrest
  have hsize : rest.size = a.size - 1 := by simp [hrest]
  simp only
  by_cases hempty : rest.size = 0
  · intro j hj hlt
    rw [size_siftUp, size_sink] at hlt
    omega
  have hlast : a.size - 1 < a.size := by omega
  have hget : ∀ k, 0 < k → k < rest.size → rest[k]? = a[k]? := by
    intro k hk hlt
    rw [hrest, Array.getElem?_pop, if_pos (by simpa [hsize] using hlt),
      getElem?_swapIfInBounds (by omega) hlast]
    congr 1
    unfold exchange
    rw [if_neg (by omega), if_neg (by omega)]
  have hsink : SinkingAt comp rest 0 := by
    refine ⟨fun j hj hlt _ hpar => ?_, fun j h0 => absurd h0 (Nat.lt_irrefl 0)⟩
    have hold := h j hj (by omega)
    unfold below at hold ⊢
    rwa [hget j hj hlt, hget _ (by omega) (by omega)]
  have hfuel : rest.size ≤ rest.size + 0 := Nat.le_refl _
  obtain ⟨hrising, hlt⟩ := sink_rising hasymm hfuel (by omega) hsink
  have hlt' := hlt.resolve_right hempty
  have hsame : (sink comp rest.size rest 0).1.size = rest.size := size_sink _ _ _
  exact siftUp_isHeap hasymm htrans (by omega) hlt' hrising

include hasymm htrans in
theorem IsHeap.root (h : IsHeap comp a) (j : ℕ) : below comp a 0 j = false := by
  induction j using Nat.strongRecOn with
  | ind j ih =>
    by_cases h0 : j = 0
    · subst h0
      exact below_self hasymm a 0
    by_cases hlt : j < a.size
    · exact below_trans htrans (by omega) (ih ((j - 1) / 2) (by omega)) (h j (by omega) hlt)
    unfold below
    rw [Array.getElem?_eq_none (Nat.le_of_not_lt hlt)]
    cases a[0]? <;> rfl

end Order

end SimpleKernel.BinaryHeap
