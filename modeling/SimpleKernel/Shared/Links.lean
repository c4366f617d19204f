import Mathlib.Data.List.Basic
import Mathlib.Data.List.Nodup
import Mathlib.Logic.Function.Basic
import Mathlib.Logic.Relation

/-! Doubly linked lists whose links are kept in their nodes. The nodes are divided into groups,
and the links make one list of each group. -/

namespace SimpleKernel

open List Function

@[ext] structure Links (α : Type*) where
  previous : α → Option α
  next : α → Option α

namespace Links

variable {α : Type*} {k k' : Links α} {x y z : α} {l p q : List α}

def reverse (k : Links α) : Links α := ⟨k.next, k.previous⟩

/-! ## One list -/

/-- The nodes of the list, in this order, are linked to each other and to no other nodes. -/
structure IsList (k : Links α) (l : List α) : Prop where
  nodup : l.Nodup
  link : ∀ p x q, l = p ++ x :: q → k.previous x = p.getLast? ∧ k.next x = q.head?

theorem IsList.reverse (h : k.IsList l) : k.reverse.IsList l.reverse := by
  refine ⟨nodup_reverse.mpr h.nodup, fun p x q hl => ?_⟩
  have hl' : l = q.reverse ++ x :: p.reverse := by
    rw [← reverse_reverse l, hl]
    simp
  obtain ⟨hp, hn⟩ := h.link _ _ _ hl'
  rw [getLast?_reverse] at hp
  rw [head?_reverse] at hn
  exact ⟨hn, hp⟩

theorem IsList.congr (h : k.IsList l)
    (hk : ∀ x ∈ l, k'.previous x = k.previous x ∧ k'.next x = k.next x) : k'.IsList l := by
  refine ⟨h.nodup, fun p x q hl => ?_⟩
  obtain ⟨hp, hn⟩ := hk x (by simp [hl])
  rw [hp, hn]
  exact h.link p x q hl

theorem IsList.nil : k.IsList [] := by
  refine ⟨nodup_nil, fun p x q hl => ?_⟩
  simp at hl

theorem IsList.singleton (hp : k.previous x = none) (hn : k.next x = none) : k.IsList [x] := by
  refine ⟨nodup_singleton x, fun p y q hl => ?_⟩
  cases p with
  | nil =>
    obtain ⟨rfl, rfl⟩ := cons.inj hl
    exact ⟨hp, hn⟩
  | cons _ p => simp at hl

theorem IsList.next_mem (h : k.IsList l) (hx : x ∈ l) (hy : k.next x = some y) : y ∈ l := by
  obtain ⟨p, q, rfl⟩ := append_of_mem hx
  rw [(h.link p x q rfl).2] at hy
  simp [mem_of_mem_head? hy]

theorem IsList.previous_mem (h : k.IsList l) (hx : x ∈ l) (hy : k.previous x = some y) : y ∈ l :=
  mem_reverse.mp (h.reverse.next_mem (mem_reverse.mpr hx) hy)

/-- Two nodes are in one list if the links lead from one to the other. -/
def Together (k : Links α) : α → α → Prop :=
  Relation.ReflTransGen fun x y => k.next x = some y ∨ k.previous x = some y

theorem together_reverse : k.reverse.Together = k.Together := by
  unfold Together
  congr 1
  funext x y
  exact propext or_comm

theorem IsList.together_of_mem_tail (h : k.IsList (p ++ x :: q)) (hy : y ∈ q) : k.Together x y := by
  induction q generalizing p x with
  | nil => cases hy
  | cons z q ih =>
    have hz : k.Together x z := .single (.inl (h.link p x (z :: q) rfl).2)
    rcases mem_cons.mp hy with rfl | hy
    · exact hz
    · refine hz.trans (ih (p := p ++ [x]) ?_ hy)
      rwa [append_assoc]

theorem IsList.together (h : k.IsList l) (hx : x ∈ l) (hy : y ∈ l) : k.Together x y := by
  obtain ⟨p, q, rfl⟩ := append_of_mem hx
  rcases mem_append.mp hy with hy | hy
  · have hr := h.reverse
    rw [reverse_append, reverse_cons, append_assoc] at hr
    rw [← together_reverse]
    exact hr.together_of_mem_tail (mem_reverse.mpr hy)
  · rcases mem_cons.mp hy with rfl | hy
    · exact .refl
    · exact h.together_of_mem_tail hy

theorem IsList.mem_of_together (h : k.IsList l) (hx : x ∈ l) (hxy : k.Together x y) : y ∈ l := by
  induction hxy with
  | refl => exact hx
  | tail _ hstep ih => exact hstep.elim (h.next_mem ih) (h.previous_mem ih)

/-! ## Counting -/

/-- The number of nodes that the links lead to, added to `count`. On a cycle no fuel is enough. -/
def count (link : α → Option α) : ℕ → Option α → ℕ → Option ℕ
  | _, none, count => some count
  | 0, some _, _ => none
  | fuel + 1, some x, n => count link fuel (link x) (n + 1)

theorem IsList.count_next (h : k.IsList (p ++ x :: q)) {fuel : ℕ} (hq : q.length ≤ fuel) (n : ℕ) :
    count k.next fuel (k.next x) n = some (n + q.length) := by
  induction q generalizing p x fuel n with
  | nil =>
    rw [(h.link p x [] rfl).2, head?_nil, count]
    rfl
  | cons y q ih =>
    rw [(h.link p x (y :: q) rfl).2, head?_cons]
    cases fuel with
    | zero => simp at hq
    | succ fuel =>
      have h' : k.IsList ((p ++ [x]) ++ y :: q) := by rwa [append_assoc]
      rw [count, ih h' (Nat.le_of_succ_le_succ hq), length_cons]
      congr 1
      omega

theorem IsList.count_previous (h : k.IsList (p ++ x :: q)) {fuel : ℕ} (hp : p.length ≤ fuel)
    (n : ℕ) : count k.previous fuel (k.previous x) n = some (n + p.length) := by
  have hr := h.reverse
  rw [reverse_append, reverse_cons, append_assoc, singleton_append] at hr
  rw [← length_reverse] at hp ⊢
  exact hr.count_next hp n

/-! ## Groups -/

variable {κ : Type*} {group group' : α → Option κ}

/-- The links make one list of the nodes of each group; other nodes have no links. -/
structure Grouped (k : Links α) (group : α → Option κ) : Prop where
  list : ∀ g, ∃ l, k.IsList l ∧ ∀ x, x ∈ l ↔ group x = some g
  alone : ∀ x, group x = none → k.previous x = none ∧ k.next x = none

namespace Grouped

theorem congr (h : k.Grouped group) (hg : ∀ x, group' x = group x) : k.Grouped group' := by
  rwa [show group' = group from funext hg]

theorem next (h : k.Grouped group) (hy : k.next x = some y) : group y = group x := by
  cases hx : group x with
  | none =>
    rw [(h.alone x hx).2] at hy
    cases hy
  | some g =>
    obtain ⟨l, hl, hmem⟩ := h.list g
    exact (hmem y).mp (hl.next_mem ((hmem x).mpr hx) hy)

theorem previous (h : k.Grouped group) (hy : k.previous x = some y) : group y = group x := by
  cases hx : group x with
  | none =>
    rw [(h.alone x hx).1] at hy
    cases hy
  | some g =>
    obtain ⟨l, hl, hmem⟩ := h.list g
    exact (hmem y).mp (hl.previous_mem ((hmem x).mpr hx) hy)

end Grouped

/-! ## Unlinking and inserting -/

theorem append_eq_split {p' q' : List α} (h : p ++ q = p' ++ y :: q') :
    (∃ c, p = p' ++ y :: c ∧ q' = c ++ q) ∨ ∃ c, q = c ++ y :: q' ∧ p' = p ++ c := by
  rcases append_eq_append_iff.mp h with ⟨c, hp, hq⟩ | ⟨c, hp, hq⟩
  · exact .inr ⟨c, hq, hp⟩
  cases c with
  | nil => exact .inr ⟨[], hq.symm, by simpa using hp.symm⟩
  | cons z c =>
    obtain ⟨rfl, rfl⟩ := cons.inj hq
    exact .inl ⟨c, hp, rfl⟩

section Operations

variable [DecidableEq α] {c : List α}

def unlink (k : Links α) (x : α) : Links α where
  previous y := if y = x then none else if k.next x = some y then k.previous x else k.previous y
  next y := if y = x then none else if k.previous x = some y then k.next x else k.next y

def insertAfter (k : Links α) (x y : α) : Links α where
  previous z := if k.next x = some z then some y else if z = y then some x else k.previous z
  next z := if z = x then some y else if z = y then k.next x else k.next z

theorem IsList.unlink_front (h : k.IsList ((p ++ y :: c) ++ x :: q)) :
    (k.unlink x).previous y = p.getLast? ∧ (k.unlink x).next y = (c ++ q).head? := by
  obtain ⟨hxp, hxn⟩ := h.link _ x q rfl
  obtain ⟨hyp, hyn⟩ := h.link p y (c ++ x :: q) (by simp)
  have hnodup := h.nodup
  simp only [append_assoc, cons_append, nodup_append, nodup_cons,
    mem_append, mem_cons, not_or] at hnodup
  obtain ⟨-, ⟨⟨hyc, hyx, hyq⟩, -⟩, -⟩ := hnodup
  simp only [Links.unlink, if_neg hyx]
  constructor
  · rw [if_neg, hyp]
    rw [hxn]
    exact fun hq => hyq (mem_of_mem_head? hq)
  · cases c with
    | nil => simp [hxp, hxn]
    | cons z c =>
      rw [if_neg, hyn]
      · rfl
      · rw [hxp, getLast?_append_cons, getLast?_cons_cons]
        exact fun hlast => hyc (mem_of_mem_getLast? hlast)

theorem IsList.unlink_back (h : k.IsList (p ++ x :: (c ++ y :: q))) :
    (k.unlink x).previous y = (p ++ c).getLast? ∧ (k.unlink x).next y = q.head? := by
  have hr : k.reverse.IsList ((q.reverse ++ y :: c.reverse) ++ x :: p.reverse) := by
    simpa using h.reverse
  obtain ⟨hn, hp⟩ := hr.unlink_front
  rw [← reverse_append, head?_reverse] at hp
  rw [getLast?_reverse] at hn
  exact ⟨hp, hn⟩

theorem IsList.unlink (h : k.IsList (p ++ x :: q)) : (k.unlink x).IsList (p ++ q) := by
  refine ⟨h.nodup.sublist (List.Sublist.append (.refl p) (sublist_cons_self x q)),
    fun p' y q' hl => ?_⟩
  rcases append_eq_split hl with ⟨c, rfl, rfl⟩ | ⟨c, rfl, rfl⟩
  · exact h.unlink_front
  · exact h.unlink_back

theorem IsList.insertAfter (h : k.IsList (p ++ x :: q)) (hy : y ∉ p ++ x :: q) :
    (k.insertAfter x y).IsList (p ++ x :: y :: q) := by
  obtain ⟨hxp, hxn⟩ := h.link p x q rfl
  have hnodup := h.nodup
  rw [nodup_append, nodup_cons] at hnodup
  obtain ⟨-, ⟨hxq, -⟩, hpq⟩ := hnodup
  simp only [mem_append, mem_cons, not_or] at hy
  obtain ⟨hyp, hyx, hyq⟩ := hy
  have hnd : (p ++ x :: y :: q).Nodup := by
    have hperm : (p ++ x :: y :: q).Perm (y :: (p ++ x :: q)) :=
      (List.Perm.append_left p (List.Perm.swap y x q)).trans perm_middle
    rw [hperm.nodup_iff, nodup_cons]
    exact ⟨by simp [hyp, hyx, hyq], h.nodup⟩
  have hhead : ∀ {z}, z ∉ q → q.head? ≠ some z := fun hz hq => hz (mem_of_mem_head? hq)
  refine ⟨hnd, fun p' z q' hl => ?_⟩
  simp only [Links.insertAfter, hxn]
  rcases append_eq_split hl with ⟨c, rfl, rfl⟩ | ⟨c, hc, rfl⟩
  · -- in front of `x` nothing changes
    obtain ⟨hzp, hzn⟩ := h.link p' z (c ++ x :: q) (by simp)
    have hz : ∀ w ∈ x :: q, z ≠ w := hpq z (by simp)
    have hzx : z ≠ x := hz x mem_cons_self
    have hzq : z ∉ q := fun hq => hz z (mem_cons_of_mem x hq) rfl
    have hzy : z ≠ y := by
      rintro rfl
      simp at hyp
    rw [if_neg (hhead hzq), if_neg hzy, if_neg hzx, if_neg hzy, hzp, hzn]
    cases c <;> exact ⟨rfl, rfl⟩
  cases c with
  | nil =>
    obtain ⟨rfl, rfl⟩ := cons.inj hc
    rw [if_neg (hhead hxq), if_neg (Ne.symm hyx), if_pos rfl, append_nil]
    exact ⟨hxp, rfl⟩
  | cons w c =>
    obtain ⟨rfl, hrest⟩ := cons.inj hc
    cases c with
    | nil =>
      obtain ⟨rfl, rfl⟩ := cons.inj hrest
      rw [if_neg (hhead hyq), if_pos rfl, if_neg hyx, if_pos rfl]
      simp
    | cons v c =>
      obtain ⟨rfl, rfl⟩ := cons.inj hrest
      obtain ⟨hzp, hzn⟩ := h.link (p ++ x :: c) z q' (by simp)
      have hzx : z ≠ x := by
        rintro rfl
        simp at hxq
      have hzy : z ≠ y := by
        rintro rfl
        simp at hyq
      rw [if_neg hzx, if_neg hzy, if_neg hzy, hzn, hzp]
      cases c with
      | nil => simp
      | cons u c =>
        have huz : u ≠ z := by
          rintro rfl
          simp [nodup_append] at hnd
        rw [if_neg (by simpa using huz)]
        simp

/-! ## Unlinking and inserting in groups -/

namespace Grouped

theorem unlink (h : k.Grouped group) (x : α) : (k.unlink x).Grouped (update group x none) := by
  have hother : ∀ {y}, y ≠ x → group y ≠ group x →
      (k.unlink x).previous y = k.previous y ∧ (k.unlink x).next y = k.next y := by
    intro y hyx hg
    simp only [Links.unlink, if_neg hyx]
    rw [if_neg fun hn => hg (h.next hn), if_neg fun hp => hg (h.previous hp)]
    exact ⟨rfl, rfl⟩
  refine ⟨fun g => ?_, fun y hy => ?_⟩
  · obtain ⟨l, hl, hmem⟩ := h.list g
    by_cases hg : group x = some g
    · obtain ⟨p, q, rfl⟩ := append_of_mem ((hmem x).mpr hg)
      refine ⟨p ++ q, hl.unlink, fun y => ?_⟩
      have hnd := hl.nodup
      by_cases hyx : y = x
      · subst hyx
        simp only [update_self, reduceCtorEq, iff_false]
        rw [nodup_middle, nodup_cons] at hnd
        exact hnd.1
      · rw [update_of_ne hyx, ← hmem y]
        simp [hyx]
    have hlx : ∀ y ∈ l, y ≠ x ∧ group y ≠ group x := by
      intro y hy
      rw [(hmem y).mp hy]
      refine ⟨?_, Ne.symm hg⟩
      rintro rfl
      exact hg ((hmem y).mp hy)
    refine ⟨l, hl.congr fun y hy => hother (hlx y hy).1 (hlx y hy).2, fun y => ?_⟩
    by_cases hyx : y = x
    · subst hyx
      simp [hmem, hg]
    · rw [update_of_ne hyx, hmem y]
  · by_cases hyx : y = x
    · subst hyx
      simp [Links.unlink]
    rw [update_of_ne hyx] at hy
    obtain ⟨hp, hn⟩ := h.alone y hy
    simp only [Links.unlink, if_neg hyx, hp, hn]
    constructor
    · split_ifs with hnext
      · rw [h.next hnext] at hy
        exact (h.alone x hy).1
      · rfl
    · split_ifs with hprevious
      · rw [h.previous hprevious] at hy
        exact (h.alone x hy).2
      · rfl

theorem insertAfter {g : κ} (h : k.Grouped group) (hx : group x = some g) (hy : group y = none) :
    (k.insertAfter x y).Grouped (update group y (some g)) := by
  have hother : ∀ {z}, z ≠ y → group z ≠ some g →
      (k.insertAfter x y).previous z = k.previous z ∧ (k.insertAfter x y).next z = k.next z := by
    intro z hzy hg
    have hzx : z ≠ x := by
      rintro rfl
      exact hg hx
    simp only [Links.insertAfter, if_neg hzy, if_neg hzx]
    exact ⟨if_neg fun hn => hg ((h.next hn).trans hx), trivial⟩
  refine ⟨fun g' => ?_, fun z hz => ?_⟩
  · obtain ⟨l, hl, hmem⟩ := h.list g'
    have hyl : y ∉ l := by simp [hmem, hy]
    by_cases hg : g' = g
    · subst hg
      obtain ⟨p, q, rfl⟩ := append_of_mem ((hmem x).mpr hx)
      refine ⟨_, hl.insertAfter hyl, fun z => ?_⟩
      by_cases hzy : z = y
      · subst hzy
        simp
      · rw [update_of_ne hzy, ← hmem z]
        simp [hzy]
    refine ⟨l, hl.congr fun z hz => hother ?_ ?_, fun z => ?_⟩
    · rintro rfl
      exact hyl hz
    · rw [(hmem z).mp hz]
      simpa using hg
    · by_cases hzy : z = y
      · subst hzy
        simp [hyl, Ne.symm hg]
      · rw [update_of_ne hzy, hmem z]
  · by_cases hzy : z = y
    · subst hzy
      rw [update_self] at hz
      cases hz
    rw [update_of_ne hzy] at hz
    rw [(hother hzy (by rw [hz]; nofun)).1, (hother hzy (by rw [hz]; nofun)).2]
    exact h.alone z hz

theorem found {g : κ} (h : k.Grouped group) (hy : group y = none) (hg : ∀ x, group x ≠ some g) :
    k.Grouped (update group y (some g)) := by
  refine ⟨fun g' => ?_, fun z hz => ?_⟩
  · by_cases hgg : g' = g
    · subst hgg
      obtain ⟨hp, hn⟩ := h.alone y hy
      refine ⟨[y], .singleton hp hn, fun z => ?_⟩
      by_cases hzy : z = y
      · subst hzy
        simp
      · simp [hzy, hg z]
    obtain ⟨l, hl, hmem⟩ := h.list g'
    refine ⟨l, hl, fun z => ?_⟩
    by_cases hzy : z = y
    · subst hzy
      simp [hmem, hy, Ne.symm hgg]
    · rw [update_of_ne hzy, hmem z]
  · by_cases hzy : z = y
    · subst hzy
      rw [update_self] at hz
      cases hz
    · rw [update_of_ne hzy] at hz
      exact h.alone z hz

end Grouped

end Operations

end Links

end SimpleKernel
