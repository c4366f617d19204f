import Mathlib.Data.List.Basic
import Mathlib.Data.List.Nodup
import Mathlib.Data.List.Range

/-! Trees of tables in memory. A table has `width` words, a word may point to a table of the
next lower level, and the words of a table of level 0 point out of the tree. A key chooses
one word at every level. -/

namespace SimpleKernel.TableTree

open List

variable {α ω : Type*} (ptr : ω → Option α) (width : ℕ)

/-- The tables of the subtree at `a`, its root first. -/
def tables (mem : α → ℕ → ω) : ℕ → α → List α
  | 0, a => [a]
  | level + 1, a =>
    a :: (range width).flatMap fun i => (ptr (mem a i)).elim [] (tables mem level)

/-- What the tables of level 0 of the subtree at `a` point to. -/
def leaves (mem : α → ℕ → ω) : ℕ → α → List α
  | 0, a => (range width).filterMap fun i => ptr (mem a i)
  | level + 1, a => (range width).flatMap fun i => (ptr (mem a i)).elim [] (leaves mem level)

/-- The word of level 0 that `key` leads to. -/
def slot (key : ℕ → ℕ) (mem : α → ℕ → ω) : ℕ → α → Option (α × ℕ)
  | 0, a => some (a, key 0)
  | level + 1, a => (ptr (mem a (key (level + 1)))).bind (slot key mem level)

variable {ptr width} {mem mem' : α → ℕ → ω} {level : ℕ} {a b : α} {i : ℕ} {key key' : ℕ → ℕ}
  {p : α × ℕ}

theorem root_mem_tables : a ∈ tables ptr width mem level a := by
  cases level <;> simp [tables]

theorem mem_tables_succ {x : α} : x ∈ tables ptr width mem (level + 1) a ↔
    x = a ∨ ∃ i < width, ∃ b, ptr (mem a i) = some b ∧ x ∈ tables ptr width mem level b := by
  simp only [tables, mem_cons, mem_flatMap, mem_range]
  refine or_congr_right (exists_congr fun i => and_congr_right fun _ => ?_)
  cases ptr (mem a i) <;> simp

theorem tables_child_subset (hi : i < width) (hb : ptr (mem a i) = some b) {x : α}
    (hx : x ∈ tables ptr width mem level b) : x ∈ tables ptr width mem (level + 1) a :=
  mem_tables_succ.mpr (.inr ⟨i, hi, b, hb, hx⟩)

section

variable (h : ∀ x ∈ tables ptr width mem level a, mem' x = mem x)
include h

theorem tables_congr : tables ptr width mem' level a = tables ptr width mem level a := by
  induction level generalizing a with
  | zero => rfl
  | succ level ih =>
    have ha : mem' a = mem a := h a root_mem_tables
    simp only [tables, ha, cons.injEq, true_and]
    refine flatMap_congr fun i hi => ?_
    cases hb : ptr (mem a i) with
    | none => rfl
    | some b =>
      exact ih fun x hx => h x (tables_child_subset (mem_range.mp hi) hb hx)

theorem leaves_congr : leaves ptr width mem' level a = leaves ptr width mem level a := by
  induction level generalizing a with
  | zero => simp [leaves, h a root_mem_tables]
  | succ level ih =>
    have ha : mem' a = mem a := h a root_mem_tables
    simp only [leaves, ha]
    refine flatMap_congr fun i hi => ?_
    cases hb : ptr (mem a i) with
    | none => rfl
    | some b =>
      exact ih fun x hx => h x (tables_child_subset (mem_range.mp hi) hb hx)

end

theorem slot_congr (hkey : ∀ k, key k < width)
    (h : ∀ x ∈ tables ptr width mem level a, mem' x = mem x) :
    slot ptr key mem' level a = slot ptr key mem level a := by
  induction level generalizing a with
  | zero => rfl
  | succ level ih =>
    have ha : mem' a = mem a := h a root_mem_tables
    simp only [slot, ha]
    cases hb : ptr (mem a (key (level + 1))) with
    | none => rfl
    | some b => exact ih fun x hx => h x (tables_child_subset (hkey _) hb hx)

/-! ## Trees without sharing -/

theorem nodup_tables_succ : (tables ptr width mem (level + 1) a).Nodup ↔
    (∀ i < width, ∀ b, ptr (mem a i) = some b →
      a ∉ tables ptr width mem level b ∧ (tables ptr width mem level b).Nodup) ∧
    ∀ i < width, ∀ j < width, i ≠ j → ∀ b c, ptr (mem a i) = some b → ptr (mem a j) = some c →
      List.Disjoint (tables ptr width mem level b) (tables ptr width mem level c) := by
  simp only [tables, nodup_cons, nodup_flatMap, mem_flatMap, mem_range]
  constructor
  · rintro ⟨hroot, hchild, hpair⟩
    refine ⟨fun i hi b hb => ⟨fun hx => hroot ⟨i, hi, by simpa [hb] using hx⟩, ?_⟩, ?_⟩
    · simpa [hb] using hchild i hi
    · intro i hi j hj hij b c hb hc
      have hsymm : Std.Symm (Function.onFun List.Disjoint fun i =>
          (ptr (mem a i)).elim [] (tables ptr width mem level)) := ⟨fun _ _ h _ hx hy => h hy hx⟩
      have hdis := hpair.forall (mem_range.mpr hi) (mem_range.mpr hj) hij
      simpa [Function.onFun, hb, hc] using hdis
  · rintro ⟨hchild, hpair⟩
    refine ⟨?_, ?_, ?_⟩
    · rintro ⟨i, hi, hx⟩
      cases hb : ptr (mem a i) with
      | none => simp [hb] at hx
      | some b => exact (hchild i hi b hb).1 (by simpa [hb] using hx)
    · intro i hi
      cases hb : ptr (mem a i) with
      | none => simp
      | some b => simpa [hb] using (hchild i hi b hb).2
    · refine List.Nodup.pairwise_of_forall_ne nodup_range fun i hi j hj hij => ?_
      rw [mem_range] at hi hj
      cases hb : ptr (mem a i) with
      | none => simp [Function.onFun, hb]
      | some b =>
        cases hc : ptr (mem a j) with
        | none => simp [Function.onFun, hc]
        | some c => simpa [Function.onFun, hb, hc] using hpair i hi j hj hij b c hb hc

theorem slot_mem_tables (hkey : ∀ k, key k < width)
    (h : slot ptr key mem level a = some p) : p.1 ∈ tables ptr width mem level a ∧ p.2 = key 0 := by
  induction level generalizing a with
  | zero =>
    cases h
    exact ⟨root_mem_tables, rfl⟩
  | succ level ih =>
    obtain ⟨b, hb, hs⟩ := Option.bind_eq_some_iff.mp h
    obtain ⟨hp, hi⟩ := ih hs
    exact ⟨tables_child_subset (hkey _) hb hp, hi⟩

theorem slot_key_congr (h : ∀ k ≤ level, key k = key' k) :
    slot ptr key mem level a = slot ptr key' mem level a := by
  induction level generalizing a with
  | zero => simp [slot, h 0 le_rfl]
  | succ level ih =>
    simp only [slot, h (level + 1) le_rfl]
    refine congrArg _ (funext fun b => ih fun k hk => h k (Nat.le_succ_of_le hk))

section

variable (hn : (tables ptr width mem level a).Nodup) (hkey : ∀ k, key k < width)
include hn hkey

theorem slot_injective
    (hkey' : ∀ k, key' k < width) (h : slot ptr key mem level a = some p)
    (h' : slot ptr key' mem level a = some p) : ∀ k ≤ level, key k = key' k := by
  induction level generalizing a with
  | zero =>
    intro k hk
    obtain rfl := Nat.le_zero.mp hk
    rw [← (slot_mem_tables hkey h).2, ← (slot_mem_tables hkey' h').2]
  | succ level ih =>
    obtain ⟨b, hb, hs⟩ := Option.bind_eq_some_iff.mp h
    obtain ⟨c, hc, hs'⟩ := Option.bind_eq_some_iff.mp h'
    obtain ⟨hchild, hpair⟩ := nodup_tables_succ.mp hn
    have htop : key (level + 1) = key' (level + 1) := by
      by_contra hne
      exact hpair _ (hkey _) _ (hkey' _) hne b c hb hc (slot_mem_tables hkey hs).1
        (slot_mem_tables hkey' hs').1
    obtain rfl : b = c := Option.some.inj (hb.symm.trans (htop ▸ hc))
    intro k hk
    rcases Nat.lt_or_eq_of_le hk with h | rfl
    · exact ih (hchild _ (hkey _) b hb).2 hs hs' k (Nat.le_of_lt_succ h)
    · exact htop

/-! ## Writing a word of level 0 -/

theorem write_slot (hs : slot ptr key mem level a = some p) (hmem : ∀ x, x ≠ p.1 → mem' x = mem x) :
    tables ptr width mem' level a = tables ptr width mem level a ∧
      ∀ key', (∀ k, key' k < width) → slot ptr key' mem' level a = slot ptr key' mem level a := by
  induction level generalizing a with
  | zero => exact ⟨rfl, fun _ _ => rfl⟩
  | succ level ih =>
    obtain ⟨b, hb, hs⟩ := Option.bind_eq_some_iff.mp hs
    obtain ⟨hchild, hpair⟩ := nodup_tables_succ.mp hn
    have hp := (slot_mem_tables hkey hs).1
    have ha : mem' a = mem a := by
      apply hmem
      rintro rfl
      exact (hchild _ (hkey _) b hb).1 hp
    have hsub : ∀ i < width, ∀ c, ptr (mem a i) = some c →
        tables ptr width mem' level c = tables ptr width mem level c ∧
          ∀ key', (∀ k, key' k < width) →
            slot ptr key' mem' level c = slot ptr key' mem level c := by
      intro i hi c hc
      by_cases hik : i = key (level + 1)
      · subst hik
        cases hb.symm.trans hc
        exact ih (hchild _ hi b hb).2 hs
      have hsame : ∀ x ∈ tables ptr width mem level c, mem' x = mem x := by
        refine fun x hx => hmem x ?_
        rintro rfl
        exact hpair _ hi _ (hkey _) hik c b hc hb hx hp
      exact ⟨tables_congr hsame, fun key' hkey' => slot_congr hkey' hsame⟩
    refine ⟨?_, fun key' hkey' => ?_⟩
    · simp only [tables, ha, cons.injEq, true_and]
      refine flatMap_congr fun i hi => ?_
      cases hc : ptr (mem a i) with
      | none => rfl
      | some c => exact (hsub i (mem_range.mp hi) c hc).1
    · simp only [slot, ha]
      cases hc : ptr (mem a (key' (level + 1))) with
      | none => rfl
      | some c => exact (hsub _ (hkey' _) c hc).2 key' hkey'

end

/-! ## Growing a tree -/

variable {live live' live'' : α → Prop} {mem'' : α → ℕ → ω}

variable (ptr width) in
/-- A tree of live tables without sharing. -/
structure IsTree (live : α → Prop) (mem : α → ℕ → ω) (level : ℕ) (a : α) : Prop where
  nodup : (tables ptr width mem level a).Nodup
  live : ∀ x ∈ tables ptr width mem level a, live x

theorem IsTree.child (h : IsTree ptr width live mem (level + 1) a) (hi : i < width)
    (hb : ptr (mem a i) = some b) : IsTree ptr width live mem level b :=
  ⟨((nodup_tables_succ.mp h.nodup).1 i hi b hb).2,
    fun x hx => h.live x (tables_child_subset hi hb hx)⟩

variable (ptr width) in
/-- From `mem` to `mem'` the tree at `a` has only got new tables, whose words point nowhere:
no word that a key led to has changed, and no other live table has. -/
structure Grows (live live' : α → Prop) (mem mem' : α → ℕ → ω) (level : ℕ) (a : α) : Prop where
  tree : IsTree ptr width live' mem' level a
  fresh : ∀ x ∈ tables ptr width mem' level a, x ∈ tables ptr width mem level a ∨ ¬ live x
  mono : ∀ x, live x → live' x
  frame : ∀ x, live x → x ∉ tables ptr width mem level a → mem' x = mem x
  slots : ∀ key, (∀ k, key k < width) → ∀ p, slot ptr key mem level a = some p →
    slot ptr key mem' level a = some p ∧ mem' p.1 p.2 = mem p.1 p.2
  empty : ∀ key, (∀ k, key k < width) → ∀ p, slot ptr key mem level a = none →
    slot ptr key mem' level a = some p → ptr (mem' p.1 p.2) = none

theorem Grows.refl (h : IsTree ptr width live mem level a) :
    Grows ptr width live live mem mem level a := by
  refine ⟨h, fun x hx => .inl hx, fun x hx => hx, fun x _ _ => rfl, fun key _ p hp => ⟨hp, rfl⟩, ?_⟩
  intro key _ p hn hp
  rw [hn] at hp
  cases hp

theorem Grows.trans (h : Grows ptr width live live' mem mem' level a)
    (h' : Grows ptr width live' live'' mem' mem'' level a) :
    Grows ptr width live live'' mem mem'' level a := by
  refine ⟨h'.tree, ?_, fun x hx => h'.mono x (h.mono x hx), ?_, ?_, ?_⟩
  · intro x hx
    rcases h'.fresh x hx with hx | hx
    · exact h.fresh x hx
    · exact .inr fun hl => hx (h.mono x hl)
  · intro x hl hx
    have hx' : x ∉ tables ptr width mem' level a :=
      fun hmem => (h.fresh x hmem).elim hx fun hn => hn hl
    rw [h'.frame x (h.mono x hl) hx', h.frame x hl hx]
  · intro key hkey p hp
    obtain ⟨hs, hv⟩ := h.slots key hkey p hp
    obtain ⟨hs', hv'⟩ := h'.slots key hkey p hs
    exact ⟨hs', hv'.trans hv⟩
  · intro key hkey p hn hp
    cases hs : slot ptr key mem' level a with
    | none => exact h'.empty key hkey p hs hp
    | some q =>
      obtain ⟨hs', hv'⟩ := h'.slots key hkey q hs
      obtain rfl : q = p := Option.some.inj (hs'.symm.trans hp)
      rw [hv']
      exact h.empty key hkey q hn hs

section

variable (ht : IsTree ptr width live mem (level + 1) a)
include ht

theorem IsTree.graft (hi : i < width)
    (hb : ptr (mem' a i) = some b) (hs : IsTree ptr width live' mem' level b)
    (hword : ∀ j, j ≠ i → mem' a j = mem a j) (hroot : live' a ∧ a ∉ tables ptr width mem' level b)
    (hrest : ∀ j < width, j ≠ i → ∀ c, ptr (mem a j) = some c →
      ∀ x ∈ tables ptr width mem level c,
        mem' x = mem x ∧ live' x ∧ x ∉ tables ptr width mem' level b) :
    IsTree ptr width live' mem' (level + 1) a ∧
      ∀ x, x ∈ tables ptr width mem' (level + 1) a ↔ x = a ∨ x ∈ tables ptr width mem' level b ∨
        ∃ j < width, j ≠ i ∧ ∃ c, ptr (mem a j) = some c ∧ x ∈ tables ptr width mem level c := by
  obtain ⟨hchild, hpair⟩ := nodup_tables_succ.mp ht.nodup
  have hold : ∀ j < width, j ≠ i → ∀ c, ptr (mem a j) = some c →
      tables ptr width mem' level c = tables ptr width mem level c :=
    fun j hj hji c hc => tables_congr fun x hx => (hrest j hj hji c hc x hx).1
  have hptr : ∀ j c, ptr (mem' a j) = some c → (j = i ∧ c = b) ∨ (j ≠ i ∧ ptr (mem a j) = some c) := by
    intro j c hc
    by_cases hji : j = i
    · subst hji
      exact .inl ⟨rfl, Option.some.inj (hc.symm.trans hb)⟩
    · rw [hword j hji] at hc
      exact .inr ⟨hji, hc⟩
  refine ⟨⟨nodup_tables_succ.mpr ⟨?_, ?_⟩, ?_⟩, fun x => ?_⟩
  · intro j hj c hc
    rcases hptr j c hc with ⟨rfl, rfl⟩ | ⟨hji, hc⟩
    · exact ⟨hroot.2, hs.nodup⟩
    · rw [hold j hj hji c hc]
      exact hchild j hj c hc
  · intro j hj k hk hjk c d hc hd
    rcases hptr j c hc with ⟨rfl, rfl⟩ | ⟨hji, hc⟩
    · rcases hptr k d hd with ⟨rfl, -⟩ | ⟨hki, hd⟩
      · exact absurd rfl hjk
      · rw [hold k hk hki d hd]
        exact fun x hx hy => (hrest k hk hki d hd x hy).2.2 hx
    rcases hptr k d hd with ⟨rfl, rfl⟩ | ⟨hki, hd⟩
    · rw [hold j hj hji c hc]
      exact fun x hx => (hrest j hj hji c hc x hx).2.2
    · rw [hold j hj hji c hc, hold k hk hki d hd]
      exact hpair j hj k hk hjk c d hc hd
  · intro x hx
    rcases mem_tables_succ.mp hx with rfl | ⟨j, hj, c, hc, hx⟩
    · exact hroot.1
    rcases hptr j c hc with ⟨rfl, rfl⟩ | ⟨hji, hc⟩
    · exact hs.live x hx
    · exact (hrest j hj hji c hc x (hold j hj hji c hc ▸ hx)).2.1
  · rw [mem_tables_succ]
    refine or_congr_right ⟨?_, ?_⟩
    · rintro ⟨j, hj, c, hc, hx⟩
      rcases hptr j c hc with ⟨rfl, rfl⟩ | ⟨hji, hc⟩
      · exact .inl hx
      · exact .inr ⟨j, hj, hji, c, hc, hold j hj hji c hc ▸ hx⟩
    · rintro (hx | ⟨j, hj, hji, c, hc, hx⟩)
      · exact ⟨i, hi, b, hb, hx⟩
      · exact ⟨j, hj, c, (congrArg ptr (hword j hji)).trans hc, (hold j hj hji c hc).symm ▸ hx⟩

theorem IsTree.link
    (hs : IsTree ptr width live' mem' level b) (hi : i < width) (hnone : ptr (mem a i) = none)
    (hdis : ∀ x ∈ tables ptr width mem (level + 1) a, x ∉ tables ptr width mem' level b)
    (hb : ptr (mem' a i) = some b) (hword : ∀ j, j ≠ i → mem' a j = mem a j)
    (hmem : ∀ x ∈ tables ptr width mem (level + 1) a, x ≠ a → mem' x = mem x)
    (hlive : ∀ x, live x → live' x) :
    IsTree ptr width live' mem' (level + 1) a ∧
      ∀ x, x ∈ tables ptr width mem' (level + 1) a ↔
        x ∈ tables ptr width mem (level + 1) a ∨ x ∈ tables ptr width mem' level b := by
  obtain ⟨hchild, -⟩ := nodup_tables_succ.mp ht.nodup
  have hroot : a ∈ tables ptr width mem (level + 1) a := root_mem_tables
  obtain ⟨htree, hiff⟩ := ht.graft hi hb hs hword ⟨hlive a (ht.live a hroot), hdis a hroot⟩ (by
    intro j hj _ c hc x hx
    have hsub := tables_child_subset hj hc hx
    refine ⟨hmem x hsub ?_, hlive x (ht.live x hsub), hdis x hsub⟩
    rintro rfl
    exact (hchild j hj c hc).1 hx)
  refine ⟨htree, fun x => ?_⟩
  rw [hiff, mem_tables_succ]
  constructor
  · rintro (rfl | hx | ⟨j, hj, -, c, hc, hx⟩)
    · exact .inl (.inl rfl)
    · exact .inr hx
    · exact .inl (.inr ⟨j, hj, c, hc, hx⟩)
  · rintro ((rfl | ⟨j, hj, c, hc, hx⟩) | hx)
    · exact .inl rfl
    · refine .inr (.inr ⟨j, hj, ?_, c, hc, hx⟩)
      rintro rfl
      cases hnone.symm.trans hc
    · exact .inr (.inl hx)

theorem Grows.child (hi : i < width)
    (hb : ptr (mem a i) = some b) (h : Grows ptr width live live' mem mem' level b) :
    Grows ptr width live live' mem mem' (level + 1) a := by
  obtain ⟨hchild, hpair⟩ := nodup_tables_succ.mp ht.nodup
  have hlive : live a := ht.live a root_mem_tables
  have ha : mem' a = mem a := h.frame a hlive (hchild i hi b hb).1
  have hsub : ∀ j < width, j ≠ i → ∀ c, ptr (mem a j) = some c →
      ∀ x ∈ tables ptr width mem level c, mem' x = mem x := by
    intro j hj hji c hc x hx
    exact h.frame x (ht.live x (tables_child_subset hj hc hx)) fun hxb =>
      hpair j hj i hi hji c b hc hb hx hxb
  have hapart : ∀ x, live x → x ∉ tables ptr width mem level b →
      x ∉ tables ptr width mem' level b :=
    fun x hl hx hxb => (h.fresh x hxb).elim hx fun hn => hn hl
  obtain ⟨htree, hiff⟩ := ht.graft hi (by rw [ha]; exact hb) h.tree (fun _ _ => by rw [ha])
    ⟨h.mono a hlive, hapart a hlive (hchild i hi b hb).1⟩ (by
      intro j hj hji c hc x hx
      have hl := ht.live x (tables_child_subset hj hc hx)
      exact ⟨hsub j hj hji c hc x hx, h.mono x hl,
        hapart x hl fun hxb => hpair j hj i hi hji c b hc hb hx hxb⟩)
  refine ⟨htree, ?_, h.mono, ?_, ?_, ?_⟩
  · intro x hx
    rcases (hiff x).mp hx with rfl | hx | ⟨j, hj, -, c, hc, hx⟩
    · exact .inl root_mem_tables
    · exact (h.fresh x hx).imp_left (tables_child_subset hi hb)
    · exact .inl (tables_child_subset hj hc hx)
  · intro x hl hx
    exact h.frame x hl fun hxb => hx (tables_child_subset hi hb hxb)
  · intro key hkey p hp
    obtain ⟨c, hc, hs⟩ := Option.bind_eq_some_iff.mp hp
    simp only [slot, ha, hc, Option.bind_some]
    by_cases hji : key (level + 1) = i
    · obtain rfl : b = c := Option.some.inj (hb.symm.trans (hji ▸ hc))
      exact h.slots key hkey p hs
    have hsame := hsub _ (hkey _) hji c hc
    rw [slot_congr hkey hsame, hsame p.1 (slot_mem_tables hkey hs).1]
    exact ⟨hs, rfl⟩
  · intro key hkey p hn hp
    simp only [slot, ha] at hn hp
    cases hc : ptr (mem a (key (level + 1))) with
    | none => simp [hc] at hp
    | some c =>
      simp only [hc, Option.bind_some] at hn hp
      by_cases hji : key (level + 1) = i
      · obtain rfl : b = c := Option.some.inj (hb.symm.trans (hji ▸ hc))
        exact h.empty key hkey p hn hp
      · rw [slot_congr hkey (hsub _ (hkey _) hji c hc), hn] at hp
        cases hp

end

theorem tables_of_empty (h : ∀ i < width, ptr (mem a i) = none) :
    tables ptr width mem level a = [a] := by
  cases level with
  | zero => rfl
  | succ level =>
    simp only [tables, cons.injEq, flatMap_eq_nil_iff, true_and, mem_range]
    intro i hi
    rw [h i hi]
    rfl

theorem slot_of_empty (hkey : ∀ k, key k < width) (h : ∀ i < width, ptr (mem a i) = none)
    (hs : slot ptr key mem level a = some p) : ptr (mem p.1 p.2) = none := by
  cases level with
  | zero =>
    cases hs
    exact h _ (hkey 0)
  | succ level =>
    simp only [slot, h _ (hkey _)] at hs
    cases hs

theorem Grows.attach (ht : IsTree ptr width live mem (level + 1) a) (hi : i < width)
    (hnone : ptr (mem a i) = none) (hfresh : ¬ live b) (hb : ptr (mem' a i) = some b)
    (hempty : ∀ j < width, ptr (mem' b j) = none) (hword : ∀ j, j ≠ i → mem' a j = mem a j)
    (hmem : ∀ x, x ≠ a → x ≠ b → mem' x = mem x) (hlive : ∀ x, live' x ↔ live x ∨ x = b) :
    Grows ptr width live live' mem mem' (level + 1) a := by
  obtain ⟨hchild, -⟩ := nodup_tables_succ.mp ht.nodup
  have hnew : tables ptr width mem' level b = [b] := tables_of_empty hempty
  have hne : ∀ x, live x → x ≠ b := by
    rintro x hl rfl
    exact hfresh hl
  have hsub : ∀ j < width, ∀ c, ptr (mem a j) = some c →
      ∀ x ∈ tables ptr width mem level c, mem' x = mem x := by
    intro j hj c hc x hx
    refine hmem x ?_ (hne x (ht.live x (tables_child_subset hj hc hx)))
    rintro rfl
    exact (hchild j hj c hc).1 hx
  have hleaf : IsTree ptr width live' mem' level b := ⟨by simp [hnew], by simp [hnew, hlive]⟩
  obtain ⟨htree, hiff⟩ := ht.link hleaf hi hnone
    (fun x hx => by rw [hnew, mem_singleton]; exact hne x (ht.live x hx)) hb hword
    (fun x hx hxa => hmem x hxa (hne x (ht.live x hx))) fun x hx => (hlive x).mpr (.inl hx)
  refine ⟨htree, ?_, fun x hx => (hlive x).mpr (.inl hx), ?_, ?_, ?_⟩
  · intro x hx
    refine ((hiff x).mp hx).imp_right fun hx => ?_
    rw [hnew, mem_singleton] at hx
    exact hx ▸ hfresh
  · intro x hl hx
    refine hmem x ?_ (hne x hl)
    rintro rfl
    exact hx root_mem_tables
  · intro key hkey p hp
    obtain ⟨c, hc, hs⟩ := Option.bind_eq_some_iff.mp hp
    have hki : key (level + 1) ≠ i := by
      intro h
      rw [h, hnone] at hc
      cases hc
    have hsame := hsub _ (hkey _) c hc
    simp only [slot, hword _ hki, hc, Option.bind_some]
    rw [slot_congr hkey hsame, hsame p.1 (slot_mem_tables hkey hs).1]
    exact ⟨hs, rfl⟩
  · intro key hkey p hn hp
    obtain ⟨c, hc, hs⟩ := Option.bind_eq_some_iff.mp hp
    by_cases hki : key (level + 1) = i
    · obtain rfl : b = c := Option.some.inj (hb.symm.trans (hki ▸ hc))
      exact slot_of_empty hkey hempty hs
    rw [hword _ hki] at hc
    rw [slot_congr hkey (hsub _ (hkey _) c hc)] at hs
    simp only [slot, hc, Option.bind_some] at hn
    rw [hn] at hs
    cases hs

theorem IsTree.congr (h : IsTree ptr width live mem level a)
    (hmem : ∀ x ∈ tables ptr width mem level a, mem' x = mem x)
    (hlive : ∀ x ∈ tables ptr width mem level a, live' x) : IsTree ptr width live' mem' level a := by
  have htables := tables_congr hmem
  exact ⟨by rw [htables]; exact h.nodup, by rw [htables]; exact hlive⟩

/-! ## Counting tables -/

variable (ptr width) in
def children (mem : α → ℕ → ω) (a : α) : List α := (range width).filterMap fun i => ptr (mem a i)

variable (ptr width) in
def spine (mem : α → ℕ → ω) : ℕ → α → ℕ
  | 0, _ => 1
  | level + 1, a => (children ptr width mem a).head?.elim 0 (spine mem level) + 1

variable (ptr width) in
def onSpine (mem : α → ℕ → ω) (level : ℕ) : List α → ℕ → Bool
  | [], _ => true
  | a :: rest, k =>
    if k < (tables ptr width mem level a).length then k < spine ptr width mem level a
    else onSpine mem level rest (k - (tables ptr width mem level a).length)

theorem mem_children (hb : b ∈ children ptr width mem a) : ∃ i < width, ptr (mem a i) = some b := by
  obtain ⟨i, hi, hb⟩ := mem_filterMap.mp hb
  exact ⟨i, mem_range.mp hi, hb⟩

theorem tables_eq_cons : tables ptr width mem (level + 1) a =
    a :: (children ptr width mem a).flatMap (tables ptr width mem level) := by
  rw [tables, children]
  congr 1
  induction range width with
  | nil => rfl
  | cons i is ih =>
    rw [flatMap_cons, ih, filterMap_cons]
    cases ptr (mem a i) with
    | none => rfl
    | some b => rfl

theorem spine_le_length : spine ptr width mem level a ≤ (tables ptr width mem level a).length := by
  induction level generalizing a with
  | zero => exact le_rfl
  | succ level ih =>
    rw [tables_eq_cons, spine]
    cases children ptr width mem a with
    | nil => simp
    | cons b rest =>
      have hle := ih (a := b)
      simp only [head?_cons, Option.elim_some, flatMap_cons, length_cons, length_append]
      omega

theorem spine_congr (h : ∀ x ∈ tables ptr width mem level a, mem' x = mem x) :
    spine ptr width mem' level a = spine ptr width mem level a := by
  induction level generalizing a with
  | zero => rfl
  | succ level ih =>
    have hchildren : children ptr width mem' a = children ptr width mem a := by
      rw [children, h a root_mem_tables, children]
    rw [spine, spine, hchildren]
    cases hc : children ptr width mem a with
    | nil => rfl
    | cons b rest =>
      obtain ⟨i, hi, hb⟩ := mem_children (hc ▸ mem_cons_self)
      exact congrArg (· + 1) (ih fun x hx => h x (tables_child_subset hi hb hx))

theorem onSpine_congr {as : List α} {k : ℕ}
    (h : ∀ a ∈ as, ∀ x ∈ tables ptr width mem level a, mem' x = mem x) :
    onSpine ptr width mem' level as k = onSpine ptr width mem level as k := by
  induction as generalizing k with
  | nil => rfl
  | cons a as ih =>
    have ha := h a mem_cons_self
    rw [onSpine, onSpine, tables_congr ha, spine_congr ha, ih fun b hb => h b (mem_cons_of_mem a hb)]

theorem onSpine_append {done rest : List α} {k : ℕ}
    (hk : k < (tables ptr width mem level b).length) :
    onSpine ptr width mem level (done ++ b :: rest)
      ((done.flatMap (tables ptr width mem level)).length + k) =
        decide (k < spine ptr width mem level b) := by
  induction done with
  | nil => simp [onSpine, hk]
  | cons c done ih =>
    rw [cons_append, onSpine, flatMap_cons, length_append, if_neg (by omega), ← ih]
    congr 1
    omega

/-! ## Copies -/

variable (ptr width) in
def IsCopy (f : ω → ω) (mem mem' : α → ℕ → ω) : ℕ → α → α → Prop
  | 0, a, b => ∀ i < width, mem' b i = f (mem a i)
  | level + 1, a, b =>
    ∀ i < width, Option.Rel (IsCopy f mem mem' level) (ptr (mem a i)) (ptr (mem' b i))

variable {f : ω → ω} {mem₁ mem₁' : α → ℕ → ω}

section

variable (h : IsCopy ptr width f mem mem' level a b)
include h

theorem IsCopy.congr
    (hmem : ∀ x ∈ tables ptr width mem level a, mem₁ x = mem x)
    (hmem' : ∀ x ∈ tables ptr width mem' level b, mem₁' x = mem' x) :
    IsCopy ptr width f mem₁ mem₁' level a b := by
  induction level generalizing a b with
  | zero =>
    intro i hi
    rw [hmem a root_mem_tables, hmem' b root_mem_tables]
    exact h i hi
  | succ level ih =>
    intro i hi
    rw [hmem a root_mem_tables, hmem' b root_mem_tables]
    have hrel := h i hi
    cases hc : ptr (mem a i) <;> cases hd : ptr (mem' b i) <;> rw [hc, hd] at hrel <;> cases hrel
    case none.none => exact .none
    case some.some.some c d hcopy =>
      exact .some (ih hcopy (fun x hx => hmem x (tables_child_subset hi hc hx))
        fun x hx => hmem' x (tables_child_subset hi hd hx))

theorem IsCopy.slot (hkey : ∀ k, key k < width) :
    Option.Rel (fun p q => mem' q.1 q.2 = f (mem p.1 p.2)) (slot ptr key mem level a)
      (slot ptr key mem' level b) := by
  induction level generalizing a b with
  | zero => exact .some (h _ (hkey 0))
  | succ level ih =>
    have hrel := h _ (hkey (level + 1))
    simp only [TableTree.slot]
    generalize ptr (mem a (key (level + 1))) = c at hrel ⊢
    generalize ptr (mem' b (key (level + 1))) = d at hrel ⊢
    cases hrel with
    | none => exact .none
    | some hcopy => exact ih hcopy

theorem IsCopy.leaves_eq
    (hf : ∀ w, ptr (f w) = ptr w) :
    leaves ptr width mem' level b = leaves ptr width mem level a := by
  induction level generalizing a b with
  | zero =>
    refine filterMap_congr fun i hi => ?_
    rw [h i (mem_range.mp hi), hf]
  | succ level ih =>
    refine flatMap_congr fun i hi => ?_
    have hrel := h i (mem_range.mp hi)
    generalize ptr (mem a i) = c at hrel ⊢
    generalize ptr (mem' b i) = d at hrel ⊢
    cases hrel with
    | none => rfl
    | some hcopy => exact ih hcopy

end

end SimpleKernel.TableTree
