import SimpleKernel.Verification.VirtualMemory.Destroy

/-! What `ClonePageDirectory` builds: new tables that map the pages of the source. -/

namespace SimpleKernel.VirtualMemory

open List TableTree

variable {A : CpuIo} {al : Allocator A} {copyMappings : Bool} {m m' : Memory} {level : ℕ}
  {src dst : Addr} {is : List ℕ} {r : Expected Unit} {n n₁ n₃ : Memory} {new : Addr} {i : ℕ}

theorem cloneEntries_rule {child : ℕ → Memory → Expected (Option ℕ) × Memory}
    {I : List ℕ → Memory → Prop} {Q : Memory → Prop}
    (hskip : ∀ i is n, I (i :: is) n → A.target (n.entry src i) = none → I is n)
    (hround : ∀ i is n b, I (i :: is) n → A.target (n.entry src i) = some b →
      match child (n.entry src i) n with
      | (.error _, n') => Q n'
      | (.ok none, n') => I is n'
      | (.ok (some pte), n') => I is (n'.write dst i pte)) (h : I is m)
    (hr : cloneEntries A child src dst is m = (r, m')) :
    (r = .ok () ∧ I [] m') ∨ ((∃ e, r = .error e) ∧ Q m') := by
  induction is generalizing m with
  | nil =>
    cases hr
    exact .inl ⟨rfl, h⟩
  | cons i is ih =>
    simp only [cloneEntries] at hr
    split_ifs at hr with hv
    · have hstep := hround i is m _ h (target_of_valid hv)
      split at hr
      · rename_i e n hc
        rw [hc] at hstep
        cases hr
        exact .inr ⟨⟨e, rfl⟩, hstep⟩
      · rename_i n hc
        rw [hc] at hstep
        exact ih hstep hr
      · rename_i pte n hc
        rw [hc] at hstep
        exact ih hstep hr
    · exact ih (hskip i is m h (target_of_invalid (by simpa using hv))) hr

/-- No live block was freed or written to. -/
structure Keeps (m m' : Memory) : Prop where
  live : ∀ x, m.Live x → m'.Live x
  entry : ∀ x, m.Live x → m'.entry x = m.entry x
  doubleFree : m'.heap.doubleFree = m.heap.doubleFree

theorem Keeps.refl (m : Memory) : Keeps m m := ⟨fun _ h => h, fun _ _ => rfl, rfl⟩

theorem Keeps.trans {m'' : Memory} (h : Keeps m m') (h' : Keeps m' m'') : Keeps m m'' :=
  ⟨fun x hx => h'.live x (h.live x hx),
    fun x hx => (h'.entry x (h.live x hx)).trans (h.entry x hx), h'.doubleFree.trans h.doubleFree⟩

theorem Keeps.alloc {found : Option Addr} (h : m.alignedAlloc al = (found, m')) : Keeps m m' := by
  cases found with
  | none =>
    obtain ⟨-, rfl⟩ := alignedAlloc_none h
    exact ⟨fun _ h => h, fun _ _ => rfl, rfl⟩
  | some a =>
    obtain ⟨-, -, -, rfl⟩ := alignedAlloc_some h
    exact ⟨fun x hx => (take_live_iff m.heap a x).mpr (.inl hx), fun _ _ => rfl, rfl⟩

/-- From `m` to `m'` a tree of new tables was built at `dst`, and no block that was live has
been touched. -/
structure Built (A : CpuIo) (m m' : Memory) (level : ℕ) (dst : Addr) : Prop where
  tree : A.IsPageTable m' level dst
  fresh : ∀ x ∈ A.tables m' level dst, x = dst ∨ ¬ m.Live x
  nonnull : ∀ x ∈ A.tables m' level dst, x ≠ 0
  live : ∀ x, m.Live x → m'.Live x
  entry : ∀ x, m.Live x → x ≠ dst → m'.entry x = m.entry x
  doubleFree : m'.heap.doubleFree = m.heap.doubleFree

def CpuIo.copiedWord (A : CpuIo) (copyMappings : Bool) (pte : ℕ) : ℕ :=
  if copyMappings && A.isPageTableEntryValid pte then pte else 0

attribute [simp] CpuIo.copiedWord

def CpuIo.IsCopy (A : CpuIo) (copyMappings : Bool) (m m' : Memory) (level : ℕ) (src dst : Addr) :
    Prop :=
  TableTree.IsCopy A.target A.entriesPerTable (A.copiedWord copyMappings) m.entry m'.entry level src dst

theorem copiedWord_of_target_none {pte : ℕ} (h : A.target pte = none) :
    A.copiedWord copyMappings pte = 0 := by
  simp [target_eq_none_iff.mp h]

theorem target_copiedWord (pte : ℕ) : A.target (A.copiedWord true pte) = A.target pte := by
  cases hv : A.isPageTableEntryValid pte with
  | false => simp [hv, target_of_invalid hv]
  | true => simp [hv]

theorem recursiveClonePageTable_leaf (hzero : ∀ i, m.entry dst i = 0) (hne : src ≠ dst)
    (hr : recursiveClonePageTable A al copyMappings 0 src dst m = (r, m')) :
    r = .ok () ∧ m'.heap = m.heap ∧ (∀ x, x ≠ dst → m'.entry x = m.entry x) ∧
      A.IsCopy copyMappings m m' 0 src dst := by
  let I : List ℕ → Memory → Prop := fun is n =>
    n.heap = m.heap ∧ is.Nodup ∧ (∀ x, x ≠ dst → n.entry x = m.entry x) ∧
      (∀ j ∈ is, n.entry dst j = 0) ∧
      ∀ j < A.entriesPerTable, j ∉ is → n.entry dst j = A.copiedWord copyMappings (m.entry src j)
  have hinit : I (range A.entriesPerTable) m :=
    ⟨rfl, nodup_range, fun _ _ => rfl, fun j _ => hzero j,
      fun j hj hn => absurd (mem_range.mpr hj) hn⟩
  have hfinish : ∀ i is n, I (i :: is) n → A.copiedWord copyMappings (m.entry src i) = 0 →
      I is n := by
    rintro i is n ⟨hheap, hn, hother, hrest, hdone⟩ hnone
    refine ⟨hheap, (nodup_cons.mp hn).2, hother, fun j hj => hrest j (by simp [hj]), ?_⟩
    intro j hj hjis
    by_cases hji : j = i
    · subst hji
      rw [hrest j (by simp), hnone]
    · exact hdone j hj (by simp [hji, hjis])
  have hcopy : ∀ i is n, I (i :: is) n →
      A.copiedWord copyMappings (m.entry src i) = m.entry src i →
      I is (n.write dst i (n.entry src i)) := by
    rintro i is n ⟨hheap, hn, hother, hrest, hdone⟩ hword
    obtain ⟨hi, hn⟩ := nodup_cons.mp hn
    refine ⟨hheap, hn, fun x hx => ?_, fun j hj => ?_, fun j hj hjis => ?_⟩
    · rw [write_entry_of_ne _ hx]
      exact hother x hx
    · have hji : j ≠ i := fun h => hi (h ▸ hj)
      rw [write_entry_of_ne_index _ _ hji]
      exact hrest j (by simp [hj])
    · by_cases hji : j = i
      · subst hji
        rw [write_entry_self, hother src hne, hword]
      · rw [write_entry_of_ne_index _ _ hji]
        exact hdone j hj (by simp [hji, hjis])
  have hend := cloneEntries_rule (I := I) (Q := fun _ => False)
    (fun i is n h hnone => hfinish i is n h
      (copiedWord_of_target_none (by rw [← h.2.2.1 src hne]; exact hnone)))
    (by
      intro i is n b h hb
      rw [h.2.2.1 src hne] at hb
      have hv := (target_eq_some_iff.mp hb).1
      cases copyMappings with
      | false => exact hfinish i is n h rfl
      | true => exact hcopy i is n h (by simp [hv])) hinit hr
  rcases hend with ⟨rfl, hheap, -, hother, -, hdone⟩ | ⟨-, hfalse⟩
  · exact ⟨rfl, hheap, hother, fun j hj => hdone j hj (by simp)⟩
  · exact hfalse.elim

/-! ## One round above the last level -/

theorem Built.refl (hdst : m.Live dst) (hzero : ∀ i, m.entry dst i = 0) (hnull : dst ≠ 0) :
    Built A m m level dst := by
  have htables : A.tables m level dst = [dst] :=
    tables_of_empty fun i _ => by rw [hzero i, target_zero]
  refine ⟨⟨?_, ?_⟩, ?_, ?_, fun _ h => h, fun _ _ _ => rfl, rfl⟩
  · change (A.tables m level dst).Nodup
    rw [htables]
    simp
  · intro x hx
    change x ∈ A.tables m level dst at hx
    rw [htables, mem_singleton] at hx
    exact hx ▸ hdst
  · intro x hx
    rw [htables, mem_singleton] at hx
    exact .inl hx
  · intro x hx
    rw [htables, mem_singleton] at hx
    exact hx ▸ hnull

theorem Keeps.tables (hk : Keeps n m') (h : A.IsPageTable n level dst) :
    A.tables m' level dst = A.tables n level dst :=
  tables_congr fun x hx => hk.entry x (h.live x hx)

theorem Built.keep (h : Built A m n level dst) (hk : Keeps n m') : Built A m m' level dst := by
  have htables := hk.tables h.tree
  refine ⟨h.tree.congr (fun x hx => hk.entry x (h.tree.live x hx))
      fun x hx => hk.live x (h.tree.live x hx), ?_, ?_, ?_, ?_, ?_⟩
  · rw [htables]; exact h.fresh
  · rw [htables]; exact h.nonnull
  · exact fun x hx => hk.live x (h.live x hx)
  · intro x hx hne
    rw [hk.entry x (h.live x hx), h.entry x hx hne]
  · rw [hk.doubleFree, h.doubleFree]

section

variable (halloc : n.alignedAlloc al = (some new, n₁)) (h : Built A (n₁.clear new) n₃ level new)
include halloc h

theorem Built.keeps : Keeps n n₃ := by
  obtain ⟨-, hkept⟩ := alignedAlloc_clear halloc
  refine ⟨fun x hx => h.live x (hkept x hx).1, fun x hx => ?_, ?_⟩
  · obtain ⟨hlive, hentry, hne⟩ := hkept x hx
    rw [h.entry x hlive hne, hentry]
  · exact h.doubleFree.trans (Keeps.alloc halloc).doubleFree

theorem Built.not_live {x : Addr} (hx : x ∈ A.tables n₃ level new) : ¬ n.Live x := by
  intro hl
  obtain ⟨hlive, -, hne⟩ := (alignedAlloc_clear halloc).2 x hl
  exact (h.fresh x hx).elim hne fun hn => hn hlive

end

theorem Built.link (hb : Built A m n (level + 1) dst)
    (hi : i < A.entriesPerTable) (hzero : n.entry dst i = 0)
    (halloc : n.alignedAlloc al = (some new, n₁)) (h : Built A (n₁.clear new) n₃ level new) :
    let n₄ := n₃.write dst i (A.physicalToPageTableEntry new A.getTableEntryPermissions)
    Built A m n₄ (level + 1) dst ∧ ∀ x, x ∈ A.tables n₄ (level + 1) dst ↔
      x ∈ A.tables n (level + 1) dst ∨ x ∈ A.tables n₃ level new := by
  have hkeeps := h.keeps halloc
  obtain ⟨-, hframe, -, -⟩ := alignedAlloc_some halloc
  have h₃ := hb.keep hkeeps
  have hroot : n.Live dst := hb.tree.live dst root_mem_tables
  have hnew : ∀ x ∈ A.tables n₃ level new, ¬ n.Live x := fun x hx => h.not_live halloc hx
  have htables := hkeeps.tables hb.tree
  have hold : ∀ x ∈ A.tables n₃ (level + 1) dst, n.Live x :=
    htables ▸ fun x hx => hb.tree.live x hx
  have hnone : A.target (n₃.entry dst i) = none := by
    rw [hkeeps.entry dst hroot, hzero, target_zero]
  have hlinked : A.target ((n₃.write dst i (A.physicalToPageTableEntry new
      A.getTableEntryPermissions)).entry dst i) = some new := by
    rw [write_entry_self]
    exact target_encode hframe A.permissions_flags
  have hsame : ∀ x ∈ A.tables n₃ level new, (n₃.write dst i (A.physicalToPageTableEntry new
      A.getTableEntryPermissions)).entry x = n₃.entry x := by
    refine fun x hx => write_entry_of_ne _ ?_ _ _
    rintro rfl
    exact hnew x hx hroot
  have hlink := h₃.tree.link (h.tree.congr hsame h.tree.live) hi hnone
  rw [tables_congr hsame] at hlink
  obtain ⟨htree, hsub⟩ := hlink (fun x hx hxn => hnew x hxn (hold x hx)) hlinked
    (fun j hj => write_entry_of_ne_index _ _ hj _) (fun x _ hx => write_entry_of_ne _ hx _ _)
    fun _ hx => hx
  refine ⟨⟨htree, ?_, ?_, h₃.live, ?_, h₃.doubleFree⟩, fun x => htables ▸ hsub x⟩
  · intro x hx
    rcases (hsub x).mp hx with hx | hx
    · exact h₃.fresh x hx
    · exact .inr fun hl => hnew x hx (hb.live x hl)
  · intro x hx
    rcases (hsub x).mp hx with hx | hx
    · exact h₃.nonnull x hx
    · exact h.nonnull x hx
  · intro x hx hne
    rw [write_entry_of_ne _ hne]
    exact h₃.entry x hx hne

/-! ## The recursion -/

/-- What the loop above the last level keeps: the entries that remain are still zero, and
the others lead to copies of the source's subtrees. -/
structure CloneInv (A : CpuIo) (copyMappings : Bool) (m : Memory) (level : ℕ) (src dst : Addr)
    (is : List ℕ) (n : Memory) : Prop where
  built : Built A m n (level + 1) dst
  nodup : is.Nodup
  rest : ∀ j ∈ is, j < A.entriesPerTable ∧ n.entry dst j = 0
  done : ∀ j < A.entriesPerTable, j ∉ is → Option.Rel (A.IsCopy copyMappings m n level)
    (A.target (m.entry src j)) (A.target (n.entry dst j))

theorem CloneInv.skip (h : CloneInv A copyMappings m level src dst (i :: is) n)
    (hnone : A.target (m.entry src i) = none) : CloneInv A copyMappings m level src dst is n := by
  refine ⟨h.built, (nodup_cons.mp h.nodup).2, fun j hj => h.rest j (by simp [hj]), ?_⟩
  intro j hj hjis
  by_cases hji : j = i
  · subst hji
    rw [(h.rest j (by simp)).2, target_zero, hnone]
    exact .none
  · exact h.done j hj (by simp [hji, hjis])

theorem CloneInv.link {b : Addr} (h : CloneInv A copyMappings m level src dst (i :: is) n)
    (hb : A.target (m.entry src i) = some b)
    (halloc : n.alignedAlloc al = (some new, n₁)) (hnew : Built A (n₁.clear new) n₃ level new)
    (hcopy : A.IsCopy copyMappings m n₃ level b new) :
    CloneInv A copyMappings m level src dst is
      (n₃.write dst i (A.physicalToPageTableEntry new A.getTableEntryPermissions)) := by
  obtain ⟨hi, hzero⟩ := h.rest i (by simp)
  obtain ⟨hnot, hn⟩ := nodup_cons.mp h.nodup
  have hkeeps := hnew.keeps halloc
  obtain ⟨-, hframe, -, -⟩ := alignedAlloc_some halloc
  have hroot : n.Live dst := h.built.tree.live dst root_mem_tables
  have hlink := (h.built.link hi hzero halloc hnew).1
  refine ⟨hlink, hn, fun j hj => ?_, fun j hj hjis => ?_⟩
  · have hji : j ≠ i := fun e => hnot (e ▸ hj)
    rw [write_entry_of_ne_index _ _ hji, hkeeps.entry dst hroot]
    exact h.rest j (by simp [hj])
  · by_cases hji : j = i
    · subst hji
      rw [write_entry_self, target_encode hframe A.permissions_flags, hb]
      refine .some (hcopy.congr (fun _ _ => rfl) fun x hx => write_entry_of_ne _ ?_ _ _)
      rintro rfl
      exact hnew.not_live halloc hx hroot
    rw [write_entry_of_ne_index _ _ hji, hkeeps.entry dst hroot]
    have hrel := h.done j hj (by simp [hji, hjis])
    obtain ⟨hchild, -⟩ := nodup_tables_succ.mp h.built.tree.nodup
    cases hs : A.target (m.entry src j) <;> cases hc : A.target (n.entry dst j) <;>
      rw [hs, hc] at hrel <;> cases hrel
    case none.none => exact .none
    case some.some.some b c hcopied =>
      refine .some (hcopied.congr (fun _ _ => rfl) fun x hx => ?_)
      have hne : x ≠ dst := by
        rintro rfl
        exact (hchild j hj c hc).1 hx
      rw [write_entry_of_ne _ hne]
      exact hkeeps.entry x (h.built.tree.live x (tables_child_subset hj hc hx))

/-! ## Counting the tables -/

variable {k : ℕ} {is : List ℕ} {done : List Addr} {n n₁ n₃ : Memory} {b new : Addr} {i : ℕ}

/-- The copy is complete: it has asked for all its tables but the first, and they are live. -/
structure Complete (A : CpuIo) (m m' : Memory) (level : ℕ) (src dst : Addr) : Prop where
  calls : m'.heap.calls + 1 = m.heap.calls + (A.tables m level src).length
  nulls : m'.heap.nulls = m.heap.nulls
  live : ∀ x, m'.Live x → m.Live x ∨ x ∈ A.tables m' level dst

/-- The copy has failed after `k` tables. They are all freed if the next one is on the spine; those
that are left are all linked if it is on the spine of a child. -/
structure Broken (A : CpuIo) (m m' : Memory) (level : ℕ) (src dst : Addr) (k : ℕ) : Prop where
  calls : m'.heap.calls = m.heap.calls + k + 1
  nulls : m'.heap.nulls = m.heap.nulls + 1
  lt : k + 1 < (A.tables m level src).length
  freed : (∀ x, m'.Live x → m.Live x) ↔ k + 1 < spine A.target A.entriesPerTable m.entry level src
  linked : (∀ x, m'.Live x → m.Live x ∨ x ∈ A.tables m' level dst) ↔
    onSpine A.target A.entriesPerTable m.entry (level - 1)
      (children A.target A.entriesPerTable m.entry src) k = true

/-- What the loop has asked for; `done` are the tables of the source that are copied. -/
structure Tally (A : CpuIo) (m n : Memory) (level : ℕ) (src dst : Addr) (is : List ℕ)
    (done : List Addr) : Prop where
  split : children A.target A.entriesPerTable m.entry src =
    done ++ is.filterMap fun i => A.target (m.entry src i)
  calls : n.heap.calls = m.heap.calls + (done.flatMap (A.tables m level)).length
  nulls : n.heap.nulls = m.heap.nulls
  live : ∀ x, n.Live x → m.Live x ∨ x ∈ A.tables n (level + 1) dst
  grown : (∀ x, n.Live x → m.Live x) ↔ done = []

section

variable (h : Tally A m n level src dst (i :: is) done) (hm : Built A m n (level + 1) dst)
  (hb : A.target (m.entry src i) = some b)
include h hm hb

theorem Tally.link (hi : i < A.entriesPerTable)
    (hzero : n.entry dst i = 0) (halloc : n.alignedAlloc al = (some new, n₁))
    (hnew : Built A (n₁.clear new) n₃ level new)
    (hcalls : n₃.heap.calls = n.heap.calls + (A.tables m level b).length)
    (hnulls : n₃.heap.nulls = n.heap.nulls)
    (hlive : ∀ x, n₃.Live x → n.Live x ∨ x ∈ A.tables n₃ level new) :
    Tally A m (n₃.write dst i (A.physicalToPageTableEntry new A.getTableEntryPermissions)) level
      src dst is (done ++ [b]) := by
  have htables := (hm.link hi hzero halloc hnew).2
  refine ⟨h.split.trans (by simp [hb]), ?_,
    hnulls.trans h.nulls, fun x hx => ?_, ⟨fun hall => ?_, by simp⟩⟩
  · rw [flatMap_append, length_append, flatMap_singleton, ← add_assoc, ← h.calls]
    exact hcalls
  · rcases hlive x hx with hx | hx
    · exact (h.live x hx).imp_right fun hx => (htables x).mpr (.inl hx)
    · exact .inr ((htables x).mpr (.inr hx))
  · have hl : m.Live new := hall new (hnew.tree.live new root_mem_tables)
    exact absurd (hm.live new hl) (hnew.not_live halloc root_mem_tables)

theorem Tally.broken (hkeeps : Keeps n m')
    (hk : k < (A.tables m level b).length) (hcalls : m'.heap.calls = n.heap.calls + k + 1)
    (hnulls : m'.heap.nulls = n.heap.nulls + 1) (hfreed : (∀ x, m'.Live x → n.Live x) ↔
      k < spine A.target A.entriesPerTable m.entry level b) :
    ∃ k, Broken A m m' (level + 1) src dst k := by
  have hsplit := h.split
  simp only [filterMap_cons, hb] at hsplit
  refine ⟨(done.flatMap (A.tables m level)).length + k, ?_, by rw [hnulls, h.nulls], ?_, ?_, ?_⟩
  · rw [hcalls, h.calls]
    omega
  · rw [CpuIo.tables, tables_eq_cons, hsplit, flatMap_append, flatMap_cons, length_cons,
      length_append, length_append]
    change (done.flatMap (A.tables m level)).length + k + 1 <
      (done.flatMap (A.tables m level)).length + ((A.tables m level b).length + _) + 1
    omega
  · rw [spine, hsplit]
    cases done with
    | nil =>
      have hsame := h.grown.mpr rfl
      have hiff : (∀ x, m'.Live x → m.Live x) ↔ ∀ x, m'.Live x → n.Live x :=
        forall₂_congr fun x _ => ⟨hm.live x, hsame x⟩
      simp [hiff, hfreed]
    | cons c done =>
      have hle : spine A.target A.entriesPerTable m.entry level c ≤ (A.tables m level c).length :=
        spine_le_length
      refine iff_of_false (fun hall => ?_) ?_
      · exact cons_ne_nil _ _ (h.grown.mp fun x hx => hall x (hkeeps.live x hx))
      · simp only [cons_append, head?_cons, Option.elim_some, flatMap_cons, length_append]
        omega
  · rw [Nat.add_sub_cancel, hsplit]
    refine Iff.trans ?_ (Bool.eq_iff_iff.mp (onSpine_append hk)).symm
    rw [decide_eq_true_iff, ← hfreed, hkeeps.tables hm.tree]
    refine forall₂_congr fun x _ => ⟨fun hx => ?_, h.live x⟩
    exact hx.elim (hm.live x) (hm.tree.live x)

end

theorem recursiveClonePageTable_built (hsrc : A.IsPageTable m level src) (hdst : m.Live dst)
    (hzero : ∀ i, m.entry dst i = 0) (hnull : dst ≠ 0) (hapart : dst ∉ A.tables m level src)
    (hr : recursiveClonePageTable A al copyMappings level src dst m = (r, m')) :
    Built A m m' level dst ∧ (r = .ok () → A.IsCopy copyMappings m m' level src dst ∧
        Complete A m m' level src dst) ∧
      ∀ e, r = .error e → ∃ k, Broken A m m' level src dst k := by
  induction level generalizing m m' src dst r with
  | zero =>
    have hne : src ≠ dst := by
      rintro rfl
      exact hapart root_mem_tables
    obtain ⟨rfl, hheap, hentry, hcopy⟩ := recursiveClonePageTable_leaf hzero hne hr
    have hlive : ∀ x, m.Live x → m'.Live x := by
      intro x hx
      rw [Memory.Live, hheap]
      exact hx
    refine ⟨⟨⟨nodup_singleton dst, ?_⟩, ?_, ?_, hlive, fun x _ hx => hentry x hx, by rw [hheap]⟩,
      fun _ => ⟨hcopy, by rw [hheap]; rfl, by rw [hheap], fun x hx => .inl ?_⟩, by rintro e ⟨⟩⟩
    · intro x hx
      obtain rfl := mem_singleton.mp hx
      exact hlive x hdst
    · intro x hx
      exact .inl (mem_singleton.mp hx)
    · intro x hx
      obtain rfl := mem_singleton.mp hx
      exact hnull
    · rwa [Memory.Live, hheap] at hx
  | succ level ih =>
    have hsrcdst : ∀ x ∈ A.tables m (level + 1) src, x ≠ dst := by
      rintro x hx rfl
      exact hapart hx
    have hkept : ∀ {n : Memory}, Built A m n (level + 1) dst → ∀ x ∈ A.tables m (level + 1) src,
        n.Live x ∧ n.entry x = m.entry x := fun hb x hx =>
      ⟨hb.live x (hsrc.live x hx), hb.entry x (hsrc.live x hx) (hsrcdst x hx)⟩
    have hinit : CloneInv A copyMappings m level src dst (range A.entriesPerTable) m :=
      ⟨.refl hdst hzero hnull, nodup_range, fun j hj => ⟨mem_range.mp hj, hzero j⟩,
        fun j hj hn => absurd (mem_range.mpr hj) hn⟩
    have htally : Tally A m m level src dst (range A.entriesPerTable) [] :=
      ⟨rfl, rfl, rfl, fun _ hx => .inl hx, by simp⟩
    have hround : ∀ i is n b, CloneInv A copyMappings m level src dst (i :: is) n →
        A.target (n.entry src i) = some b → ∀ new n₁, n.alignedAlloc al = (some new, n₁) →
        ∀ r n₃, recursiveClonePageTable A al copyMappings level b new (n₁.clear new) = (r, n₃) →
        Built A (n₁.clear new) n₃ level new ∧
          (r = .ok () → A.IsCopy copyMappings m n₃ level b new ∧
            n₃.heap.calls = n.heap.calls + (A.tables m level b).length ∧
            n₃.heap.nulls = n.heap.nulls ∧
            ∀ x, n₃.Live x → n.Live x ∨ x ∈ A.tables n₃ level new) ∧
          ∀ e, r = .error e → ∃ k < (A.tables m level b).length,
            n₃.heap.calls = n.heap.calls + k + 1 ∧ n₃.heap.nulls = n.heap.nulls + 1 ∧
            ((∀ x, n₃.Live x ∧ x ≠ new → n.Live x) ↔
              k < spine A.target A.entriesPerTable m.entry level b) := by
      intro i is n b h hb new n₁ halloc r n₃ hrec
      obtain ⟨-, -, hnew0, rfl⟩ := alignedAlloc_some halloc
      obtain ⟨hnewlive, hearlier⟩ := alignedAlloc_clear halloc
      set n₂ := Memory.clear { n with heap := n.heap.take new } new
      rw [(hkept h.built src root_mem_tables).2] at hb
      have hi := (h.rest i (by simp)).1
      have hsub : ∀ x ∈ A.tables m level b, n₂.Live x ∧
          n₂.entry x = m.entry x ∧ x ≠ new := by
        intro x hx
        obtain ⟨hl, he⟩ := hkept h.built x (tables_child_subset hi hb hx)
        obtain ⟨hl', he', hne⟩ := hearlier x hl
        exact ⟨hl', he'.trans he, hne⟩
      have htables : A.tables n₂ level b = A.tables m level b :=
        tables_congr fun x hx => (hsub x hx).2.1
      obtain ⟨hbuilt, hok, herror⟩ := ih ((hsrc.child hi hb).congr (fun x hx => (hsub x hx).2.1)
        fun x hx => (hsub x hx).1) hnewlive (clear_entry_self _ new) hnew0
        (by rw [htables]; exact fun hx => (hsub new hx).2.2 rfl) hrec
      have hlive : ∀ x, n₂.Live x ↔ n.Live x ∨ x = new := take_live_iff n.heap new
      refine ⟨hbuilt, fun hr => ?_, fun e he => ?_⟩
      · obtain ⟨hcopy, hcalls, hnulls, hcopied⟩ := hok hr
        refine ⟨hcopy.congr (fun x hx => ((hsub x (htables ▸ hx)).2.1).symm) fun _ _ => rfl, ?_,
          hnulls, fun x hx => ?_⟩
        · rw [htables] at hcalls
          change _ = n.heap.calls + 1 + _ at hcalls
          omega
        · rcases hcopied x hx with hx | hx
          · refine ((hlive x).mp hx).imp_right ?_
            rintro rfl
            exact root_mem_tables
          · exact .inr hx
      · obtain ⟨k, hcalls, hnulls, hlt, hfreed, -⟩ := herror e he
        rw [htables] at hlt
        rw [spine_congr fun x hx => (hsub x hx).2.1] at hfreed
        change _ = n.heap.calls + 1 + k + 1 at hcalls
        refine ⟨k + 1, hlt, by omega, hnulls, Iff.trans ?_ hfreed⟩
        simp only [hlive, and_imp]
        exact forall₂_congr fun x _ => by tauto
    simp only [recursiveClonePageTable] at hr
    have hend := cloneEntries_rule (I := fun is n => CloneInv A copyMappings m level src dst is n ∧
        ∃ done, Tally A m n level src dst is done)
      (Q := fun n => Built A m n (level + 1) dst ∧ ∃ k, Broken A m n (level + 1) src dst k)
      (fun i is n h hnone => by
        rw [(hkept h.1.built src root_mem_tables).2] at hnone
        exact ⟨h.1.skip hnone, h.2.imp fun _ t =>
          ⟨t.split.trans (by simp [hnone]), t.calls, t.nulls, t.live, t.grown⟩⟩)
      (by
        rintro i is n b ⟨h, done, htally⟩ hb
        have hpa := (target_eq_some_iff.mp hb).2
        have hsame := (hkept h.built src root_mem_tables).2
        have hb' : A.target (m.entry src i) = some b := hsame ▸ hb
        cases halloc : n.alignedAlloc al with
        | mk found n₁ =>
          cases found with
          | none =>
            obtain ⟨-, rfl⟩ := alignedAlloc_none halloc
            refine ⟨h.built.keep (.alloc halloc),
              htally.broken (k := 0) h.built hb' (.alloc halloc) ?_ rfl rfl ?_⟩
            · exact length_pos_of_mem root_mem_tables
            · exact iff_of_true (fun _ hx => hx) (by cases level <;> exact Nat.succ_pos _)
          | some new =>
            simp only [hpa]
            cases hrec : recursiveClonePageTable A al copyMappings level b new (n₁.clear new) with
            | mk r n₃ =>
              obtain ⟨hbuilt, hok, herror⟩ := hround i is n b h hb new n₁ halloc r n₃ hrec
              have hkeeps := hbuilt.keeps halloc
              cases r with
              | error e =>
                have hfree : Keeps n (n₃.alignedFree new) := by
                  refine ⟨fun x hx => (free_live_iff _ _ _).mpr ⟨hkeeps.live x hx, ?_⟩, hkeeps.entry, ?_⟩
                  · rintro rfl
                    exact hbuilt.not_live halloc root_mem_tables hx
                  · have hl : n₃.heap.live new = true := hbuilt.tree.live new root_mem_tables
                    simp [Memory.alignedFree, Heap.free, hl, hkeeps.doubleFree]
                obtain ⟨k, hk, hcalls, hnulls, hfreed⟩ := herror e rfl
                refine ⟨h.built.keep hfree,
                  htally.broken h.built hb' hfree hk hcalls hnulls (Iff.trans ?_ hfreed)⟩
                exact forall_congr' fun x => imp_congr_left (free_live_iff _ _ _)
              | ok u =>
                obtain ⟨hcopy, hcalls, hnulls, hcopied⟩ := hok rfl
                obtain ⟨hi, hzero⟩ := h.rest i mem_cons_self
                exact ⟨h.link hb' halloc hbuilt hcopy, _, htally.link h.built hb' hi hzero halloc
                  hbuilt hcalls hnulls hcopied⟩) ⟨hinit, [], htally⟩ hr
    rcases hend with ⟨rfl, h, done, htally⟩ | ⟨⟨e, rfl⟩, h, hbroken⟩
    · refine ⟨h.built, fun _ => ⟨fun j hj => h.done j hj (by simp), ?_, htally.nulls, htally.live⟩,
        by rintro e ⟨⟩⟩
      rw [CpuIo.tables, tables_eq_cons, htally.split, filterMap_nil, append_nil, htally.calls]
      rfl
    · exact ⟨h, by rintro ⟨⟩, fun _ _ => hbroken⟩

/-! ## The page directory -/

theorem Keeps.destroy (h : Keeps m m') (htree : A.IsPageTable m' (A.pageTableLevels - 1) dst)
    (hfresh : ∀ x ∈ A.directory m' dst, ¬ m.Live x ∧ x ≠ 0) :
    let m'' := destroyPageDirectory A dst false m'
    Keeps m m'' ∧ (∀ x, m''.Live x ↔ m'.Live x ∧ x ∉ A.directory m' dst) ∧
      m''.heap.calls = m'.heap.calls ∧ m''.heap.nulls = m'.heap.nulls := by
  obtain ⟨bs, hperm, hfrees⟩ := destroyPageDirectory_frees false htree.nodup fun x hx => (hfresh x hx).2
  simp only [Bool.false_eq_true, if_false, append_nil] at hperm
  have hold : ∀ x, m.Live x → x ∉ A.directory m' dst := fun x hx hmem => (hfresh x hmem).1 hx
  have hlive : ∀ x, (destroyPageDirectory A dst false m').Live x ↔
      m'.Live x ∧ x ∉ A.directory m' dst := by
    intro x
    rw [Memory.Live, hfrees.heap, freeAll_live_iff, hperm.mem_iff]
    rfl
  refine ⟨⟨fun x hx => ?_, fun x hx => ?_, ?_⟩, hlive, hfrees.heap ▸ freeAll_counts m'.heap bs⟩
  · exact (hlive x).mpr ⟨h.live x hx, hold x hx⟩
  · rw [hfrees.entry x (hold x hx), h.entry x hx]
  · rw [hfrees.heap, freeAll_doubleFree (hperm.nodup_iff.mpr htree.nodup), h.doubleFree]
    exact fun b hb => htree.live b (hperm.mem_iff.mp hb)

/-- Request number `k` is for the root, or for a table on the spine of a child of the root. -/
def CpuIo.cleanAt (A : CpuIo) (m : Memory) (src : Addr) (k : ℕ) : Bool :=
  k = 0 || onSpine A.target A.entriesPerTable m.entry (A.pageTableLevels - 1 - 1)
    (children A.target A.entriesPerTable m.entry src) (k - 1)

theorem Broken.linked_iff (h : Broken A n m' level src dst k)
    (hsame : ∀ x ∈ A.tables m level src, n.entry x = m.entry x) :
    (∀ x, m'.Live x → n.Live x ∨ x ∈ A.tables m' level dst) ↔
      onSpine A.target A.entriesPerTable m.entry (level - 1)
        (children A.target A.entriesPerTable m.entry src) k = true := by
  rw [h.linked, children, hsame src root_mem_tables, ← children]
  cases level with
  | zero => exact absurd h.lt (by simp [CpuIo.tables, TableTree.tables])
  | succ level =>
    rw [Nat.add_sub_cancel, onSpine_congr fun b hb x hx => ?_]
    obtain ⟨i, hi, hb⟩ := mem_children hb
    exact hsame x (tables_child_subset hi hb hx)

theorem clonePageDirectory_spec (hsrc : A.IsPageTable m (A.pageTableLevels - 1) src)
    {r : Expected Addr} (hr : clonePageDirectory A al src copyMappings m = (r, m')) :
    Keeps m m' ∧ (∀ dst, r = .ok dst → A.IsPageTable m' (A.pageTableLevels - 1) dst ∧
      (∀ x ∈ A.directory m' dst, ¬ m.Live x ∧ x ≠ 0) ∧
      A.IsCopy copyMappings m m' (A.pageTableLevels - 1) src dst ∧ m'.heap.nulls = m.heap.nulls) ∧
    ∀ e, r = .error e → ∃ k, m'.heap.nulls = m.heap.nulls + 1 ∧
      m'.heap.calls = m.heap.calls + k + 1 ∧
      ((∀ x, m'.Live x → m.Live x) ↔ A.cleanAt m src k = true) := by
  unfold clonePageDirectory at hr
  cases halloc : m.alignedAlloc al with
  | mk found n₁ =>
    cases found with
    | none =>
      rw [halloc] at hr
      cases hr
      obtain ⟨-, rfl⟩ := alignedAlloc_none halloc
      exact ⟨.alloc halloc, nofun, fun _ _ => ⟨0, rfl, rfl, iff_of_true (fun _ hx => hx) rfl⟩⟩
    | some dst =>
      rw [halloc] at hr
      simp only at hr
      obtain ⟨-, -, hnull, hm₁⟩ := alignedAlloc_some halloc
      obtain ⟨hdst, hkept⟩ := alignedAlloc_clear halloc
      have hsub : ∀ x ∈ A.tables m (A.pageTableLevels - 1) src, (n₁.clear dst).Live x ∧
          (n₁.clear dst).entry x = m.entry x ∧ x ≠ dst := fun x hx => hkept x (hsrc.live x hx)
      have htables : A.tables (n₁.clear dst) (A.pageTableLevels - 1) src =
          A.tables m (A.pageTableLevels - 1) src := tables_congr fun x hx => (hsub x hx).2.1
      cases hrec : recursiveClonePageTable A al copyMappings (A.pageTableLevels - 1) src dst
          (n₁.clear dst) with
      | mk rec n =>
        rw [hrec] at hr
        obtain ⟨hbuilt, hok, herror⟩ := recursiveClonePageTable_built
          (hsrc.congr (fun x hx => (hsub x hx).2.1) fun x hx => (hsub x hx).1) hdst
          (clear_entry_self _ dst) hnull
          (by rw [htables]; exact fun hx => (hsub dst hx).2.2 rfl) hrec
        have hfresh : ∀ x ∈ A.directory n dst, ¬ m.Live x ∧ x ≠ 0 :=
          fun x hx => ⟨hbuilt.not_live halloc hx, hbuilt.nonnull x hx⟩
        cases rec with
        | error e =>
          cases hr
          obtain ⟨k, hbroken⟩ := herror e rfl
          obtain ⟨hkeeps, hdestroyed, hcalls, hnulls⟩ :=
            (hbuilt.keeps halloc).destroy hbuilt.tree hfresh
          refine ⟨hkeeps, nofun, fun _ _ => ⟨k + 1, ?_, ?_, ?_⟩⟩
          · rw [hnulls, hbroken.nulls, hm₁]
            rfl
          · rw [hcalls, hbroken.calls, hm₁]
            change m.heap.calls + 1 + k + 1 = _
            omega
          · have hlive : ∀ x, (n₁.clear dst).Live x ↔ m.Live x ∨ x = dst :=
              hm₁ ▸ take_live_iff m.heap dst
            refine Iff.trans ?_ (hbroken.linked_iff fun x hx => (hsub x hx).2.1)
            refine forall_congr' fun x => ?_
            rw [hdestroyed, hlive]
            have hroot : dst ∈ A.directory n dst := root_mem_tables
            refine ⟨fun hall hx => ?_, fun hall hx => ?_⟩
            · by_cases hmem : x ∈ A.directory n dst
              · exact .inr hmem
              · exact .inl (.inl (hall ⟨hx, hmem⟩))
            · rcases hall hx.1 with (hl | rfl) | hmem
              · exact hl
              · exact absurd hroot hx.2
              · exact absurd hmem hx.2
        | ok u =>
          cases hr
          refine ⟨hbuilt.keeps halloc, ?_, nofun⟩
          rintro _ ⟨⟩
          obtain ⟨hcopy, hcomplete⟩ := hok rfl
          refine ⟨hbuilt.tree, hfresh, hcopy.congr
            (fun x hx => ((hsub x (htables ▸ hx)).2.1).symm) fun _ _ => rfl, ?_⟩
          rw [hcomplete.nulls, hm₁]
          rfl

end SimpleKernel.VirtualMemory
