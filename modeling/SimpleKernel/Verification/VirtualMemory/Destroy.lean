import Mathlib.Data.List.Perm.Basic
import SimpleKernel.Verification.VirtualMemory.Walk

/-! Which blocks `DestroyPageDirectory` frees: every table of the directory once and, if it
is asked to, every page that the directory maps. -/

namespace SimpleKernel.VirtualMemory

open List TableTree

variable {A : CpuIo} {freePages : Bool} {m m' m'' : Memory} {level : ℕ} {table : Addr}
  {bs : List Addr} {S : Addr → Prop}

def CpuIo.tables (A : CpuIo) (m : Memory) (level : ℕ) (table : Addr) : List Addr :=
  TableTree.tables A.target A.entriesPerTable m.entry level table

/-- The physical pages that the tables at and below a table map. -/
def CpuIo.pages (A : CpuIo) (m : Memory) (level : ℕ) (table : Addr) : List Addr :=
  TableTree.leaves A.target A.entriesPerTable m.entry level table

def CpuIo.directory (A : CpuIo) (m : Memory) (root : Addr) : List Addr :=
  A.tables m (A.pageTableLevels - 1) root

/-! ## Freeing a list of blocks -/

def Heap.freeAll (h : Heap) (blocks : List Addr) : Heap := blocks.foldl Heap.free h

theorem freeAll_append (h : Heap) (bs cs : List Addr) :
    h.freeAll (bs ++ cs) = (h.freeAll bs).freeAll cs :=
  foldl_append

theorem free_live_iff (h : Heap) (b x : Addr) :
    (h.free b).live x = true ↔ h.live x = true ∧ x ≠ b := by
  by_cases hx : x = b <;> simp [Heap.free, hx]

theorem freeAll_live_iff (h : Heap) (bs : List Addr) (x : Addr) :
    (h.freeAll bs).live x = true ↔ h.live x = true ∧ x ∉ bs := by
  induction bs generalizing h with
  | nil => simp [Heap.freeAll]
  | cons b bs ih =>
    rw [Heap.freeAll, foldl_cons, ← Heap.freeAll, ih, free_live_iff, mem_cons]
    tauto

theorem freeAll_counts (h : Heap) (bs : List Addr) :
    (h.freeAll bs).calls = h.calls ∧ (h.freeAll bs).nulls = h.nulls := by
  induction bs generalizing h with
  | nil => exact ⟨rfl, rfl⟩
  | cons b bs ih => exact ih (h.free b)

theorem freeAll_doubleFree {h : Heap} (hn : bs.Nodup)
    (hl : ∀ b ∈ bs, h.live b = true) : (h.freeAll bs).doubleFree = h.doubleFree := by
  induction bs generalizing h with
  | nil => rfl
  | cons b bs ih =>
    obtain ⟨hb, hn⟩ := nodup_cons.mp hn
    rw [Heap.freeAll, foldl_cons, ← Heap.freeAll, ih hn]
    · simp [Heap.free, hl b (by simp)]
    · intro c hc
      rw [free_live_iff]
      exact ⟨hl c (by simp [hc]), fun h => hb (h ▸ hc)⟩

/-- From `m` to `m'` the blocks `bs` were freed in this order, and only tables of `S` were
written. -/
structure Frees (m m' : Memory) (bs : List Addr) (S : Addr → Prop) : Prop where
  heap : m'.heap = m.heap.freeAll bs
  entry : ∀ x, ¬ S x → m'.entry x = m.entry x

theorem Frees.trans {cs : List Addr} (h : Frees m m' bs S)
    (h' : Frees m' m'' cs S) : Frees m m'' (bs ++ cs) S := by
  refine ⟨?_, fun x hx => (h'.entry x hx).trans (h.entry x hx)⟩
  rw [h'.heap, h.heap, freeAll_append]

theorem Frees.mono {T : Addr → Prop} (h : Frees m m' bs S)
    (hST : ∀ x, S x → T x) : Frees m m' bs T :=
  ⟨h.heap, fun x hx => h.entry x fun hS => hx (hST x hS)⟩

theorem Frees.write (h : Frees m m' bs S) (hS : S table)
    (i pte : ℕ) : Frees m (m'.write table i pte) bs S := by
  refine ⟨h.heap, fun x hx => ?_⟩
  have hne : x ≠ table := by
    rintro rfl
    exact hx hS
  rw [write_entry_of_ne _ hne, h.entry x hx]

/-! ## The loop over the entries of a table -/

theorem foldl_freeEntry (table : Addr) (child : Addr → Memory → Memory) (F : Addr → List Addr)
    (S : Addr → Addr → Prop) (m₀ : Memory) {is : List ℕ} (hn : is.Nodup)
    (hself : ∀ i ∈ is, ∀ b, A.target (m₀.entry table i) = some b → ¬ S b table)
    (hchild : ∀ i ∈ is, ∀ b, A.target (m₀.entry table i) = some b → ∀ n : Memory,
      (∀ x, S b x → n.entry x = m₀.entry x) → Frees n (child b n) (F b) (S b))
    (hdis : ∀ i ∈ is, ∀ j ∈ is, i ≠ j → ∀ b c, A.target (m₀.entry table i) = some b →
      A.target (m₀.entry table j) = some c → ∀ x, S b x → ¬ S c x)
    (hwords : ∀ i ∈ is, m.entry table i = m₀.entry table i)
    (hsame : ∀ i ∈ is, ∀ b, A.target (m₀.entry table i) = some b →
      ∀ x, S b x → m.entry x = m₀.entry x) :
    Frees m (is.foldl (freeEntry A child table) m)
      (is.flatMap fun i => (A.target (m₀.entry table i)).elim [] F)
      (fun x => x = table ∨ ∃ i ∈ is, ∃ b, A.target (m₀.entry table i) = some b ∧ S b x) := by
  induction is generalizing m with
  | nil => exact ⟨rfl, fun _ _ => rfl⟩
  | cons i is ih =>
    obtain ⟨hi, hn⟩ := nodup_cons.mp hn
    have hrest : ∀ n : Memory, (∀ j ∈ is, n.entry table j = m₀.entry table j) →
        (∀ j ∈ is, ∀ b, A.target (m₀.entry table j) = some b →
          ∀ x, S b x → n.entry x = m₀.entry x) → _ := fun n hw hs =>
      ih (m := n) hn (fun j hj => hself j (by simp [hj])) (fun j hj => hchild j (by simp [hj]))
        (fun j hj k hk => hdis j (by simp [hj]) k (by simp [hk])) hw hs
    have hmono : ∀ x, (x = table ∨ ∃ j ∈ is, ∃ b, A.target (m₀.entry table j) = some b ∧ S b x) →
        x = table ∨ ∃ j ∈ i :: is, ∃ b, A.target (m₀.entry table j) = some b ∧ S b x := by
      rintro x (h | ⟨j, hj, hb⟩)
      · exact .inl h
      · exact .inr ⟨j, by simp [hj], hb⟩
    rw [foldl_cons, flatMap_cons]
    cases hb : A.target (m₀.entry table i) with
    | none =>
      have hinv : A.isPageTableEntryValid (m.entry table i) = false := by
        rw [hwords i (by simp)]
        exact target_eq_none_iff.mp hb
      have hskip : freeEntry A child table m i = m := by simp [freeEntry, hinv]
      rw [hskip]
      exact (hrest m (fun j hj => hwords j (by simp [hj]))
        (fun j hj => hsame j (by simp [hj]))).mono hmono
    | some b =>
      obtain ⟨hv, hpa⟩ := target_eq_some_iff.mp hb
      have hstep : freeEntry A child table m i = (child b m).write table i 0 := by
        simp [freeEntry, hwords i (by simp), hv, hpa]
      have hfrees := hchild i (by simp) b hb m (hsame i (by simp) b hb)
      have htable : (child b m).entry table = m.entry table :=
        hfrees.entry table (hself i (by simp) b hb)
      rw [hstep]
      refine Frees.trans (Frees.write (hfrees.mono fun x hx => .inr ⟨i, by simp, b, hb, hx⟩)
        (.inl rfl) i 0) ((hrest _ ?_ ?_).mono hmono)
      · intro j hj
        have hji : j ≠ i := fun h => hi (h ▸ hj)
        rw [write_entry_of_ne_index _ _ hji, htable]
        exact hwords j (by simp [hj])
      · intro j hj c hc x hx
        have hji : j ≠ i := fun h => hi (h ▸ hj)
        have hne : x ≠ table := by
          rintro rfl
          exact hself j (by simp [hj]) c hc hx
        rw [write_entry_of_ne _ hne, hfrees.entry x
          (hdis j (by simp [hj]) i (by simp) hji c b hc hb x hx)]
        exact hsame j (by simp [hj]) c hc x hx

/-! ## The recursion -/

def CpuIo.ownBlock (A : CpuIo) (level : ℕ) (table : Addr) : List Addr :=
  if level < A.pageTableLevels - 1 then [table] else []

def CpuIo.blocksBelow (A : CpuIo) (freePages : Bool) (m : Memory) : ℕ → Addr → List Addr
  | 0, table => (range A.entriesPerTable).flatMap fun i =>
    (A.target (m.entry table i)).elim [] fun page => if freePages then [page] else []
  | level + 1, table => (range A.entriesPerTable).flatMap fun i =>
    (A.target (m.entry table i)).elim [] fun child =>
      A.blocksBelow freePages m level child ++ A.ownBlock level child

theorem blocksBelow_congr (h : ∀ x ∈ A.tables m level table, m'.entry x = m.entry x) :
    A.blocksBelow freePages m' level table = A.blocksBelow freePages m level table := by
  induction level generalizing table with
  | zero => simp [CpuIo.blocksBelow, h table root_mem_tables]
  | succ level ih =>
    simp only [CpuIo.blocksBelow, h table root_mem_tables]
    refine flatMap_congr fun i hi => ?_
    cases hb : A.target (m.entry table i) with
    | none => rfl
    | some b =>
      simp only [Option.elim_some]
      rw [ih fun x hx => h x (tables_child_subset (mem_range.mp hi) hb hx)]

theorem freeTable_frees (h : Frees m m' bs S) :
    Frees m (freeTable A level table m') (bs ++ A.ownBlock level table) S := by
  unfold freeTable CpuIo.ownBlock
  split
  · refine ⟨?_, h.entry⟩
    rw [freeAll_append, ← h.heap]
    rfl
  · rwa [append_nil]

theorem recursiveFreePageTable_frees (freePages : Bool) (hn : (A.tables m level table).Nodup)
    (hnull : ∀ x ∈ A.tables m level table, x ≠ 0) :
    Frees m (recursiveFreePageTable A freePages level table m)
      (A.blocksBelow freePages m level table ++ A.ownBlock level table)
      (· ∈ A.tables m level table) := by
  induction level generalizing table m with
  | zero =>
    have h0 : table ≠ 0 := hnull table root_mem_tables
    simp only [recursiveFreePageTable, if_neg h0]
    apply freeTable_frees
    have hloop := foldl_freeEntry (A := A) (m := m) table
      (fun pa m => if freePages then Memory.alignedFree m pa else m)
      (fun page => if freePages then [page] else []) (fun _ _ => False) m
      (nodup_range (n := A.entriesPerTable)) (fun _ _ _ _ h => h) (fun i _ b _ n _ => ?_)
      (fun _ _ _ _ _ _ _ _ _ _ h => h.elim) (fun _ _ => rfl)
      (fun _ _ _ _ _ _ => rfl)
    · refine hloop.mono ?_
      rintro x (rfl | ⟨i, -, b, -, h⟩)
      · exact root_mem_tables
      · exact h.elim
    · cases freePages
      all_goals exact ⟨rfl, fun _ _ => rfl⟩
  | succ level ih =>
    have h0 : table ≠ 0 := hnull table root_mem_tables
    obtain ⟨hchild, hpair⟩ := nodup_tables_succ.mp hn
    simp only [recursiveFreePageTable, if_neg h0]
    apply freeTable_frees
    have hloop := foldl_freeEntry (m := m) table
      (fun pa m => recursiveFreePageTable A freePages level pa m)
      (fun child => A.blocksBelow freePages m level child ++ A.ownBlock level child)
      (fun child x => x ∈ A.tables m level child) m (nodup_range (n := A.entriesPerTable))
      (fun i hi b hb => (hchild i (mem_range.mp hi) b hb).1) (fun i hi b hb n hsame => ?_)
      (fun i hi j hj hij b c hb hc x hxb hxc =>
        hpair i (mem_range.mp hi) j (mem_range.mp hj) hij b c hb hc hxb hxc)
      (fun _ _ => rfl) (fun _ _ _ _ _ _ => rfl)
    · refine hloop.mono ?_
      rintro x (rfl | ⟨i, hi, b, hb, hx⟩)
      · exact root_mem_tables
      · exact tables_child_subset (mem_range.mp hi) hb hx
    · have htables : A.tables n level b = A.tables m level b := tables_congr hsame
      have hn' : (A.tables n level b).Nodup := by
        rw [htables]
        exact (hchild i (mem_range.mp hi) b hb).2
      have hnull' : ∀ x ∈ A.tables n level b, x ≠ 0 := by
        intro x hx
        rw [htables] at hx
        exact hnull x (tables_child_subset (mem_range.mp hi) hb hx)
      have hfrees := ih hn' hnull'
      rw [blocksBelow_congr hsame, htables] at hfrees
      exact hfrees

theorem blocksBelow_perm (hlevel : level ≤ A.pageTableLevels - 1) :
    (table :: A.blocksBelow freePages m level table).Perm
      (A.tables m level table ++ if freePages then A.pages m level table else []) := by
  induction level generalizing table with
  | zero =>
    cases freePages with
    | false =>
      have hnil : A.blocksBelow false m 0 table = [] := by
        simp only [CpuIo.blocksBelow, flatMap_eq_nil_iff]
        intro i _
        cases A.target (m.entry table i) <;> rfl
      rw [hnil]
      exact List.Perm.refl _
    | true =>
      simp only [CpuIo.blocksBelow, CpuIo.tables, CpuIo.pages, TableTree.tables,
        TableTree.leaves, if_true, singleton_append, perm_cons]
      rw [filterMap_eq_flatMap_toList]
      refine List.Perm.of_eq (flatMap_congr fun i _ => ?_)
      cases A.target (m.entry table i) <;> rfl
  | succ level ih =>
    have hown : ∀ child, A.ownBlock level child = [child] := by
      intro child
      exact if_pos (by omega)
    simp only [CpuIo.blocksBelow, CpuIo.tables, CpuIo.pages, TableTree.tables,
      TableTree.leaves, cons_append, perm_cons, hown]
    have hchildren : ∀ i ∈ range A.entriesPerTable,
        ((A.target (m.entry table i)).elim [] fun child =>
          A.blocksBelow freePages m level child ++ [child]).Perm
        ((A.target (m.entry table i)).elim [] (A.tables m level) ++
          if freePages then (A.target (m.entry table i)).elim [] (A.pages m level) else []) := by
      intro i _
      cases A.target (m.entry table i) with
      | none => cases freePages <;> simp
      | some b => exact (perm_append_singleton b _).trans (ih (by omega))
    refine (List.Perm.flatMap_left _ hchildren).trans ?_
    refine (flatMap_append_perm _ _ _).symm.trans (List.Perm.append_left _ ?_)
    cases freePages with
    | false => simp
    | true => exact List.Perm.refl _

theorem destroyPageDirectory_frees {root : Addr} (freePages : Bool)
    (hn : (A.tables m (A.pageTableLevels - 1) root).Nodup)
    (hnull : ∀ x ∈ A.tables m (A.pageTableLevels - 1) root, x ≠ 0) :
    ∃ bs, bs.Perm (A.tables m (A.pageTableLevels - 1) root ++
        if freePages then A.pages m (A.pageTableLevels - 1) root else []) ∧
      Frees m (destroyPageDirectory A root freePages m) bs
        (· ∈ A.tables m (A.pageTableLevels - 1) root) := by
  have h0 : root ≠ 0 := hnull root root_mem_tables
  have hown : A.ownBlock (A.pageTableLevels - 1) root = [] := if_neg (lt_irrefl _)
  have hfrees := recursiveFreePageTable_frees freePages hn hnull
  rw [hown, append_nil] at hfrees
  refine ⟨A.blocksBelow freePages m (A.pageTableLevels - 1) root ++ [root],
    (perm_append_singleton root _).trans (blocksBelow_perm le_rfl), ?_⟩
  simp only [destroyPageDirectory, if_neg h0]
  refine ⟨?_, hfrees.entry⟩
  rw [freeAll_append, ← hfrees.heap]
  rfl

end SimpleKernel.VirtualMemory
