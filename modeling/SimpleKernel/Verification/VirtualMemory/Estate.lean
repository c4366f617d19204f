import SimpleKernel.Verification.VirtualMemory.Clone

/-! Owners of stacks and page directories. Owners of one family may share pages; what the
owners of different families hold is apart. -/

namespace SimpleKernel.VirtualMemory

open List Function TableTree

/-- Who holds which stack and which page directory. -/
structure Estate (ι : Type*) where
  memory : Memory
  stack : ι → Option Addr
  space : ι → Option Addr
  family : ι → ι

variable {A : CpuIo} {al : Allocator A} {ι : Type*} {e e' : Estate ι} {t u : ι} {root dst : Addr}
  {m m' : Memory}

def CpuIo.blocks (A : CpuIo) (m : Memory) (root : Addr) : List Addr :=
  A.directory m root ++ A.pages m (A.pageTableLevels - 1) root

theorem blocks_congr (h : ∀ x ∈ A.directory m root, m'.entry x = m.entry x) :
    A.directory m' root = A.directory m root ∧ A.blocks m' root = A.blocks m root := by
  have hdir : A.directory m' root = A.directory m root := tables_congr h
  have hpages : A.pages m' (A.pageTableLevels - 1) root = A.pages m (A.pageTableLevels - 1) root :=
    leaves_congr h
  exact ⟨hdir, by rw [CpuIo.blocks, CpuIo.blocks, hdir, hpages]⟩

namespace Estate

variable (A) in
def tables (e : Estate ι) (t : ι) : List Addr := (e.space t).elim [] (A.directory e.memory)

variable (A) in
def blocks (e : Estate ι) (t : ι) : List Addr := (e.space t).elim [] (A.blocks e.memory)

theorem tables_subset_blocks {x : Addr} (h : x ∈ e.tables A t) : x ∈ e.blocks A t := by
  unfold tables at h
  unfold blocks
  cases hs : e.space t with
  | none => rw [hs] at h; cases h
  | some root =>
    rw [hs] at h
    exact mem_append_left _ h

theorem blocks_of_none (h : e.space t = none) : e.blocks A t = [] := by
  simp [blocks, h]

theorem holdings_of_some (h : e.space t = some root) :
    e.tables A t = A.directory e.memory root ∧ e.blocks A t = A.blocks e.memory root := by
  simp [tables, blocks, h]

theorem holdings_congr (hspace : e'.space t = e.space t)
    (hentry : ∀ x ∈ e.tables A t, e'.memory.entry x = e.memory.entry x) :
    e'.tables A t = e.tables A t ∧ e'.blocks A t = e.blocks A t := by
  unfold tables blocks at *
  rw [hspace]
  cases hs : e.space t with
  | none => exact ⟨rfl, rfl⟩
  | some root =>
    rw [hs] at hentry
    exact blocks_congr hentry

/-- Every owner's blocks are live and its own, but for the pages and tables that it shares
within its family; no block was freed twice. -/
structure Owned (A : CpuIo) (e : Estate ι) : Prop where
  doubleFree : e.memory.heap.doubleFree = false
  nodup : ∀ t, (e.blocks A t).Nodup
  live : ∀ t, ∀ x ∈ e.blocks A t, e.memory.Live x
  nonnull : ∀ t, ∀ x ∈ e.tables A t, x ≠ 0
  apart : ∀ t u, e.family t ≠ e.family u → List.Disjoint (e.blocks A t) (e.blocks A u)
  stackLive : ∀ {t k}, e.stack t = some k → e.memory.Live k
  stackOwn : ∀ {t u k}, e.stack t = some k → e.stack u = some k → t = u
  stackApart : ∀ {t k}, e.stack t = some k → ∀ u, k ∉ e.blocks A u

theorem Owned.tree (h : e.Owned A) (hs : e.space t = some root) :
    A.IsPageTable e.memory (A.pageTableLevels - 1) root := by
  have hn := h.nodup t
  have hl := h.live t
  rw [(holdings_of_some hs).2, CpuIo.blocks] at hn hl
  exact ⟨(nodup_append.mp hn).1, fun x hx => hl x (mem_append_left _ hx)⟩

theorem Owned.survive (h : e.Owned A) (hfree : e'.memory.heap.doubleFree = false)
    (hspace : ∀ t, e'.space t = none ∨ e'.space t = e.space t ∧ e'.family t = e.family t ∧
      (∀ x ∈ e.tables A t, e'.memory.entry x = e.memory.entry x) ∧
      ∀ x ∈ e.blocks A t, e'.memory.Live x)
    (hstack : ∀ {t k}, e'.stack t = some k → e.stack t = some k ∧ e'.memory.Live k) :
    e'.Owned A := by
  have hsub : ∀ t, (e'.tables A t).Sublist (e.tables A t) ∧ (e'.blocks A t).Sublist (e.blocks A t) ∧
      ∀ x ∈ e'.blocks A t, e'.memory.Live x ∧ e'.family t = e.family t := by
    intro t
    rcases hspace t with hnone | ⟨hsame, hfamily, hentry, hlive⟩
    · have htables : e'.tables A t = [] := by simp [tables, hnone]
      rw [htables, blocks_of_none hnone]
      exact ⟨nil_sublist _, nil_sublist _, nofun⟩
    · obtain ⟨htables, hblocks⟩ := holdings_congr hsame hentry
      rw [htables, hblocks]
      exact ⟨.refl _, .refl _, fun x hx => ⟨hlive x hx, hfamily⟩⟩
  refine ⟨hfree, fun t => (hsub t).2.1.nodup (h.nodup t), fun t x hx => ((hsub t).2.2 x hx).1,
    fun t x hx => h.nonnull t x ((hsub t).1.subset hx), fun t u hne x hx hx' => ?_,
    fun hk => (hstack hk).2, fun hk hu => h.stackOwn (hstack hk).1 (hstack hu).1,
    fun hk u hx => h.stackApart (hstack hk).1 u ((hsub u).2.1.subset hx)⟩
  rw [((hsub t).2.2 x hx).2, ((hsub u).2.2 x hx').2] at hne
  exact h.apart t u hne ((hsub t).2.1.subset hx) ((hsub u).2.1.subset hx')

theorem Owned.keeps (h : e.Owned A) (hk : Keeps e.memory m') : Owned A { e with memory := m' } := by
  refine h.survive (hk.doubleFree.trans h.doubleFree) (fun t => .inr ⟨rfl, rfl, fun x hx => ?_,
    fun x hx => hk.live x (h.live t x hx)⟩) fun hs => ⟨hs, hk.live _ (h.stackLive hs)⟩
  exact hk.entry x (h.live t x (tables_subset_blocks hx))

variable (A) in
def SameElse (t : ι) (e e' : Estate ι) : Prop :=
  ∀ u, u ≠ t → e'.stack u = e.stack u ∧ e'.space u = e.space u ∧ e'.family u = e.family u ∧
    e'.blocks A u = e.blocks A u

theorem SameElse.trans {e'' : Estate ι} (h : SameElse A t e e') (h' : SameElse A t e' e'') :
    SameElse A t e e'' := by
  intro u hu
  obtain ⟨hk, hs, hf, hb⟩ := h u hu
  obtain ⟨hk', hs', hf', hb'⟩ := h' u hu
  exact ⟨hk'.trans hk, hs'.trans hs, hf'.trans hf, hb'.trans hb⟩

theorem Owned.blocks_eq (h : e.Owned A) (hk : Keeps e.memory e'.memory)
    (hspace : e'.space u = e.space u) : e'.blocks A u = e.blocks A u :=
  (holdings_congr hspace fun x hx => hk.entry x (h.live u x (tables_subset_blocks hx))).2

theorem Owned.sameElse (h : e.Owned A) (hk : Keeps e.memory e'.memory)
    (hsame : ∀ u, u ≠ t → e'.stack u = e.stack u ∧ e'.space u = e.space u ∧
      e'.family u = e.family u) : SameElse A t e e' := by
  intro u hu
  obtain ⟨hstack, hspace, hfamily⟩ := hsame u hu
  exact ⟨hstack, hspace, hfamily, h.blocks_eq hk hspace⟩

theorem Owned.mem_blocks {x : Addr} (h : e.Owned A) (hx : x ∈ e'.blocks A t)
    (hk : Keeps e.memory e'.memory) (hspace : e'.space t = e.space t) : x ∈ e.blocks A t := by
  rwa [h.blocks_eq hk hspace] at hx

theorem Owned.setFamily [DecidableEq ι] (h : e.Owned A) (hnone : e.space t = none) (f : ι) :
    Owned A { e with family := update e.family t f } := by
  refine h.survive h.doubleFree (fun u => ?_) fun hs => ⟨hs, h.stackLive hs⟩
  by_cases hu : u = t
  · subst hu
    exact .inl hnone
  · exact .inr ⟨rfl, update_of_ne hu _ _, fun _ _ => rfl, h.live u⟩

/-! ## Giving up what one holds -/

variable (A) in
def release [DecidableEq ι] (e : Estate ι) (t : ι) (freePages : Bool) : Estate ι :=
  let memory := (e.stack t).elim e.memory e.memory.alignedFree
  { e with
    memory := (e.space t).elim memory fun root => destroyPageDirectory A root freePages memory
    stack := update e.stack t none
    space := update e.space t none }

theorem Owned.release_frees [DecidableEq ι] (h : e.Owned A) (t : ι) (freePages : Bool) :
    ∃ bs : List Addr, bs.Nodup ∧ (∀ b ∈ bs, e.stack t = some b ∨ b ∈ e.blocks A t) ∧
      Frees e.memory (e.release A t freePages).memory bs (· ∈ e.tables A t) := by
  set m₁ := (e.stack t).elim e.memory e.memory.alignedFree with hm₁
  have hfirst : Frees e.memory m₁ (e.stack t).toList (· ∈ e.tables A t) := by
    cases hs : e.stack t with
    | none | some k => exact ⟨by rw [hm₁, hs]; rfl, fun _ _ => by rw [hm₁, hs]; rfl⟩
  have hentry : m₁.entry = e.memory.entry := by
    rw [hm₁]
    cases e.stack t <;> rfl
  cases hs : e.space t with
  | none =>
    refine ⟨(e.stack t).toList, ?_, fun b hb => .inl (by simpa using hb), ?_⟩
    · cases e.stack t <;> simp
    · simpa [release, hs] using hfirst
  | some root =>
    obtain ⟨htables, hblocks⟩ := holdings_of_some (A := A) hs
    have hdir : A.directory m₁ root = A.directory e.memory root :=
      (blocks_congr fun x _ => by rw [hentry]).1
    have hn := h.nodup t
    rw [hblocks, CpuIo.blocks] at hn
    have hnull : ∀ x ∈ A.directory m₁ root, x ≠ 0 := by
      rw [hdir, ← htables]
      exact h.nonnull t
    obtain ⟨bs, hperm, hfrees⟩ := destroyPageDirectory_frees freePages
      (A := A) (m := m₁) (by
        change (A.directory m₁ root).Nodup
        rw [hdir]
        exact (nodup_append.mp hn).1) hnull
    have hpages : A.pages m₁ (A.pageTableLevels - 1) root =
        A.pages e.memory (A.pageTableLevels - 1) root := leaves_congr fun x _ => by rw [hentry]
    change bs.Perm (A.directory m₁ root ++ _) at hperm
    rw [hdir, hpages] at hperm
    have hsub : (A.directory e.memory root ++
        if freePages then A.pages e.memory (A.pageTableLevels - 1) root else []).Sublist
        (A.blocks e.memory root) := by
      refine List.Sublist.append (List.Sublist.refl _) ?_
      cases freePages with
      | true => exact List.Sublist.refl _
      | false => exact nil_sublist _
    have hmem : ∀ b ∈ bs, b ∈ e.blocks A t := by
      intro b hb
      rw [hblocks]
      exact hsub.subset (hperm.mem_iff.mp hb)
    refine ⟨(e.stack t).toList ++ bs, ?_, fun b hb => ?_, ?_⟩
    · refine nodup_append.mpr ⟨by cases e.stack t <;> simp,
        hperm.nodup_iff.mpr (hsub.nodup hn), fun k hk b hb hkb => ?_⟩
      exact h.stackApart (by simpa using hk) t (hkb ▸ hmem b hb)
    · rcases mem_append.mp hb with hb | hb
      · exact .inl (by simpa using hb)
      · exact .inr (hmem b hb)
    · have hlast : Frees m₁ (e.release A t freePages).memory bs (· ∈ e.tables A t) := by
        simp only [release, hs, Option.elim_some, htables, ← hdir]
        exact hfrees
      exact hfirst.trans hlast

theorem release_of_none [DecidableEq ι] (hstack : e.stack t = none) (hspace : e.space t = none)
    (freePages : Bool) : e.release A t freePages = e := by
  have hs : update e.stack t none = e.stack := by rw [← hstack, update_eq_self]
  have hp : update e.space t none = e.space := by rw [← hspace, update_eq_self]
  simp [release, hstack, hspace, hs, hp]

section

variable (h : e.Owned A)
include h

theorem Owned.release [DecidableEq ι] (freePages : Bool)
    (hsole : ∀ u, u ≠ t → e.family u = e.family t → e.space t = none ∨ e.space u = none) :
    (e.release A t freePages).Owned A ∧ SameElse A t e (e.release A t freePages) := by
  obtain ⟨bs, hn, hmem, hfrees⟩ := h.release_frees t freePages
  have hlive : ∀ b ∈ bs, e.memory.heap.live b = true := by
    intro b hb
    rcases hmem b hb with hk | hb
    · exact h.stackLive hk
    · exact h.live t b hb
  have hdisjoint : ∀ u, u ≠ t → List.Disjoint (e.blocks A u) (e.blocks A t) := by
    intro u hu
    by_cases hf : e.family u = e.family t
    · rcases hsole u hu hf with hnone | hnone
      · rw [blocks_of_none hnone]
        exact disjoint_nil_right _
      · rw [blocks_of_none hnone]
        exact disjoint_nil_left _
    · exact h.apart u t hf
  have hkept : ∀ u, u ≠ t → ∀ x ∈ e.blocks A u, (e.release A t freePages).memory.Live x := by
    intro u hu x hx
    rw [Memory.Live, hfrees.heap, freeAll_live_iff]
    refine ⟨h.live u x hx, fun hb => ?_⟩
    rcases hmem x hb with hk | hb
    · exact h.stackApart hk u hx
    · exact hdisjoint u hu hx hb
  have hentry : ∀ u, u ≠ t → ∀ x ∈ e.tables A u,
      (e.release A t freePages).memory.entry x = e.memory.entry x := fun u hu x hx =>
    hfrees.entry x fun hxt => hdisjoint u hu (tables_subset_blocks hx) (tables_subset_blocks hxt)
  have hspace : ∀ u, u ≠ t → (e.release A t freePages).space u = e.space u :=
    fun u hu => update_of_ne hu _ _
  refine ⟨h.survive ?_ (fun u => ?_) fun {u k} hk => ?_, fun u hu =>
    ⟨update_of_ne hu _ _, hspace u hu, rfl, (holdings_congr (hspace u hu) (hentry u hu)).2⟩⟩
  · rw [hfrees.heap, freeAll_doubleFree hn hlive, h.doubleFree]
  · by_cases hu : u = t
    · subst hu
      exact .inl (update_self ..)
    · exact .inr ⟨hspace u hu, rfl, hentry u hu, hkept u hu⟩
  · by_cases hu : u = t
    · subst hu
      simp [Estate.release] at hk
    have hk' : e.stack u = some k := by simpa [Estate.release, hu] using hk
    refine ⟨hk', ?_⟩
    rw [Memory.Live, hfrees.heap, freeAll_live_iff]
    refine ⟨h.stackLive hk', fun hb => ?_⟩
    rcases hmem k hb with hkt | hb
    · exact hu (h.stackOwn hk' hkt)
    · exact h.stackApart hk' t hb

/-! ## Taking possession -/

theorem Owned.adopt [DecidableEq ι] (hn : (A.blocks e.memory root).Nodup)
    (hlive : ∀ x ∈ A.blocks e.memory root, e.memory.Live x)
    (hnull : ∀ x ∈ A.directory e.memory root, x ≠ 0)
    (hapart : ∀ u, e.family u ≠ e.family t → List.Disjoint (A.blocks e.memory root) (e.blocks A u))
    (hstack : ∀ {u k}, e.stack u = some k → k ∉ A.blocks e.memory root) :
    Owned A { e with space := update e.space t (some root) } := by
  set e' : Estate ι := { e with space := update e.space t (some root) } with he'
  have hblocks : e'.blocks A = update (e.blocks A) t (A.blocks e.memory root) := by
    funext u
    by_cases hu : u = t <;> simp [blocks, he', hu]
  have htables : e'.tables A = update (e.tables A) t (A.directory e.memory root) := by
    funext u
    by_cases hu : u = t <;> simp [tables, he', hu]
  refine ⟨h.doubleFree, ?_, ?_, ?_, fun u v hne => ?_, h.stackLive, h.stackOwn, fun hk => ?_⟩
  · rw [hblocks]
    exact (forall_update_iff _ fun _ => Nodup).mpr ⟨hn, fun u _ => h.nodup u⟩
  · rw [hblocks]
    exact (forall_update_iff _ fun _ l => ∀ x ∈ l, e.memory.Live x).mpr ⟨hlive, fun u _ => h.live u⟩
  · rw [htables]
    exact (forall_update_iff _ fun _ l => ∀ x ∈ l, x ≠ 0).mpr ⟨hnull, fun u _ => h.nonnull u⟩
  · rw [hblocks]
    by_cases hu : u = t
    · subst hu
      have hv : v ≠ u := fun hv => hne (congrArg e.family hv.symm)
      rw [update_self, update_of_ne hv]
      exact hapart v (Ne.symm hne)
    rw [update_of_ne hu]
    by_cases hv : v = t
    · subst hv
      rw [update_self]
      exact disjoint_comm.mp (hapart u hne)
    · rw [update_of_ne hv]
      exact h.apart u v hne
  · rw [hblocks]
    exact (forall_update_iff _ fun _ l => _ ∉ l).mpr ⟨hstack hk, fun u _ => h.stackApart hk u⟩

theorem Owned.share [DecidableEq ι] (hfamily : e.family t = e.family u)
    (hs : e.space u = some root) : Owned A { e with space := update e.space t (some root) } := by
  obtain ⟨htables, hblocks⟩ := holdings_of_some (A := A) hs
  refine h.adopt (hblocks ▸ h.nodup u) (hblocks ▸ h.live u) (htables ▸ h.nonnull u) (fun v hv => ?_)
    fun hk => hblocks ▸ h.stackApart hk u
  rw [← hblocks]
  exact h.apart u v (by rw [← hfamily]; exact Ne.symm hv)

theorem Owned.copy [DecidableEq ι] (hfamily : e.family t = e.family u) (hs : e.space u = some root)
    (hr : clonePageDirectory A al root true e.memory = (.ok dst, m')) :
    Owned A { e with memory := m', space := update e.space t (some dst) } := by
  obtain ⟨hkeeps, hok, -⟩ := clonePageDirectory_spec (h.tree hs) hr
  obtain ⟨htree, hfresh, hcopy, -⟩ := hok dst rfl
  have hpages : A.pages m' (A.pageTableLevels - 1) dst = A.pages e.memory (A.pageTableLevels - 1) root :=
    hcopy.leaves_eq target_copiedWord
  obtain ⟨-, hblocks⟩ := holdings_of_some (A := A) hs
  have hcases : ∀ x ∈ A.blocks m' dst, ¬ e.memory.Live x ∧ x ∈ A.directory m' dst ∨
      x ∈ A.pages e.memory (A.pageTableLevels - 1) root ∧ x ∈ e.blocks A u := by
    intro x hx
    rw [CpuIo.blocks, hpages] at hx
    rcases mem_append.mp hx with hx | hx
    · exact .inl ⟨(hfresh x hx).1, hx⟩
    · exact .inr ⟨hx, by rw [hblocks]; exact mem_append_right _ hx⟩
  have hgrown := h.keeps hkeeps
  refine hgrown.adopt ?_ (fun x hx => ?_) (fun x hx => (hfresh x hx).2) (fun v hv x hx hxv => ?_)
    fun {v k} hk hx => ?_
  · have hn := h.nodup u
    rw [hblocks, CpuIo.blocks] at hn
    rw [CpuIo.blocks, hpages]
    refine nodup_append.mpr ⟨htree.nodup, (nodup_append.mp hn).2.1, fun x hx y hy hxy => ?_⟩
    subst hxy
    exact (hfresh x hx).1 (h.live u x (hblocks ▸ mem_append_right _ hy))
  · rcases hcases x hx with ⟨-, hx⟩ | ⟨-, hx⟩
    · exact htree.live x hx
    · exact hkeeps.live x (h.live u x hx)
  · have hxv := h.mem_blocks hxv hkeeps rfl
    rcases hcases x hx with ⟨hx, -⟩ | ⟨-, hx⟩
    · exact hx (h.live v x hxv)
    · exact h.apart u v (by rw [← hfamily]; exact Ne.symm hv) hx hxv
  · rcases hcases k hx with ⟨hx, -⟩ | ⟨-, hx⟩
    · exact hx (h.stackLive hk)
    · exact h.stackApart hk u hx

theorem Owned.adoptStack [DecidableEq ι] {k : Addr} (hlive : e.memory.Live k)
    (hown : ∀ u, e.stack u ≠ some k) (hapart : ∀ u, k ∉ e.blocks A u) :
    Owned A { e with stack := update e.stack t (some k) } := by
  have hcases : ∀ {u l}, update e.stack t (some k) u = some l →
      (u = t ∧ l = k) ∨ (u ≠ t ∧ e.stack u = some l) := by
    intro u l hl
    by_cases hu : u = t
    · subst hu
      rw [update_self] at hl
      exact .inl ⟨rfl, (Option.some.inj hl).symm⟩
    · rw [update_of_ne hu] at hl
      exact .inr ⟨hu, hl⟩
  refine ⟨h.doubleFree, h.nodup, h.live, h.nonnull, h.apart, fun hl => ?_, fun hl hl' => ?_,
    fun hl v => ?_⟩
  · rcases hcases hl with ⟨-, rfl⟩ | ⟨-, hl⟩
    · exact hlive
    · exact h.stackLive hl
  · rcases hcases hl with ⟨rfl, rfl⟩ | ⟨-, hu⟩
    · rcases hcases hl' with ⟨rfl, -⟩ | ⟨-, hv⟩
      · rfl
      · exact absurd hv (hown _)
    rcases hcases hl' with ⟨rfl, rfl⟩ | ⟨-, hv⟩
    · exact absurd hu (hown _)
    · exact h.stackOwn hu hv
  · rcases hcases hl with ⟨-, rfl⟩ | ⟨-, hl⟩
    · exact hapart v
    · exact h.stackApart hl v

theorem Owned.takeStack [DecidableEq ι] {k : Addr} (hr : e.memory.alignedAlloc al = (some k, m')) :
    Owned A { e with memory := m', stack := update e.stack t (some k) } := by
  have hkeeps : Keeps e.memory m' := .alloc hr
  obtain ⟨hfresh, -, -, rfl⟩ := alignedAlloc_some hr
  have hdead : ¬ e.memory.Live k := by simp [Memory.Live, hfresh]
  refine (h.keeps hkeeps).adoptStack ((take_live_iff e.memory.heap k k).mpr (.inr rfl))
    (fun u hk => hdead (h.stackLive hk)) fun u hk => ?_
  exact hdead (h.live u k (h.mem_blocks hk hkeeps rfl))

end

end Estate

end SimpleKernel.VirtualMemory
