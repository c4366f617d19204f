import SimpleKernel.Verification.VirtualMemory.Independence

/-! What `DestroyPageDirectory` frees of the directories that any calls have built: the tables of
the one directory and, if it is asked to, the pages that it maps. -/

namespace SimpleKernel.VirtualMemory

open List TableTree

/-- The directories at the roots come from zeroed pages by calls on them and by cloning. -/
inductive BuiltBy (A : CpuIo) (al : Allocator A) : Memory → List Addr → Prop where
  | start (m) : BuiltBy A al m []
  | zeroed {m roots root} : BuiltBy A al m roots → m.Live root → root ≠ 0 →
      (∀ i, m.entry root i = 0) → (∀ r ∈ roots, root ∉ A.directory m r) →
      BuiltBy A al m (root :: roots)
  | call {m roots root} (call : Call) : BuiltBy A al m roots → root ∈ roots →
      BuiltBy A al (call.exec A al root m).2 roots
  | clone {m m' roots root copyMappings r} : BuiltBy A al m roots → root ∈ roots →
      clonePageDirectory A al root copyMappings m = (r, m') →
      BuiltBy A al m' (r.toOption.toList ++ roots)

variable {A : CpuIo} {al : Allocator A} {m m' : Memory} {root : Addr} {roots : List Addr}

/-- Directories without a common table, at other addresses than 0. -/
structure Apart (A : CpuIo) (m : Memory) (roots : List Addr) : Prop where
  tree : ∀ r ∈ roots, A.IsPageTable m (A.pageTableLevels - 1) r
  nonnull : ∀ r ∈ roots, ∀ x ∈ A.directory m r, x ≠ 0
  disjoint : ∀ r ∈ roots, ∀ r' ∈ roots, r ≠ r' → List.Disjoint (A.directory m r) (A.directory m r')

theorem Apart.cons (h : Apart A m roots) (htree : A.IsPageTable m (A.pageTableLevels - 1) root)
    (hnull : ∀ x ∈ A.directory m root, x ≠ 0)
    (hnew : ∀ r ∈ roots, List.Disjoint (A.directory m root) (A.directory m r)) :
    Apart A m (root :: roots) := by
  refine ⟨forall_mem_cons.mpr ⟨htree, h.tree⟩, forall_mem_cons.mpr ⟨hnull, h.nonnull⟩, ?_⟩
  intro r hr r' hr' hne
  rcases mem_cons.mp hr with rfl | hmem
  · exact hnew r' ((mem_cons.mp hr').resolve_left (Ne.symm hne))
  rcases mem_cons.mp hr' with rfl | hmem'
  · exact fun x hx hx' => hnew r hmem hx' hx
  · exact h.disjoint r hmem r' hmem' hne

theorem Apart.extends (h : Apart A m roots) (hr : root ∈ roots) (he : Extends A m m' root) :
    Apart A m' roots := by
  have hentry : ∀ r ∈ roots, r ≠ root → ∀ x ∈ A.directory m r, m'.entry x = m.entry x :=
    fun r hr' hne x hx => he.frame x ((h.tree r hr').live x hx) (h.disjoint r hr' root hr hne hx)
  have hdir : ∀ r ∈ roots, r ≠ root → A.directory m' r = A.directory m r :=
    fun r hr' hne => tables_congr (hentry r hr' hne)
  have hroot : ∀ r ∈ roots, r ≠ root → List.Disjoint (A.directory m' root) (A.directory m' r) := by
    intro r hr' hne x hx hx'
    rw [hdir r hr' hne] at hx'
    rcases he.fresh x hx with hx | hx
    · exact h.disjoint root hr r hr' (Ne.symm hne) hx hx'
    · exact hx.1 ((h.tree r hr').live x hx')
  refine ⟨fun r hr' => ?_, fun r hr' x hx => ?_, fun r hr' r' hr'' hne => ?_⟩
  · by_cases hne : r = root
    · exact hne ▸ he.tree
    · exact (h.tree r hr').congr (hentry r hr' hne) fun x hx => he.live x ((h.tree r hr').live x hx)
  · by_cases hne : r = root
    · subst hne
      exact (he.fresh x hx).elim (h.nonnull r hr x) And.right
    · rw [hdir r hr' hne] at hx
      exact h.nonnull r hr' x hx
  · by_cases hr₁ : r = root
    · exact hr₁ ▸ hroot r' hr'' fun h => hne (hr₁.trans h.symm)
    by_cases hr₂ : r' = root
    · exact hr₂ ▸ fun x hx hx' => hroot r hr' hr₁ hx' hx
    · rw [hdir r hr' hr₁, hdir r' hr'' hr₂]
      exact h.disjoint r hr' r' hr'' hne

theorem BuiltBy.apart (h : BuiltBy A al m roots) : Apart A m roots := by
  induction h with
  | start => exact ⟨by simp, by simp, by simp⟩
  | @zeroed m roots root _ hlive hnull hzero hnew ih =>
    have hdir : A.directory m root = [root] :=
      tables_of_empty fun i _ => by rw [hzero i, target_zero]
    refine ih.cons (represents_zeroed hlive hzero).tree ?_ fun r hr x hx => ?_
    · rw [hdir]
      simpa using hnull
    · rw [hdir, mem_singleton] at hx
      exact hx ▸ hnew r hr
  | call call _ hr ih => exact ih.extends hr (exec_extends al (ih.tree _ hr) call)
  | @clone m m' roots root _ r _ hr hclone ih =>
    obtain ⟨hk, hok, -⟩ := clonePageDirectory_spec (ih.tree root hr) hclone
    have hentry : ∀ r ∈ roots, ∀ x ∈ A.directory m r, m'.entry x = m.entry x :=
      fun r hr x hx => hk.entry x ((ih.tree r hr).live x hx)
    have hdir : ∀ r ∈ roots, A.directory m' r = A.directory m r :=
      fun r hr => tables_congr (hentry r hr)
    have hkept : Apart A m' roots := by
      refine ih.extends hr ⟨(ih.tree root hr).congr (hentry root hr) fun x hx => ?_, hk.live,
        fun x hx => .inl (hdir root hr ▸ hx), fun x hl _ => hk.entry x hl⟩
      exact hk.live x ((ih.tree root hr).live x hx)
    cases r with
    | error e => exact hkept
    | ok dst =>
      obtain ⟨htree, hfresh, -⟩ := hok dst rfl
      refine hkept.cons htree (fun x hx => (hfresh x hx).2) fun r hr x hx hx' => ?_
      rw [hdir r hr] at hx'
      exact (hfresh x hx).1 ((ih.tree r hr).live x hx')

/-- Every table of the directory is freed once, every mapped page once for each entry that maps it
if the pages are to be freed, and nothing else; no other directory is written to. -/
theorem destroyPageDirectory_exact (h : BuiltBy A al m roots) (hr : root ∈ roots)
    (freePages : Bool) :
    (∃ bs : List Addr, bs.Perm (A.directory m root ++
        if freePages then A.pages m (A.pageTableLevels - 1) root else []) ∧
      (destroyPageDirectory A root freePages m).heap = m.heap.freeAll bs) ∧
    (A.directory m root).Nodup ∧ (∀ x ∈ A.directory m root, m.Live x) ∧
    ∀ r ∈ roots, r ≠ root → ∀ x ∈ A.directory m r,
      (destroyPageDirectory A root freePages m).entry x = m.entry x := by
  have hapart := h.apart
  obtain ⟨bs, hperm, hfrees⟩ := destroyPageDirectory_frees freePages (hapart.tree root hr).nodup
    (hapart.nonnull root hr)
  exact ⟨⟨bs, hperm, hfrees.heap⟩, (hapart.tree root hr).nodup, (hapart.tree root hr).live,
    fun r hr' hne x hx => hfrees.entry x (hapart.disjoint r hr' root hr hne hx)⟩

theorem destroyPageDirectory_exact_one :
    let m := (Call.exec sv39 (bump 16) 4096 (zeroedRoot 4096) (.mapPage 4096 8192 7)).2
    BuiltBy sv39 (bump 16) m [4096] ∧ ∃ bs : List Addr,
      bs.Perm (sv39.directory m 4096 ++ sv39.pages m (sv39.pageTableLevels - 1) 4096) ∧
        (destroyPageDirectory sv39 4096 true m).heap = m.heap.freeAll bs := by
  have hstart : BuiltBy sv39 (bump 16) (zeroedRoot 4096) [4096] :=
    .zeroed (.start _) rfl (by decide) (fun _ => rfl) (by simp)
  intro m
  have h : BuiltBy sv39 (bump 16) m [4096] := hstart.call (.mapPage 4096 8192 7) mem_cons_self
  obtain ⟨hfreed, -⟩ := destroyPageDirectory_exact h mem_cons_self true
  rw [if_pos rfl] at hfreed
  exact ⟨h, hfreed⟩

/-! ## A clone that fails -/

/-- If the allocator refuses a request of the clone, the call fails, the source stays as it is,
and the blocks that are live are those that were, none of them freed twice. -/
def FailsCleanly (A : CpuIo) (al : Allocator A) (copyMappings : Bool) (src : Addr) (m : Memory) :
    Prop :=
  ∀ r m', clonePageDirectory A al src copyMappings m = (r, m') → m'.heap.nulls ≠ m.heap.nulls →
    (∃ e, r = .error e) ∧ (∀ x ∈ A.directory m src, m'.entry x = m.entry x) ∧
      (∀ x, m'.Live x ↔ m.Live x) ∧ m'.heap.doubleFree = m.heap.doubleFree

/-- The last request of the clone has number `k`, and is refused. -/
def RefusedAt (A : CpuIo) (al : Allocator A) (copyMappings : Bool) (src : Addr) (m : Memory)
    (k : ℕ) : Prop :=
  let m' := (clonePageDirectory A al src copyMappings m).2
  m'.heap.nulls ≠ m.heap.nulls ∧ m'.heap.calls = m.heap.calls + k + 1

/-- Nothing leaks if the refused request is for the root, for a child of the root or for a first
child below it: further down, a table is freed on failure without the copies it points to. -/
theorem failsCleanly_iff {src : Addr} (hsrc : A.IsPageTable m (A.pageTableLevels - 1) src)
    (copyMappings : Bool) : FailsCleanly A al copyMappings src m ↔
      ∀ k, RefusedAt A al copyMappings src m k → A.cleanAt m src k := by
  unfold FailsCleanly RefusedAt
  cases hr : clonePageDirectory A al src copyMappings m with
  | mk r m' =>
    obtain ⟨hkeeps, hok, herror⟩ := clonePageDirectory_spec hsrc hr
    cases r with
    | ok dst =>
      obtain ⟨-, -, -, hnulls⟩ := hok dst rfl
      refine iff_of_true ?_ fun k hk => absurd hnulls hk.1
      rintro _ _ ⟨⟩ hne
      exact absurd hnulls hne
    | error e =>
      obtain ⟨k, hnulls, hcalls, hclean⟩ := herror e rfl
      constructor
      · rintro h j ⟨hne, hj⟩
        obtain rfl : k = j := Nat.add_left_cancel (Nat.add_right_cancel (hcalls.symm.trans hj))
        obtain ⟨-, -, hlive, -⟩ := h _ _ rfl hne
        exact hclean.mp fun x => (hlive x).mp
      · rintro h _ _ ⟨⟩ hne
        have hback := hclean.mpr (h k ⟨hne, hcalls⟩)
        exact ⟨⟨e, rfl⟩, fun x hx => hkeeps.entry x (hsrc.live x hx),
          fun x => ⟨hback x, hkeeps.live x⟩, hkeeps.doubleFree⟩

def crowdedRoot (k : ℕ) : Memory where
  entry _ _ := 0
  heap := { live := fun a => a == 4096 || a == (17 + k) * 4096 }

theorem crowdedRoot_builtBy (k : ℕ) : BuiltBy sv39 (bump 16) (crowdedRoot k) [4096] :=
  .zeroed (.start _) (by simp [crowdedRoot, Memory.Live]) (by decide) (fun _ => rfl) (by simp)

/-- A directory of three tables, of which the clone can copy the first two. -/
def crowdedPage : Memory :=
  ((Call.mapPage 0x1000 0x80000000 7).exec sv39 (bump 16) 4096 (crowdedRoot 4)).2

theorem failsCleanly_third : RefusedAt sv39 (bump 16) true 4096 crowdedPage 2 ∧
    FailsCleanly sv39 (bump 16) true 4096 crowdedPage := by
  have hbuilt : BuiltBy sv39 (bump 16) crowdedPage [4096] :=
    (crowdedRoot_builtBy 4).call (.mapPage 0x1000 0x80000000 7) mem_cons_self
  have hcalls : (clonePageDirectory sv39 (bump 16) 4096 true crowdedPage).2.heap.calls = 5 := by
    decide +kernel
  have hbefore : crowdedPage.heap.calls = 2 := by decide +kernel
  refine ⟨⟨by decide +kernel, by rw [hcalls, hbefore]⟩, ?_⟩
  refine (failsCleanly_iff (hbuilt.apart.tree 4096 mem_cons_self) true).mpr ?_
  rintro k ⟨-, hk⟩
  rw [hcalls, hbefore] at hk
  obtain rfl : k = 2 := by omega
  decide +kernel

/-- Two tables of pages under one table: the second of their copies is refused, and the first one
stays allocated. -/
theorem failed_clone_leaks : ¬ ∀ m src, sv39.IsPageTable m (sv39.pageTableLevels - 1) src →
    FailsCleanly sv39 (bump 16) true src m := by
  intro hall
  have hbuilt := ((crowdedRoot_builtBy 6).call (.mapPage 0x1000 0x80000000 7) mem_cons_self).call
    (.mapPage 0x200000 0x80001000 7) mem_cons_self
  obtain ⟨-, -, hlive, -⟩ := hall _ 4096 (hbuilt.apart.tree 4096 mem_cons_self) _ _
    (Prod.eta _).symm (by decide +kernel)
  exact absurd ((hlive (22 * 4096)).mp (by unfold Memory.Live; decide +kernel))
    (by unfold Memory.Live; decide +kernel)

end SimpleKernel.VirtualMemory
