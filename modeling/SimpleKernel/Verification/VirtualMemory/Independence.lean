import SimpleKernel.Verification.VirtualMemory.Clone
import SimpleKernel.Verification.VirtualMemory.Refinement

/-! # A cloned page directory

`ClonePageDirectory` copies every mapping, or none, into tables of its own; later calls on
one of the two directories leave the mappings of the other as they are. -/

namespace SimpleKernel.VirtualMemory

open TableTree

variable {A : CpuIo} {al : Allocator A} {m m' : Memory} {root src dst va : Addr}
  {σ : PageMap A} {copyMappings : Bool} {call : Call} {calls : List Call} {a b : Addr}

variable (A al) in
/-- The word that `FindPageTableEntry` comes to without allocating. -/
def leafEntry (pageDir va : Addr) (m : Memory) : Expected ℕ :=
  (findPageTableEntry A al pageDir va false m).1.map fun p => m.entry p.1 p.2

variable (A al) in
/-- Every virtual address has the same `GetMapping` and the same leaf entry under `root` in
`m'` as under `root` in `m`. -/
def SameMappings (m m' : Memory) (root : Addr) : Prop :=
  ∀ va, (getMapping A al root va m').1 = (getMapping A al root va m).1 ∧
    leafEntry A al root va m' = leafEntry A al root va m

theorem leafEntry_eq (root va : Addr) : leafEntry A al root va m =
    (A.slot m (A.pageTableLevels - 1) root va).elim (.error .vmPageNotMapped)
      fun p => .ok (m.entry p.1 p.2) := by
  unfold leafEntry
  rw [find_lookup]
  cases A.slot m (A.pageTableLevels - 1) root va <;> rfl

theorem getMapping_eq (root va : Addr) : (getMapping A al root va m).1 =
    (leafEntry A al root va m).bind fun pte =>
      (A.target pte).elim (.error .vmPageNotMapped) .ok := by
  unfold getMapping
  rw [find_lookup, leafEntry_eq]
  cases A.slot m (A.pageTableLevels - 1) root va with
  | none => rfl
  | some p =>
    simp only [Option.elim_some, Except.bind]
    split_ifs with hv
    · rw [target_of_valid hv, Option.elim_some]
    · rw [target_of_invalid (by simpa using hv), Option.elim_none]

theorem sameMappings_of_entry (h : ∀ x ∈ A.directory m root, m'.entry x = m.entry x) :
    SameMappings A al m m' root := by
  intro va
  have hleaf : leafEntry A al root va m' = leafEntry A al root va m := by
    rw [leafEntry_eq, leafEntry_eq]
    have hslot : A.slot m' (A.pageTableLevels - 1) root va =
        A.slot m (A.pageTableLevels - 1) root va := slot_congr (A.vpn_lt va) h
    rw [hslot]
    cases hs : A.slot m (A.pageTableLevels - 1) root va with
    | none => rfl
    | some p =>
      simp only [Option.elim_some]
      rw [h p.1 (slot_mem_tables (A.vpn_lt va) hs).1]
  exact ⟨by rw [getMapping_eq, getMapping_eq, hleaf], hleaf⟩

theorem Represents.congr (h : Represents A m root σ)
    (hentry : ∀ x ∈ A.directory m root, m'.entry x = m.entry x)
    (hlive : ∀ x, m.Live x → m'.Live x) : Represents A m' root σ := by
  refine ⟨h.tree.congr hentry fun x hx => hlive x (h.tree.live x hx), h.admissible, fun va => ?_⟩
  rw [← h.mapped va]
  unfold CpuIo.mapped
  have hslot : A.slot m' (A.pageTableLevels - 1) root va =
      A.slot m (A.pageTableLevels - 1) root va := slot_congr (A.vpn_lt va) hentry
  rw [hslot]
  cases hs : A.slot m (A.pageTableLevels - 1) root va with
  | none => rfl
  | some p => simp [hentry p.1 (slot_mem_tables (A.vpn_lt va) hs).1]

/-! ## What a call writes to -/

variable (A) in
def CpuIo.IsWord (pte : ℕ) : Prop := pte = 0 ∨ A.isPageTableEntryValid pte = true

variable (A) in
/-- From `m` to `m'` only the tables of the directory `root` were written to, and new tables
were added to it; every word that was written is one of `IsWord`. -/
structure Updates (m m' : Memory) (root : Addr) : Prop where
  live : ∀ x, m.Live x → m'.Live x
  fresh : ∀ x ∈ A.directory m' root, x ∈ A.directory m root ∨ ¬ m.Live x
  frame : ∀ x, m.Live x → x ∉ A.directory m root → m'.entry x = m.entry x
  words : ∀ x i, m'.Live x → A.IsWord (m'.entry x i) ∨ m.Live x ∧ m'.entry x i = m.entry x i

theorem write_word {pte : ℕ} (hpte : A.IsWord pte) (m : Memory) (t x : Addr) (i j : ℕ) :
    A.IsWord ((m.write t j pte).entry x i) ∨ (m.write t j pte).entry x i = m.entry x i := by
  by_cases hx : x = t
  · subst hx
    by_cases hi : i = j
    · subst hi
      rw [write_entry_self]
      exact .inl hpte
    · exact .inr (write_entry_of_ne_index m _ hi pte)
  · exact .inr (by rw [write_entry_of_ne m hx])

theorem findFrom_words {allocate : Bool} {level : ℕ} {table : Addr} {r : Expected Slot}
    (hr : findFrom A al va allocate level table m = (r, m')) (x : Addr) (i : ℕ) (hl : m'.Live x) :
    A.IsWord (m'.entry x i) ∨ m.Live x ∧ m'.entry x i = m.entry x i := by
  induction level generalizing table m with
  | zero =>
    cases hr
    exact .inr ⟨hl, rfl⟩
  | succ level ih =>
    simp only [findFrom] at hr
    split at hr
    · exact ih hr
    split at hr
    · split at hr
      · rename_i m₁ halloc
        obtain ⟨-, rfl⟩ := alignedAlloc_none halloc
        cases hr
        exact .inr ⟨hl, rfl⟩
      rename_i new m₁ halloc
      obtain ⟨hfresh, hframe, -, rfl⟩ := alignedAlloc_some halloc
      rcases ih hr with hw | ⟨hlive, he⟩
      · exact .inl hw
      rw [he]
      rcases write_word (.inr (A.valid_encode hframe A.permissions_flags)) _ table x i
        (A.getVirtualPageNumber va (level + 1)) with hw | he
      · exact .inl hw
      rw [he]
      by_cases hx : x = new
      · subst hx
        rw [clear_entry_self]
        exact .inl (.inl rfl)
      · rw [clear_entry_of_ne _ hx]
        exact .inr ⟨((take_live_iff m.heap new x).mp hlive).resolve_right hx, rfl⟩
    · cases hr
      exact .inr ⟨hl, rfl⟩

section

variable (al)

theorem exec_cases (h : A.IsPageTable m (A.pageTableLevels - 1) root)
    (call : Call) : ∃ n, (n = m ∨ ∃ va r, findPageTableEntry A al root va true m = (r, n)) ∧
      ((call.exec A al root m).2 = n ∨
        ∃ va p pte, A.slot n (A.pageTableLevels - 1) root va = some p ∧
          (call.exec A al root m).2 = n.write p.1 p.2 pte ∧ (call.Admissible A → A.IsWord pte)) := by
  cases call with
  | mapPage va pa flags =>
    simp only [Call.exec, Prod.map_snd, id, mapPage]
    generalize hfind : findPageTableEntry A al root va true m = find
    obtain ⟨r, n⟩ := find
    obtain ⟨-, hr, -⟩ := findFrom_allocate h hfind
    refine ⟨n, .inr ⟨va, r, hfind⟩, ?_⟩
    rcases hr with ⟨p, rfl, hs, -⟩ | ⟨rfl, -⟩
    · simp only
      split
      · exact .inl rfl
      · exact .inr ⟨va, p, _, hs, rfl, fun hc => .inr (A.valid_encode hc.1 hc.2)⟩
    · exact .inl rfl
  | unmapPage va =>
    simp only [Call.exec, Prod.map_snd, id, unmapPage, find_lookup]
    refine ⟨m, .inl rfl, ?_⟩
    cases hs : A.slot m (A.pageTableLevels - 1) root va with
    | none => exact .inl rfl
    | some p =>
      simp only [Option.elim_some]
      split
      · exact .inr ⟨va, p, 0, hs, rfl, fun _ => .inl rfl⟩
      · exact .inl rfl
  | getMapping va =>
    simp only [Call.exec, Prod.map_snd, id, getMapping, find_lookup]
    refine ⟨m, .inl rfl, .inl ?_⟩
    cases A.slot m (A.pageTableLevels - 1) root va with
    | none => rfl
    | some p =>
      simp only [Option.elim_some]
      split <;> rfl

/-- The directory has only got new tables, and no other live table was written to. -/
structure Extends (A : CpuIo) (m m' : Memory) (root : Addr) : Prop where
  tree : A.IsPageTable m' (A.pageTableLevels - 1) root
  live : ∀ x, m.Live x → m'.Live x
  fresh : ∀ x ∈ A.directory m' root, x ∈ A.directory m root ∨ ¬ m.Live x ∧ x ≠ 0
  frame : ∀ x, m.Live x → x ∉ A.directory m root → m'.entry x = m.entry x

theorem Extends.write (h : Extends A m m' root) {p : Slot}
    (hs : A.slot m' (A.pageTableLevels - 1) root va = some p) (pte : ℕ) :
    Extends A m (m'.write p.1 p.2 pte) root := by
  obtain ⟨hdir, htree⟩ := h.tree.write hs pte
  change A.directory _ root = A.directory _ root at hdir
  refine ⟨htree, h.live, hdir ▸ h.fresh, fun x hl hx => ?_⟩
  rw [write_entry_of_ne, h.frame x hl hx]
  rintro rfl
  exact (h.fresh _ (slot_mem_tables (A.vpn_lt va) hs).1).elim hx fun hn => hn.1 hl

theorem exec_extends (h : A.IsPageTable m (A.pageTableLevels - 1) root)
    (call : Call) : Extends A m (call.exec A al root m).2 root := by
  obtain ⟨n, hn, hexec⟩ := exec_cases al h call
  have hext : Extends A m n root := by
    rcases hn with rfl | ⟨va, r, hfind⟩
    · exact ⟨h, fun _ hx => hx, fun _ hx => .inl hx, fun _ _ _ => rfl⟩
    obtain ⟨hg, -, hnew⟩ := findFrom_allocate h hfind
    exact ⟨hg.tree, hg.mono, fun x hx => (hg.fresh x hx).imp_right fun hn =>
      ⟨hn, (hnew x (hg.tree.live x hx)).resolve_left hn⟩, hg.frame⟩
  rcases hexec with heq | ⟨va, p, pte, hs, heq, -⟩
  · exact heq ▸ hext
  · exact heq ▸ hext.write hs pte

theorem exec_updates (h : A.IsPageTable m (A.pageTableLevels - 1) root) (hc : call.Admissible A) :
    Updates A m (call.exec A al root m).2 root := by
  have hext := exec_extends al h call
  obtain ⟨n, hn, hexec⟩ := exec_cases al h call
  have hwords : ∀ x i, n.Live x →
      A.IsWord (n.entry x i) ∨ m.Live x ∧ n.entry x i = m.entry x i := by
    rcases hn with rfl | ⟨va, r, hfind⟩
    · exact fun _ _ hl => .inr ⟨hl, rfl⟩
    · exact findFrom_words hfind
  refine ⟨hext.live, fun x hx => (hext.fresh x hx).imp_right And.left, hext.frame, ?_⟩
  rcases hexec with heq | ⟨va, p, pte, hs, heq, hpte⟩
  · rwa [heq]
  rw [heq]
  intro x i hl
  rcases write_word (hpte hc) n p.1 x i p.2 with hw | hw
  · exact .inl hw
  · exact hw ▸ hwords x i hl

/-! ## Directories built by calls -/

/-- A page directory that holds a map, and whose words are all zero or valid. -/
structure Directory (A : CpuIo) (m : Memory) (root : Addr) (σ : PageMap A) : Prop
    extends Represents A m root σ where
  words : ∀ x ∈ A.directory m root, ∀ i, A.IsWord (m.entry x i)

theorem Directory.exec (h : Directory A m root σ)
    (hc : call.Admissible A) : ∃ σ', Directory A (call.exec A al root m).2 root σ' := by
  obtain ⟨σ', -, hrep⟩ := exec_refines al h.toRepresents hc
  have hup := exec_updates al h.tree hc
  refine ⟨σ', hrep, fun x hx i => ?_⟩
  rcases hup.words x i (hrep.tree.live x hx) with hw | ⟨hl, he⟩
  · exact hw
  · rw [he]
    exact h.words x ((hup.fresh x hx).resolve_right fun hn => hn hl) i

theorem Directory.execAll (h : Directory A m root σ) (hc : ∀ call ∈ calls, call.Admissible A) :
    ∃ σ', Directory A (execAll A al root calls m).2 root σ' := by
  induction calls generalizing m σ with
  | nil => exact ⟨σ, h⟩
  | cons call calls ih =>
    obtain ⟨σ₁, h₁⟩ := h.exec al (hc call (by simp))
    exact ih h₁ fun c hmem => hc c (by simp [hmem])

theorem directory_zeroed (hlive : m.heap.live root = true) (hzero : ∀ i, m.entry root i = 0) :
    Directory A m root fun _ => none := by
  refine ⟨represents_zeroed hlive hzero, fun x hx i => .inl ?_⟩
  have htables : A.directory m root = [root] :=
    tables_of_empty fun j _ => by rw [hzero j, target_zero]
  rw [htables, List.mem_singleton] at hx
  rw [hx, hzero]

/-! ## The copy -/

theorem leafEntry_of_isCopy (hwords : ∀ x ∈ A.directory m src, ∀ i, A.IsWord (m.entry x i))
    (h : A.IsCopy true m m' (A.pageTableLevels - 1) src dst) (va : Addr) :
    leafEntry A al dst va m' = leafEntry A al src va m := by
  rw [leafEntry_eq, leafEntry_eq]
  have hrel := h.slot (A.vpn_lt va)
  change Option.Rel _ (A.slot m (A.pageTableLevels - 1) src va)
    (A.slot m' (A.pageTableLevels - 1) dst va) at hrel
  cases hs : A.slot m (A.pageTableLevels - 1) src va <;>
    cases hd : A.slot m' (A.pageTableLevels - 1) dst va <;> rw [hs, hd] at hrel <;> cases hrel
  case none.none => rfl
  case some.some.some p q hword =>
    simp only [Option.elim_some]
    rw [hword]
    rcases hwords p.1 (slot_mem_tables (A.vpn_lt va) hs).1 p.2 with hz | hv
    · simp [hz]
    · simp [hv]

end

def PageMap.copied (σ : PageMap A) (copyMappings : Bool) : PageMap A :=
  if copyMappings then σ else fun _ => none

theorem mapped_of_isCopy (h : A.IsCopy copyMappings m m' (A.pageTableLevels - 1) src dst) (va : Addr) :
    A.mapped m' dst va = if copyMappings then A.mapped m src va else none := by
  unfold CpuIo.mapped
  have hrel := h.slot (A.vpn_lt va)
  change Option.Rel _ (A.slot m (A.pageTableLevels - 1) src va)
    (A.slot m' (A.pageTableLevels - 1) dst va) at hrel
  cases hs : A.slot m (A.pageTableLevels - 1) src va <;>
    cases hd : A.slot m' (A.pageTableLevels - 1) dst va <;> rw [hs, hd] at hrel <;> cases hrel
  case none.none => simp
  case some.some.some p q hword =>
    simp only [Option.bind_some, hword]
    cases copyMappings with
    | false => simp [A.zero_invalid]
    | true =>
      cases hv : A.isPageTableEntryValid (m.entry p.1 p.2) with
      | false => simp [hv, A.zero_invalid]
      | true => simp [hv]

theorem represents_of_isCopy (hsrc : Represents A m src σ)
    (htree : A.IsPageTable m' (A.pageTableLevels - 1) dst)
    (h : A.IsCopy copyMappings m m' (A.pageTableLevels - 1) src dst) :
    Represents A m' dst (σ.copied copyMappings) := by
  refine ⟨htree, ?_, fun va => ?_⟩
  · intro n pa flags hn
    cases copyMappings with
    | false => cases hn
    | true => exact hsrc.admissible hn
  · rw [mapped_of_isCopy h va]
    cases copyMappings with
    | false => rfl
    | true => exact hsrc.mapped va

theorem getMapping_of_represents (h : Represents A m root fun _ => none) (va : Addr) :
    (getMapping A al root va m).1 = .error .vmPageNotMapped := by
  obtain ⟨hstep, -⟩ := getMapping_refines al va h false
  generalize (getMapping A al root va m).1 = r at hstep
  cases hstep with
  | get mapped => cases mapped
  | getFailed => rfl

/-! ## Two directories without a common table -/

variable (A) in
structure Separate (m : Memory) (a b : Addr) : Prop where
  left : ∃ σ : PageMap A, Represents A m a σ
  right : ∃ σ : PageMap A, Represents A m b σ
  disjoint : List.Disjoint (A.directory m a) (A.directory m b)

theorem Separate.symm (h : Separate A m a b) : Separate A m b a :=
  ⟨h.right, h.left, h.disjoint.symm⟩

theorem Separate.exec (al : Allocator A) (h : Separate A m a b)
    (hc : call.Admissible A) : Separate A (call.exec A al a m).2 a b ∧
      ∀ x ∈ A.directory m b, (call.exec A al a m).2.entry x = m.entry x := by
  obtain ⟨σ, hσ⟩ := h.left
  obtain ⟨τ, hτ⟩ := h.right
  obtain ⟨σ', -, hrep⟩ := exec_refines al hσ hc
  have hup := exec_updates al hσ.tree hc
  have hsame : ∀ x ∈ A.directory m b, (call.exec A al a m).2.entry x = m.entry x :=
    fun x hx => hup.frame x (hτ.tree.live x hx) fun hxa => h.disjoint hxa hx
  have htables : A.directory (call.exec A al a m).2 b = A.directory m b := tables_congr hsame
  refine ⟨⟨⟨σ', hrep⟩, ⟨τ, hτ.congr hsame hup.live⟩, ?_⟩, hsame⟩
  rw [htables]
  intro x hxa hxb
  rcases hup.fresh x hxa with hx | hx
  · exact h.disjoint hx hxb
  · exact hx (hτ.tree.live x hxb)

theorem Separate.execAll (al : Allocator A) (h : Separate A m a b)
    (hc : ∀ call ∈ calls, call.Admissible A) :
    ∀ x ∈ A.directory m b, (VirtualMemory.execAll A al a calls m).2.entry x = m.entry x := by
  induction calls generalizing m with
  | nil => exact fun _ _ => rfl
  | cons call calls ih =>
    obtain ⟨h₁, he₁⟩ := h.exec al (hc call (by simp))
    have he₂ := ih h₁ fun c hmem => hc c (by simp [hmem])
    intro x hx
    have htables : A.directory (call.exec A al a m).2 b = A.directory m b := tables_congr he₁
    exact (he₂ x (htables ▸ hx)).trans (he₁ x hx)

variable (A al) in
/-- Calls on two directories in any order; the flag says which calls are on the second. -/
def execBoth (a b : Addr) : List (Bool × Call) → Memory → Memory
  | [], m => m
  | (second, call) :: calls, m => execBoth a b calls (call.exec A al (if second then b else a) m).2

theorem Separate.execBoth (al : Allocator A) (h : Separate A m a b)
    {calls : List (Bool × Call)} (hc : ∀ call ∈ calls, call.2.Admissible A) :
    Separate A (execBoth A al a b calls m) a b := by
  induction calls generalizing m with
  | nil => exact h
  | cons call calls ih =>
    obtain ⟨second, call⟩ := call
    have hcall : call.Admissible A := hc (second, call) (by simp)
    have hrest : ∀ c ∈ calls, c.2.Admissible A := fun c hmem => hc c (by simp [hmem])
    cases second with
    | false => exact ih (h.exec al hcall).1 hrest
    | true => exact ih (h.symm.exec al hcall).1.symm hrest

/-- The copy of a page directory that calls have built from a zeroed root: it maps what the
source maps, or nothing; the source keeps its words; and after any calls on the two, further
calls on one of them keep every mapping of the other. -/
theorem clonePageDirectory_independent (al : Allocator A) (hlive : m.heap.live root = true)
    (hzero : ∀ i, m.entry root i = 0) (calls : List Call) (hc : ∀ call ∈ calls, call.Admissible A)
    {n : Memory} (hn : (execAll A al root calls m).2 = n)
    (hr : clonePageDirectory A al root copyMappings n = (.ok dst, m')) :
    (copyMappings = true → ∀ va, (getMapping A al dst va m').1 = (getMapping A al root va n).1 ∧
      leafEntry A al dst va m' = leafEntry A al root va n) ∧
    (copyMappings = false → ∀ va, (getMapping A al dst va m').1 = .error .vmPageNotMapped) ∧
    ((∀ x ∈ A.directory n root, m'.entry x = n.entry x) ∧ SameMappings A al n m' root) ∧
    List.Disjoint (A.directory m' root) (A.directory m' dst) ∧
    ∀ earlier : List (Bool × Call), (∀ call ∈ earlier, call.2.Admissible A) →
      ∀ later : List Call, (∀ call ∈ later, call.Admissible A) →
      ∀ k, execBoth A al root dst earlier m' = k →
        SameMappings A al k (execAll A al root later k).2 dst ∧
        SameMappings A al k (execAll A al dst later k).2 root := by
  obtain ⟨σ, hσ⟩ := (directory_zeroed (A := A) hlive hzero).execAll al hc
  rw [hn] at hσ
  obtain ⟨hkeeps, hok, -⟩ := clonePageDirectory_spec hσ.tree hr
  obtain ⟨htree, hfresh, hcopy, -⟩ := hok dst rfl
  have hsource : ∀ x ∈ A.directory n root, m'.entry x = n.entry x :=
    fun x hx => hkeeps.entry x (hσ.tree.live x hx)
  have htables : A.directory m' root = A.directory n root := tables_congr hsource
  have hdisjoint : List.Disjoint (A.directory m' root) (A.directory m' dst) := by
    intro x hx hd
    rw [htables] at hx
    exact (hfresh x hd).1 (hσ.tree.live x hx)
  have hdst := represents_of_isCopy hσ.toRepresents htree hcopy
  refine ⟨?_, ?_, ⟨hsource, sameMappings_of_entry hsource⟩, hdisjoint, ?_⟩
  · rintro rfl va
    have hleaf := leafEntry_of_isCopy al hσ.words hcopy va
    exact ⟨by rw [getMapping_eq, getMapping_eq, hleaf], hleaf⟩
  · rintro rfl va
    exact getMapping_of_represents hdst va
  · intro earlier hearlier later hlater k hk
    have hroot : Represents A m' root σ := hσ.toRepresents.congr hsource hkeeps.live
    have hsep : Separate A k root dst :=
      hk ▸ Separate.execBoth al ⟨⟨σ, hroot⟩, ⟨_, hdst⟩, hdisjoint⟩ hearlier
    exact ⟨sameMappings_of_entry (hsep.execAll al hlater),
      sameMappings_of_entry (hsep.symm.execAll al hlater)⟩

/-- A page that stays mapped and one that is unmapped again. -/
def onePage : Memory :=
  (execAll sv39 (bump 16) 4096
    [.mapPage 0x1000 0x80000000 7, .mapPage 0x2000 0x80001000 7, .unmapPage 0x2000]
    (zeroedRoot 4096)).2

/-- The copy of a directory keeps a page that is unmapped in the source afterwards. -/
theorem clonePageDirectory_independent_unmapped :
    (getMapping sv39 (bump 16) 0x13000 0x1000
      (clonePageDirectory sv39 (bump 16) 4096 true onePage).2).1 = .ok 0x80000000 ∧
    (getMapping sv39 (bump 16) 0x13000 0x1000 (execAll sv39 (bump 16) 4096 [.unmapPage 0x1000]
      (clonePageDirectory sv39 (bump 16) 4096 true onePage).2).2).1 = .ok 0x80000000 := by
  have hok : (clonePageDirectory sv39 (bump 16) 4096 true onePage).1 = .ok 0x13000 := by
    decide +kernel
  have hlive : (zeroedRoot 4096).heap.live 4096 = true := by decide
  generalize hclone : clonePageDirectory sv39 (bump 16) 4096 true onePage = copy at hok ⊢
  obtain ⟨dst, m'⟩ := copy
  obtain rfl : dst = .ok 0x13000 := hok
  have hcopy := clonePageDirectory_independent (bump 16) hlive (fun _ => rfl)
    [.mapPage 0x1000 0x80000000 7, .mapPage 0x2000 0x80001000 7, .unmapPage 0x2000]
    (by simp [Call.Admissible, sv39]) (n := onePage) rfl hclone
  obtain ⟨hsame, -, -, -, hlater⟩ := hcopy
  have hmapped : (getMapping sv39 (bump 16) 4096 0x1000 onePage).1 = .ok 0x80000000 := by
    decide +kernel
  have hdst := (hsame rfl 0x1000).1.trans hmapped
  have hkept := (hlater [] (by simp) [.unmapPage 0x1000] (by simp [Call.Admissible]) _ rfl).1 0x1000
  exact ⟨hdst, hkept.1.trans hdst⟩

end SimpleKernel.VirtualMemory
