import Mathlib.Data.Fintype.Basic
import SimpleKernel.Verification.VirtualMemory.Walk

/-! # The page table is a partial map

`MapPage`, `UnmapPage` and `GetMapping` on one page directory, in any sequence, behave as
the updates and the lookup of a map from virtual page numbers to physical pages. -/

namespace SimpleKernel.VirtualMemory

open Function TableTree

abbrev CpuIo.PageNumber (A : CpuIo) := Fin A.pageTableLevels → ℕ

def CpuIo.page (A : CpuIo) (va : Addr) : A.PageNumber := fun level => A.getVirtualPageNumber va level

/-! ## The abstract map -/

/-- A partial map from virtual page numbers to physical pages and their flags. -/
abbrev PageMap (A : CpuIo) := A.PageNumber → Option (Addr × ℕ)

inductive Call where
  | mapPage (va pa : Addr) (flags : ℕ)
  | unmapPage (va : Addr)
  | getMapping (va : Addr)
  deriving DecidableEq, Repr

inductive Result where
  | done (r : Expected Unit)
  | address (r : Expected Addr)
  deriving DecidableEq

/-- A call, whether `aligned_alloc` has returned a null pointer in it, and its answer. -/
structure Event where
  call : Call
  refused : Bool
  result : Result
  deriving DecidableEq

/-- What a call may answer, and what it makes of the map. `MapPage` fails if and only if there is no
memory for a table. -/
inductive PageMap.Step {A : CpuIo} (σ : PageMap A) : Event → PageMap A → Prop where
  | map (va pa : Addr) (flags : ℕ) : Step σ ⟨.mapPage va pa flags, false, .done (.ok ())⟩
      (update σ (A.page va) (some (pa, flags)))
  | mapFailed (va pa : Addr) (flags : ℕ) :
      Step σ ⟨.mapPage va pa flags, true, .done (.error .vmMapFailed)⟩ σ
  | unmap {va : Addr} {e : Addr × ℕ} {b} (mapped : σ (A.page va) = some e) :
      Step σ ⟨.unmapPage va, b, .done (.ok ())⟩ (update σ (A.page va) none)
  | unmapFailed {va : Addr} {b} (unmapped : σ (A.page va) = none) :
      Step σ ⟨.unmapPage va, b, .done (.error .vmPageNotMapped)⟩ σ
  | get {va pa : Addr} {flags : ℕ} {b} (mapped : σ (A.page va) = some (pa, flags)) :
      Step σ ⟨.getMapping va, b, .address (.ok pa)⟩ σ
  | getFailed {va : Addr} {b} (unmapped : σ (A.page va) = none) :
      Step σ ⟨.getMapping va, b, .address (.error .vmPageNotMapped)⟩ σ

inductive PageMap.Run {A : CpuIo} : PageMap A → List Event → PageMap A → Prop where
  | nil (σ) : Run σ [] σ
  | cons {σ σ' σ'' e rest} : PageMap.Step σ e σ' → Run σ' rest σ'' → Run σ (e :: rest) σ''

/-! ## The calls on a page directory -/

variable {A : CpuIo} {al : Allocator A} {m m' : Memory} {root va : Addr} {σ : PageMap A} {p : Slot}
  {flags : ℕ}

variable (A al) in
def Call.exec (pageDir : Addr) (m : Memory) (call : Call) : Result × Memory :=
  match call with
  | .mapPage va pa flags => (VirtualMemory.mapPage A al pageDir va pa flags m).map .done id
  | .unmapPage va => (VirtualMemory.unmapPage A al pageDir va m).map .done id
  | .getMapping va => (VirtualMemory.getMapping A al pageDir va m).map .address id

variable (A al) in
def execAll (pageDir : Addr) : List Call → Memory → List Event × Memory
  | [], m => ([], m)
  | call :: calls, m =>
    let (result, m') := call.exec A al pageDir m
    let (events, m'') := execAll pageDir calls m'
    (⟨call, m'.heap.nulls ≠ m.heap.nulls, result⟩ :: events, m'')

variable (A) in
/-- Physical pages inside the address field, and flags with the valid bit. -/
def Call.Admissible : Call → Prop
  | .mapPage _ pa flags => A.IsFrame pa ∧ A.IsFlags flags
  | .unmapPage _ => True
  | .getMapping _ => True

def CpuIo.mapped (A : CpuIo) (m : Memory) (root va : Addr) : Option ℕ :=
  (A.slot m (A.pageTableLevels - 1) root va).bind fun p =>
    if A.isPageTableEntryValid (m.entry p.1 p.2) then some (m.entry p.1 p.2) else none

def CpuIo.lookup (A : CpuIo) (m : Memory) (root va : Addr) : Option (Addr × ℕ) :=
  (A.mapped m root va).map fun pte =>
    (A.pageTableEntryToPhysical pte, pte % 2 ^ A.pteAttributeBits)

/-- The page directory `root` holds the map `σ`. -/
structure Represents (A : CpuIo) (m : Memory) (root : Addr) (σ : PageMap A) : Prop where
  tree : A.IsPageTable m (A.pageTableLevels - 1) root
  admissible : ∀ {n pa flags}, σ n = some (pa, flags) → A.IsFrame pa ∧ A.IsFlags flags
  mapped : ∀ va, A.mapped m root va =
    (σ (A.page va)).map fun e => A.physicalToPageTableEntry e.1 e.2

theorem Represents.lookup_eq (h : Represents A m root σ) (va : Addr) :
    A.lookup m root va = σ (A.page va) := by
  unfold CpuIo.lookup
  rw [h.mapped va]
  cases hσ : σ (A.page va) with
  | none => rfl
  | some e =>
    obtain ⟨hpa, hf⟩ := h.admissible hσ
    simp [A.physical_encode hpa hf, A.flags_encode hpa hf]

theorem mapped_of_grows (hg : Grows A.target A.entriesPerTable m.Live m'.Live m.entry m'.entry
    (A.pageTableLevels - 1) root) (va : Addr) : A.mapped m' root va = A.mapped m root va := by
  unfold CpuIo.mapped CpuIo.slot
  cases hs : TableTree.slot A.target (A.getVirtualPageNumber va) m.entry (A.pageTableLevels - 1) root with
  | some p =>
    obtain ⟨hs', hv⟩ := hg.slots _ (A.vpn_lt va) p hs
    simp [hs', hv]
  | none =>
    cases hs' : TableTree.slot A.target (A.getVirtualPageNumber va) m'.entry
        (A.pageTableLevels - 1) root with
    | none => rfl
    | some p =>
      have hinv := target_eq_none_iff.mp (hg.empty _ (A.vpn_lt va) p hs hs')
      simp [hinv]

theorem slot_eq_iff (h : A.IsPageTable m (A.pageTableLevels - 1) root) {va va' : Addr}
    (hs : A.slot m (A.pageTableLevels - 1) root va = some p) :
    A.slot m (A.pageTableLevels - 1) root va' = some p ↔ A.page va' = A.page va := by
  have hpos := A.levels_pos
  constructor
  · intro hs'
    funext k
    exact slot_injective h.nodup (A.vpn_lt va') (A.vpn_lt va) hs' hs k (by omega)
  · intro hp
    rw [← hs]
    refine slot_key_congr fun k hk => ?_
    exact congrFun hp ⟨k, by omega⟩

theorem CpuIo.IsPageTable.write (h : A.IsPageTable m (A.pageTableLevels - 1) root)
    (hs : A.slot m (A.pageTableLevels - 1) root va = some p) (pte : ℕ) :
    TableTree.tables A.target A.entriesPerTable (m.write p.1 p.2 pte).entry
          (A.pageTableLevels - 1) root =
        TableTree.tables A.target A.entriesPerTable m.entry (A.pageTableLevels - 1) root ∧
      A.IsPageTable (m.write p.1 p.2 pte) (A.pageTableLevels - 1) root := by
  have htables := (write_slot h.nodup (A.vpn_lt va) hs fun x hx => write_entry_of_ne m hx p.2 pte).1
  exact ⟨htables, ⟨htables ▸ h.nodup, htables ▸ h.live⟩⟩

theorem Represents.write (h : Represents A m root σ)
    (hs : A.slot m (A.pageTableLevels - 1) root va = some p) (pte : ℕ) {e : Option (Addr × ℕ)}
    (hadm : ∀ {pa flags}, e = some (pa, flags) → A.IsFrame pa ∧ A.IsFlags flags)
    (hpte : (if A.isPageTableEntryValid pte then some pte else none) =
      e.map fun e => A.physicalToPageTableEntry e.1 e.2) :
    Represents A (m.write p.1 p.2 pte) root (update σ (A.page va) e) := by
  have hmem : ∀ x, x ≠ p.1 → (m.write p.1 p.2 pte).entry x = m.entry x :=
    fun x hx => write_entry_of_ne m hx _ _
  have hslot : ∀ va', A.slot (m.write p.1 p.2 pte) (A.pageTableLevels - 1) root va' =
      A.slot m (A.pageTableLevels - 1) root va' :=
    fun va' => (write_slot h.tree.nodup (A.vpn_lt va) hs hmem).2 _ (A.vpn_lt va')
  refine ⟨(h.tree.write hs pte).2, ?_, ?_⟩
  · intro n pa flags hn
    by_cases hpage : n = A.page va
    · subst hpage
      rw [update_self] at hn
      exact hadm hn
    · rw [update_of_ne hpage] at hn
      exact h.admissible hn
  · intro va'
    by_cases hpage : A.page va' = A.page va
    · rw [hpage, update_self, ← hpte]
      simp [CpuIo.mapped, hslot, (slot_eq_iff h.tree hs).mpr hpage, write_entry_self]
    rw [update_of_ne hpage, ← h.mapped va']
    simp only [CpuIo.mapped, hslot]
    cases hs' : A.slot m (A.pageTableLevels - 1) root va' with
    | none => rfl
    | some q =>
      have hne : q ≠ p := by
        rintro rfl
        exact hpage ((slot_eq_iff h.tree hs).mp hs')
      have hword : (m.write p.1 p.2 pte).entry q.1 q.2 = m.entry q.1 q.2 := by
        by_cases h1 : q.1 = p.1
        · have h2 : q.2 ≠ p.2 := fun h2 => hne (Prod.ext h1 h2)
          rw [h1, write_entry_of_ne_index m _ h2]
        · rw [hmem q.1 h1]
      simp [hword]

/-! ## Each call refines a step of the map -/

theorem find_lookup (pageDir va : Addr) : findPageTableEntry A al pageDir va false m =
    ((A.slot m (A.pageTableLevels - 1) pageDir va).elim (.error .vmPageNotMapped) .ok, m) :=
  findFrom_lookup

theorem mapPage_cases (h : Represents A m root σ) {pa : ℕ} (hpa : A.IsFrame pa)
    (hf : A.IsFlags flags) {r : Expected Unit} (hr : mapPage A al root va pa flags m = (r, m')) :
    (r = .ok () ∧ Represents A m' root (update σ (A.page va) (some (pa, flags))) ∧
        m'.heap.nulls = m.heap.nulls) ∨
      (r = .error .vmMapFailed ∧ Represents A m' root σ ∧ m'.heap.nulls = m.heap.nulls + 1) := by
  unfold mapPage at hr
  generalize hfind : findPageTableEntry A al root va true m = find at hr
  obtain ⟨r, m₁⟩ := find
  obtain ⟨hg, hres, -⟩ := findFrom_allocate h.tree hfind
  have hm₁ : Represents A m₁ root σ :=
    ⟨hg.tree, h.admissible, fun va => (mapped_of_grows hg va).trans (h.mapped va)⟩
  rcases hres with ⟨p, rfl, hs, hnulls⟩ | ⟨rfl, hnulls⟩
  · simp only at hr
    split_ifs at hr with hdup
    · cases hr
      obtain ⟨hv, rfl, rfl⟩ := hdup
      refine .inl ⟨rfl, ?_, hnulls⟩
      have hmap := hm₁.mapped va
      simp only [CpuIo.mapped, hs, Option.bind_some, if_pos hv] at hmap
      obtain ⟨⟨pa₀, flags₀⟩, hσ, hpte⟩ := Option.map_eq_some_iff.mp hmap.symm
      obtain ⟨hpa₀, hf₀⟩ := hm₁.admissible hσ
      rw [← hpte, A.physical_encode hpa₀ hf₀, A.flags_encode hpa₀ hf₀, ← hσ, update_eq_self]
      exact hm₁
    cases hr
    refine .inl ⟨rfl, hm₁.write hs _ ?_ (by simp [A.valid_encode hpa hf]), hnulls⟩
    intro pa' flags' he
    cases he
    exact ⟨hpa, hf⟩
  · cases hr
    exact .inr ⟨rfl, hm₁, hnulls⟩

theorem unmapPage_refines (h : Represents A m root σ) (b : Bool) :
    ∃ σ', σ.Step ⟨.unmapPage va, b, .done (unmapPage A al root va m).1⟩ σ' ∧
      Represents A (unmapPage A al root va m).2 root σ' := by
  have hmap := h.mapped va
  unfold unmapPage
  rw [find_lookup]
  cases hs : A.slot m (A.pageTableLevels - 1) root va with
  | none =>
    simp only [CpuIo.mapped, hs, Option.bind_none] at hmap
    exact ⟨σ, .unmapFailed (Option.map_eq_none_iff.mp hmap.symm), h⟩
  | some p =>
    simp only [CpuIo.mapped, hs, Option.bind_some] at hmap
    simp only [Option.elim_some]
    split_ifs with hv
    · rw [if_pos hv] at hmap
      obtain ⟨e, hσ, -⟩ := Option.map_eq_some_iff.mp hmap.symm
      refine ⟨_, .unmap hσ, h.write hs 0 ?_ (by simp [A.zero_invalid])⟩
      intro pa flags he
      cases he
    · rw [if_neg hv] at hmap
      exact ⟨σ, .unmapFailed (Option.map_eq_none_iff.mp hmap.symm), h⟩

theorem getMapping_refines (al : Allocator A) (va : Addr) (h : Represents A m root σ) (b : Bool) :
    σ.Step ⟨.getMapping va, b, .address (getMapping A al root va m).1⟩ σ ∧
      (getMapping A al root va m).2 = m := by
  have hmap := h.mapped va
  unfold getMapping
  rw [find_lookup]
  cases hs : A.slot m (A.pageTableLevels - 1) root va with
  | none =>
    simp only [CpuIo.mapped, hs, Option.bind_none] at hmap
    exact ⟨.getFailed (Option.map_eq_none_iff.mp hmap.symm), rfl⟩
  | some p =>
    simp only [CpuIo.mapped, hs, Option.bind_some] at hmap
    simp only [Option.elim_some]
    split_ifs with hv
    · rw [if_pos hv] at hmap
      obtain ⟨⟨pa, flags⟩, hσ, hpte⟩ := Option.map_eq_some_iff.mp hmap.symm
      obtain ⟨hpa, hf⟩ := h.admissible hσ
      rw [← hpte, A.physical_encode hpa hf]
      exact ⟨.get hσ, rfl⟩
    · rw [if_neg hv] at hmap
      exact ⟨.getFailed (Option.map_eq_none_iff.mp hmap.symm), rfl⟩

theorem exec_refines (al : Allocator A) (h : Represents A m root σ) {call : Call}
    (hc : call.Admissible A) :
    ∃ σ', σ.Step ⟨call, (call.exec A al root m).2.heap.nulls ≠ m.heap.nulls,
        (call.exec A al root m).1⟩ σ' ∧ Represents A (call.exec A al root m).2 root σ' := by
  cases call with
  | mapPage va pa flags =>
    rcases hr : VirtualMemory.mapPage A al root va pa flags m with ⟨r, m'⟩
    have hexec : (Call.mapPage va pa flags).exec A al root m = (.done r, m') := by
      simp [Call.exec, hr]
    rw [hexec]
    obtain ⟨rfl, hm', hnulls⟩ | ⟨rfl, hm', hnulls⟩ := mapPage_cases h hc.1 hc.2 hr
    · refine ⟨_, ?_, hm'⟩
      rw [decide_eq_false (not_not.mpr hnulls)]
      exact .map va pa flags
    · refine ⟨_, ?_, hm'⟩
      rw [decide_eq_true (hnulls ▸ Nat.succ_ne_self _)]
      exact .mapFailed va pa flags
  | unmapPage va => exact unmapPage_refines h _
  | getMapping va =>
    obtain ⟨hstep, hm⟩ := getMapping_refines al va h _
    refine ⟨σ, hstep, ?_⟩
    simp only [Call.exec, Prod.map_snd, id, hm]
    exact h

theorem execAll_refines (al : Allocator A) (h : Represents A m root σ) {calls : List Call}
    (hc : ∀ call ∈ calls, call.Admissible A) :
    ∃ σ', PageMap.Run σ (execAll A al root calls m).1 σ' ∧
      Represents A (execAll A al root calls m).2 root σ' := by
  induction calls generalizing m σ with
  | nil => exact ⟨σ, .nil σ, h⟩
  | cons call calls ih =>
    obtain ⟨σ₁, hstep, h₁⟩ := exec_refines al h (hc call (by simp))
    obtain ⟨σ₂, hrun, h₂⟩ := ih h₁ fun c hmem => hc c (by simp [hmem])
    exact ⟨σ₂, .cons hstep hrun, h₂⟩

theorem represents_zeroed (hlive : m.heap.live root = true) (hzero : ∀ i, m.entry root i = 0) :
    Represents A m root fun _ => none := by
  have htarget : ∀ i < A.entriesPerTable, A.target (m.entry root i) = none := by
    intro i _
    rw [hzero i, target_zero]
  have htables : tables A.target A.entriesPerTable m.entry (A.pageTableLevels - 1) root = [root] :=
    tables_of_empty htarget
  refine ⟨⟨?_, ?_⟩, nofun, fun va => ?_⟩
  · rw [htables]; simp
  · intro x hx
    rw [htables, List.mem_singleton] at hx
    exact hx ▸ hlive
  · cases hs : A.slot m (A.pageTableLevels - 1) root va with
    | none => simp [CpuIo.mapped, hs]
    | some p =>
      have hinv := target_eq_none_iff.mp (slot_of_empty (A.vpn_lt va) htarget hs)
      simp [CpuIo.mapped, hs, hinv]

/-- From a zeroed root, every sequence of calls answers as the map does, and at its end
the page directory holds the map's pages and flags. -/
theorem pageTable_refines (al : Allocator A) (hlive : m.heap.live root = true)
    (hzero : ∀ i, m.entry root i = 0) (calls : List Call) (hc : ∀ call ∈ calls, call.Admissible A) :
    ∃ σ : PageMap A, PageMap.Run (fun _ => none) (execAll A al root calls m).1 σ ∧
      ∀ va, A.lookup (execAll A al root calls m).2 root va = σ (A.page va) := by
  obtain ⟨σ, hrun, h⟩ := execAll_refines al (represents_zeroed hlive hzero) hc
  exact ⟨σ, hrun, h.lookup_eq⟩

theorem sv39_decode {pa : ℕ} (halign : pa % 4096 = 0) (hflags : flags < 1024) :
    (pa / 4096 * 1024 + flags) / 1024 * 4096 = pa ∧ (pa / 4096 * 1024 + flags) % 1024 = flags := by
  omega

/-- Sv39: three levels of 512 entries, the page number above ten attribute bits. -/
def sv39 : CpuIo where
  pageTableLevels := 3
  entriesPerTable := 512
  pteAttributeBits := 10
  isPageTableEntryValid pte := pte % 2 = 1
  pageTableEntryToPhysical pte := pte / 1024 * 4096
  physicalToPageTableEntry pa flags := pa / 4096 * 1024 + flags
  getVirtualPageNumber va level := va / 2 ^ (12 + 9 * level) % 512
  getTableEntryPermissions := 1
  IsFrame pa := pa % 4096 = 0 ∧ pa < 2 ^ 56
  IsFlags flags := flags < 1024 ∧ flags % 2 = 1
  levels_pos := by decide
  zero_invalid := by decide
  vpn_lt va level := Nat.mod_lt _ (by decide)
  permissions_flags := by decide
  valid_encode := by
    rintro pa flags - ⟨-, hodd⟩
    rw [decide_eq_true_eq]
    omega
  physical_encode := by
    rintro pa flags ⟨halign, -⟩ ⟨hflags, -⟩
    exact (sv39_decode halign hflags).1
  flags_encode := by
    rintro pa flags ⟨halign, -⟩ ⟨hflags, -⟩
    exact (sv39_decode halign hflags).2

/-- An allocator that goes through the pages from a base upwards. -/
def bump (base : ℕ) : Allocator sv39 where
  alignedAlloc h :=
    let a := (base + h.calls + 1) * 4096
    if h.live a = false ∧ a < 2 ^ 56 then some a else none
  fresh := by
    intro m a h
    simp only [Option.ite_none_right_eq_some, Option.some.injEq] at h
    exact h.2 ▸ h.1.1
  isFrame := by
    intro m a h
    simp only [Option.ite_none_right_eq_some, Option.some.injEq] at h
    obtain ⟨⟨-, hlt⟩, rfl⟩ := h
    exact ⟨Nat.mul_mod_left _ _, hlt⟩
  ne_null := by
    intro m a h
    simp only [Option.ite_none_right_eq_some, Option.some.injEq] at h
    obtain ⟨-, rfl⟩ := h
    exact Nat.mul_ne_zero (Nat.succ_ne_zero _) (by decide)

def zeroedRoot (root : Addr) : Memory where
  entry _ _ := 0
  heap := { live := fun a => a == root }

/-- Two pages under one table; one of them is remapped and then unmapped. -/
def remapping : List Call :=
  [.mapPage 0x1000 0x80000000 7, .mapPage 0x2000 0x80001000 7, .mapPage 0x1000 0x80002000 3,
    .getMapping 0x1234, .unmapPage 0x1000, .getMapping 0x1000, .getMapping 0x2000]

theorem pageTable_refines_remapped : ∃ σ : PageMap sv39,
    PageMap.Run (fun _ => none) (execAll sv39 (bump 16) 4096 remapping (zeroedRoot 4096)).1 σ ∧
      σ (sv39.page 0x2000) = some (0x80001000, 7) ∧
      (execAll sv39 (bump 16) 4096 remapping (zeroedRoot 4096)).1.map (·.result) =
        [.done (.ok ()), .done (.ok ()), .done (.ok ()), .address (.ok 0x80002000), .done (.ok ()),
          .address (.error .vmPageNotMapped), .address (.ok 0x80001000)] := by
  have hlive : (zeroedRoot 4096).heap.live 4096 = true := by decide
  obtain ⟨σ, hrun, hlookup⟩ := pageTable_refines (bump 16) hlive (fun _ => rfl) remapping
    (by simp [remapping, Call.Admissible, sv39])
  refine ⟨σ, hrun, ?_, by decide⟩
  rw [← hlookup]
  decide

end SimpleKernel.VirtualMemory
