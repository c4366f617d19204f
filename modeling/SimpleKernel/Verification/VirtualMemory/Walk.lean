import SimpleKernel.Model.VirtualMemory
import SimpleKernel.Shared.TableTree

/-! The walk of `FindPageTableEntry` through a tree of page tables. -/

namespace SimpleKernel.VirtualMemory

open TableTree

variable {A : CpuIo} {al : Allocator A} {m : Memory} {level : ℕ} {table va : Addr} {pte : ℕ}
  {m' m₁ : Memory}

def CpuIo.target (A : CpuIo) (pte : ℕ) : Option Addr :=
  if A.isPageTableEntryValid pte then some (A.pageTableEntryToPhysical pte) else none

def Memory.Live (m : Memory) (a : Addr) : Prop := m.heap.live a = true

/-- The entry that `va` leads to from a table of the given level. -/
def CpuIo.slot (A : CpuIo) (m : Memory) (level : ℕ) (table va : Addr) : Option Slot :=
  TableTree.slot A.target (A.getVirtualPageNumber va) m.entry level table

def CpuIo.IsPageTable (A : CpuIo) (m : Memory) (level : ℕ) (table : Addr) : Prop :=
  IsTree A.target A.entriesPerTable m.Live m.entry level table

@[simp] theorem target_zero : A.target 0 = none := by
  simp [CpuIo.target, A.zero_invalid]

theorem target_encode {pa flags : ℕ} (hpa : A.IsFrame pa) (hf : A.IsFlags flags) :
    A.target (A.physicalToPageTableEntry pa flags) = some pa := by
  simp [CpuIo.target, A.valid_encode hpa hf, A.physical_encode hpa hf]

theorem target_of_valid (h : A.isPageTableEntryValid pte = true) :
    A.target pte = some (A.pageTableEntryToPhysical pte) := by
  simp [CpuIo.target, h]

theorem target_of_invalid (h : A.isPageTableEntryValid pte = false) : A.target pte = none := by
  simp [CpuIo.target, h]

theorem target_eq_none_iff : A.target pte = none ↔ A.isPageTableEntryValid pte = false := by
  cases hv : A.isPageTableEntryValid pte <;> simp [CpuIo.target, hv]

theorem target_eq_some_iff {b : Addr} : A.target pte = some b ↔
    A.isPageTableEntryValid pte = true ∧ A.pageTableEntryToPhysical pte = b := by
  cases hv : A.isPageTableEntryValid pte <;> simp [CpuIo.target, hv]

/-! ## Memory operations -/

section

variable (m) (t : Addr)

theorem write_entry_of_ne {t x : Addr} (h : x ≠ t) (i pte : ℕ) :
    (m.write t i pte).entry x = m.entry x := by
  simp [Memory.write, h]

@[simp] theorem write_entry_self (i pte : ℕ) : (m.write t i pte).entry t i = pte := by
  simp [Memory.write]

theorem write_entry_of_ne_index {i j : ℕ} (h : j ≠ i) (pte : ℕ) :
    (m.write t i pte).entry t j = m.entry t j := by
  simp [Memory.write, h]

@[simp] theorem clear_entry_self (page : Addr) (i : ℕ) : (m.clear page).entry page i = 0 := by
  simp [Memory.clear]

theorem clear_entry_of_ne {page x : Addr} (h : x ≠ page) : (m.clear page).entry x = m.entry x := by
  simp [Memory.clear, h]

end

theorem take_live_iff (h : Heap) (a x : Addr) :
    (h.take a).live x = true ↔ h.live x = true ∨ x = a := by
  by_cases hx : x = a <;> simp [Heap.take, hx]

theorem alignedAlloc_some {a : Addr} (h : m.alignedAlloc al = (some a, m')) :
    m.heap.live a = false ∧ A.IsFrame a ∧ a ≠ 0 ∧ m' = { m with heap := m.heap.take a } := by
  unfold Memory.alignedAlloc at h
  cases ha : al.alignedAlloc m.heap with
  | none => simp [ha] at h
  | some b =>
    simp only [ha, Prod.mk.injEq, Option.some.injEq] at h
    obtain ⟨rfl, rfl⟩ := h
    exact ⟨al.fresh ha, al.isFrame ha, al.ne_null ha, rfl⟩

theorem alignedAlloc_none (h : m.alignedAlloc al = (none, m')) :
    al.alignedAlloc m.heap = none ∧ m' = { m with heap :=
      { m.heap with calls := m.heap.calls + 1, nulls := m.heap.nulls + 1 } } := by
  unfold Memory.alignedAlloc at h
  cases ha : al.alignedAlloc m.heap with
  | none =>
    simp only [ha, Prod.mk.injEq, true_and] at h
    exact ⟨rfl, h.symm⟩
  | some b => simp [ha] at h

theorem alignedAlloc_clear {new : Addr} (h : m.alignedAlloc al = (some new, m₁)) :
    (m₁.clear new).Live new ∧ ∀ x, m.Live x →
      (m₁.clear new).Live x ∧ (m₁.clear new).entry x = m.entry x ∧ x ≠ new := by
  obtain ⟨hfresh, -, -, rfl⟩ := alignedAlloc_some h
  refine ⟨(take_live_iff m.heap new new).mpr (.inr rfl), fun x hx => ?_⟩
  have hne : x ≠ new := by
    rintro rfl
    have hl : m.heap.live x = true := hx
    rw [hfresh] at hl
    cases hl
  exact ⟨(take_live_iff m.heap new x).mpr (.inl hx), clear_entry_of_ne _ hne, hne⟩

/-! ## The walk -/

theorem findFrom_lookup :
    findFrom A al va false level table m =
      ((A.slot m level table va).elim (.error .vmPageNotMapped) .ok, m) := by
  induction level generalizing table with
  | zero => rfl
  | succ level ih =>
    simp only [findFrom, CpuIo.slot, TableTree.slot]
    split
    · rename_i hv
      rw [target_of_valid hv, ih]
      rfl
    rename_i hv
    rw [target_of_invalid (by simpa using hv)]
    rfl

theorem grows_link (h : A.IsPageTable m (level + 1) table) {i : ℕ} (hi : i < A.entriesPerTable)
    (hnone : A.target (m.entry table i) = none) {new : Addr} {m₂ : Memory}
    (halloc : m.alignedAlloc al = (some new, m₁))
    (hm₂ : m₂ = (m₁.clear new).write table i
      (A.physicalToPageTableEntry new A.getTableEntryPermissions)) :
    Grows A.target A.entriesPerTable m.Live m₂.Live m.entry m₂.entry (level + 1) table ∧
      A.target (m₂.entry table i) = some new := by
  obtain ⟨hfresh, hframe, -, hm₁⟩ := alignedAlloc_some halloc
  have hentry : m₁.entry = m.entry := by rw [hm₁]
  have hlive : m₂.heap = m.heap.take new := by rw [hm₂, hm₁]; rfl
  have hne : table ≠ new := by
    rintro rfl
    have hl : m.heap.live table = true := h.live table root_mem_tables
    rw [hfresh] at hl
    cases hl
  have hlink : A.target (m₂.entry table i) = some new := by
    rw [hm₂, write_entry_self]
    exact target_encode hframe A.permissions_flags
  refine ⟨Grows.attach (b := new) h hi hnone ?_ hlink ?_ ?_ ?_ ?_, hlink⟩
  · simp [Memory.Live, hfresh]
  · intro j _
    rw [hm₂, write_entry_of_ne _ (Ne.symm hne), clear_entry_self, target_zero]
  · intro j hj
    rw [hm₂, write_entry_of_ne_index _ _ hj, clear_entry_of_ne _ hne, hentry]
  · intro x hx hxn
    rw [hm₂, write_entry_of_ne _ hx, clear_entry_of_ne _ hxn, hentry]
  · intro x
    rw [Memory.Live, hlive]
    exact take_live_iff m.heap new x

theorem slot_child (h : A.IsPageTable m (level + 1) table) {b : Addr} {live' : Addr → Prop}
    (hb : A.target (m.entry table (A.getVirtualPageNumber va (level + 1))) = some b)
    (hg : Grows A.target A.entriesPerTable m.Live live' m.entry m'.entry level b) :
    A.slot m' (level + 1) table va = A.slot m' level b va := by
  have hroot : m'.entry table = m.entry table :=
    hg.frame table (h.live table root_mem_tables)
      ((nodup_tables_succ.mp h.nodup).1 _ (A.vpn_lt _ _) _ hb).1
  simp [CpuIo.slot, TableTree.slot, hroot, hb]

theorem findFrom_allocate (h : A.IsPageTable m level table) {r : Expected Slot}
    (hr : findFrom A al va true level table m = (r, m')) :
    Grows A.target A.entriesPerTable m.Live m'.Live m.entry m'.entry level table ∧
      ((∃ p, r = .ok p ∧ A.slot m' level table va = some p ∧ m'.heap.nulls = m.heap.nulls) ∨
        (r = .error .vmAllocationFailed ∧ m'.heap.nulls = m.heap.nulls + 1)) ∧
      ∀ x, m'.Live x → m.Live x ∨ x ≠ 0 := by
  induction level generalizing table m with
  | zero =>
    cases hr
    exact ⟨.refl h, .inl ⟨_, rfl, rfl, rfl⟩, fun _ hx => .inl hx⟩
  | succ level ih =>
    simp only [findFrom] at hr
    have hvpn := A.vpn_lt va (level + 1)
    split at hr
    · rename_i hv
      have hb := target_of_valid hv
      obtain ⟨hg, hres⟩ := ih (h.child hvpn hb) hr
      rw [slot_child h hb hg]
      exact ⟨Grows.child h hvpn hb hg, hres⟩
    rename_i hv
    have hnone := target_of_invalid (by simpa using hv)
    simp only [if_true] at hr
    split at hr
    · rename_i m₁ halloc
      obtain ⟨-, rfl⟩ := alignedAlloc_none halloc
      cases hr
      exact ⟨.refl h, .inr ⟨rfl, rfl⟩, fun _ hx => .inl hx⟩
    rename_i new m₁ halloc
    generalize hm₂ : (m₁.clear new).write table _ _ = m₂ at hr
    obtain ⟨hattach, hb⟩ := grows_link h hvpn hnone halloc hm₂.symm
    obtain ⟨hg, hres, hnew⟩ := ih (m := m₂) (hattach.tree.child hvpn hb) hr
    obtain ⟨-, -, hnull, rfl⟩ := alignedAlloc_some halloc
    have hnulls : m₂.heap.nulls = m.heap.nulls := by
      rw [← hm₂]
      rfl
    rw [slot_child hattach.tree hb hg, ← hnulls]
    refine ⟨hattach.trans (Grows.child hattach.tree hvpn hb hg), hres, fun x hx => ?_⟩
    rcases hnew x hx with hx | hx
    · rw [← hm₂] at hx
      rcases (take_live_iff m.heap new x).mp hx with hx | rfl
      · exact .inl hx
      · exact .inr hnull
    · exact .inr hx

end SimpleKernel.VirtualMemory
