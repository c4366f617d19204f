import Mathlib.Logic.Function.Basic
import SimpleKernel.Model.Basic

/-! The page tables of `virtual_memory.cpp`, over a memory of page-sized tables and an
arbitrary allocator. What the architecture library `cpu_io` provides is a parameter. -/

namespace SimpleKernel.VirtualMemory

abbrev Addr := ℕ

/-- The paging constants and functions of `cpu_io::virtual_memory`. `IsFrame` are the page-
aligned addresses that fit the address field of an entry, `IsFlags` the attributes that fit
its attribute field and have the valid bit set; entries made of these decode again. -/
structure CpuIo where
  pageTableLevels : ℕ
  entriesPerTable : ℕ
  pteAttributeBits : ℕ
  isPageTableEntryValid : ℕ → Bool
  pageTableEntryToPhysical : ℕ → Addr
  physicalToPageTableEntry : Addr → ℕ → ℕ
  getVirtualPageNumber : Addr → ℕ → ℕ
  getTableEntryPermissions : ℕ
  IsFrame : Addr → Prop
  IsFlags : ℕ → Prop
  levels_pos : 0 < pageTableLevels
  zero_invalid : isPageTableEntryValid 0 = false
  vpn_lt : ∀ va level, getVirtualPageNumber va level < entriesPerTable
  permissions_flags : IsFlags getTableEntryPermissions
  valid_encode : ∀ {pa flags}, IsFrame pa → IsFlags flags →
    isPageTableEntryValid (physicalToPageTableEntry pa flags) = true
  physical_encode : ∀ {pa flags}, IsFrame pa → IsFlags flags →
    pageTableEntryToPhysical (physicalToPageTableEntry pa flags) = pa
  flags_encode : ∀ {pa flags}, IsFrame pa → IsFlags flags →
    physicalToPageTableEntry pa flags % 2 ^ pteAttributeBits = flags

/-- The blocks that the allocator has handed out. `calls` counts the calls of `aligned_alloc`, and
`nulls` those that returned a null pointer; `freed` lists what `aligned_free` was given, the latest
first, and `doubleFree` remembers whether any of it was not live. -/
structure Heap where
  live : Addr → Bool
  calls : ℕ := 0
  nulls : ℕ := 0
  doubleFree : Bool := false
  freed : List Addr := []

/-- `aligned_alloc` may answer differently at every call. The blocks it returns are not in
use and are pages that an entry can point to. -/
structure Allocator (A : CpuIo) where
  alignedAlloc : Heap → Option Addr
  fresh : ∀ {h a}, alignedAlloc h = some a → h.live a = false
  isFrame : ∀ {h a}, alignedAlloc h = some a → A.IsFrame a
  ne_null : ∀ {h a}, alignedAlloc h = some a → a ≠ 0

def Heap.free (h : Heap) (block : Addr) : Heap :=
  { h with
    live := Function.update h.live block false
    doubleFree := h.doubleFree || !h.live block
    freed := block :: h.freed }

def Heap.take (h : Heap) (block : Addr) : Heap :=
  { h with live := Function.update h.live block true, calls := h.calls + 1 }

/-- The 64-bit words of every page, and the state of the allocator. -/
structure Memory where
  entry : Addr → ℕ → ℕ
  heap : Heap

def Memory.write (m : Memory) (table : Addr) (i pte : ℕ) : Memory :=
  { m with entry := Function.update m.entry table (Function.update (m.entry table) i pte) }

/-- `memset(page, 0, kPageSize)`. -/
def Memory.clear (m : Memory) (page : Addr) : Memory :=
  { m with entry := Function.update m.entry page fun _ => 0 }

def Memory.alignedFree (m : Memory) (block : Addr) : Memory :=
  { m with heap := m.heap.free block }

def Memory.alignedAlloc {A : CpuIo} (al : Allocator A) (m : Memory) : Option Addr × Memory :=
  match al.alignedAlloc m.heap with
  | none =>
    (none, { m with heap := { m.heap with calls := m.heap.calls + 1, nulls := m.heap.nulls + 1 } })
  | some a => (some a, { m with heap := m.heap.take a })

variable (A : CpuIo) (al : Allocator A)

/-- A pointer to an entry: its table and its index there. -/
abbrev Slot := Addr × ℕ

/-- The loop of `FindPageTableEntry` from `level` down. -/
def findFrom (va : Addr) (allocate : Bool) : ℕ → Addr → Memory → Expected Slot × Memory
  | 0, table, m => (.ok (table, A.getVirtualPageNumber va 0), m)
  | level + 1, table, m =>
    let vpn := A.getVirtualPageNumber va (level + 1)
    let pte := m.entry table vpn
    if A.isPageTableEntryValid pte then
      findFrom va allocate level (A.pageTableEntryToPhysical pte) m
    else if allocate then
      match m.alignedAlloc al with
      | (none, m) => (.error .vmAllocationFailed, m)
      | (some new, m) =>
        let pte := A.physicalToPageTableEntry new A.getTableEntryPermissions
        findFrom va allocate level new ((m.clear new).write table vpn pte)
    else (.error .vmPageNotMapped, m)

def findPageTableEntry (pageDir va : Addr) (allocate : Bool) (m : Memory) :
    Expected Slot × Memory :=
  findFrom A al va allocate (A.pageTableLevels - 1) pageDir m

def mapPage (pageDir va pa : Addr) (flags : ℕ) (m : Memory) : Expected Unit × Memory :=
  match findPageTableEntry A al pageDir va true m with
  | (.error _, m) => (.error .vmMapFailed, m)
  | (.ok (table, i), m) =>
    let pte := m.entry table i
    -- mapping the same page with the same flags again is skipped
    if A.isPageTableEntryValid pte ∧ A.pageTableEntryToPhysical pte = pa ∧
        pte % 2 ^ A.pteAttributeBits = flags then (.ok (), m)
    else (.ok (), m.write table i (A.physicalToPageTableEntry pa flags))

def unmapPage (pageDir va : Addr) (m : Memory) : Expected Unit × Memory :=
  match findPageTableEntry A al pageDir va false m with
  | (.error _, m) => (.error .vmPageNotMapped, m)
  | (.ok (table, i), m) =>
    if A.isPageTableEntryValid (m.entry table i) then (.ok (), m.write table i 0)
    else (.error .vmPageNotMapped, m)

def getMapping (pageDir va : Addr) (m : Memory) : Expected Addr × Memory :=
  match findPageTableEntry A al pageDir va false m with
  | (.error _, m) => (.error .vmPageNotMapped, m)
  | (.ok (table, i), m) =>
    let pte := m.entry table i
    if A.isPageTableEntryValid pte then (.ok (A.pageTableEntryToPhysical pte), m)
    else (.error .vmPageNotMapped, m)

/-! ## Ranges of pages -/

/-- The page size, the alignment functions and the permissions of user pages of
`cpu_io::virtual_memory`. The levels of a page table cover the addresses below `reach`. -/
structure Paging (A : CpuIo) where
  pageSize : ℕ
  reach : ℕ
  pageAlign : Addr → Addr
  pageAlignUp : Addr → Addr
  getUserPagePermissions : Bool → Bool → Bool → ℕ
  pageSize_pos : 0 < pageSize
  reach_lt : reach + pageSize < 2 ^ 64
  pageAlign_eq : ∀ a < reach, pageAlign a = a / pageSize * pageSize
  pageAlignUp_eq : ∀ a ≤ reach, pageAlignUp a = (a + pageSize - 1) / pageSize * pageSize
  permissions_flags : ∀ r w x, A.IsFlags (getUserPagePermissions r w x)
  isFrame : ∀ a < reach, A.IsFrame (a / pageSize * pageSize)
  vpn_eq_iff : ∀ a < reach, ∀ b < reach, (∀ level < A.pageTableLevels,
    A.getVirtualPageNumber a level = A.getVirtualPageNumber b level) ↔ a / pageSize = b / pageSize

variable (P : Paging A)

variable {A} in
/-- `for (addr = start; addr < end; addr += kPageSize)` around a body that may return. There is no
result if it needs more than `fuel` rounds. -/
def pageLoop {σ ε : Type} (body : Addr → σ → Except ε Unit × σ) (endPage : Addr) :
    ℕ → Addr → σ → Option (Except ε Unit × σ)
  | 0, _, _ => none
  | fuel + 1, addr, s =>
    if addr < endPage then
      match body addr s with
      | (.error e, s) => some (.error e, s)
      | (.ok _, s) => pageLoop body endPage fuel ((addr + P.pageSize) % 2 ^ 64) s
    else some (.ok (), s)

def mapMMIO (kernelPageDir phys size flags fuel : ℕ) (m : Memory) :
    Option (Expected Addr × Memory) :=
  let startPage := P.pageAlign phys
  let endPage := P.pageAlignUp ((phys + size) % 2 ^ 64)
  (pageLoop P (fun addr => mapPage A al kernelPageDir addr addr flags) endPage fuel startPage m).map
    fun p => (p.1.map fun _ => phys, p.2)

/-! ## Destroying and copying a page directory -/

/-- One round of the loop of `RecursiveFreePageTable`; `child` is what it does to the page
or table that a valid entry points to. -/
def freeEntry (child : Addr → Memory → Memory) (table : Addr) (m : Memory) (i : ℕ) : Memory :=
  let pte := m.entry table i
  if A.isPageTableEntryValid pte then
    (child (A.pageTableEntryToPhysical pte) m).write table i 0
  else m

/-- Only tables below the root are freed by the recursion itself. -/
def freeTable (level : ℕ) (table : Addr) (m : Memory) : Memory :=
  if level < A.pageTableLevels - 1 then m.alignedFree table else m

def recursiveFreePageTable (freePages : Bool) : ℕ → Addr → Memory → Memory
  | 0, table, m =>
    if table = 0 then m
    else
      let child pa m := if freePages then Memory.alignedFree m pa else m
      freeTable A 0 table ((List.range A.entriesPerTable).foldl (freeEntry A child table) m)
  | level + 1, table, m =>
    if table = 0 then m
    else
      let child pa m := recursiveFreePageTable freePages level pa m
      freeTable A (level + 1) table
        ((List.range A.entriesPerTable).foldl (freeEntry A child table) m)

def destroyPageDirectory (pageDir : Addr) (freePages : Bool) (m : Memory) : Memory :=
  if pageDir = 0 then m
  else (recursiveFreePageTable A freePages (A.pageTableLevels - 1) pageDir m).alignedFree pageDir

/-- The loop of `RecursiveClonePageTable` over the entries `is`; `child` makes the entry of
the copy, or fails. -/
def cloneEntries (child : ℕ → Memory → Expected (Option ℕ) × Memory) (src dst : Addr) :
    List ℕ → Memory → Expected Unit × Memory
  | [], m => (.ok (), m)
  | i :: is, m =>
    let pte := m.entry src i
    if A.isPageTableEntryValid pte then
      match child pte m with
      | (.error e, m) => (.error e, m)
      | (.ok none, m) => cloneEntries child src dst is m
      | (.ok (some copy), m) => cloneEntries child src dst is (m.write dst i copy)
    else cloneEntries child src dst is m

def recursiveClonePageTable (copyMappings : Bool) :
    ℕ → Addr → Addr → Memory → Expected Unit × Memory
  | 0, src, dst, m =>
    let child pte m := (.ok (if copyMappings then some pte else none), m)
    cloneEntries A child src dst (List.range A.entriesPerTable) m
  | level + 1, src, dst, m =>
    let child pte m :=
      match Memory.alignedAlloc al m with
      | (none, m) => (.error .vmAllocationFailed, m)
      | (some new, m) =>
        match recursiveClonePageTable copyMappings level (A.pageTableEntryToPhysical pte) new
            (m.clear new) with
        | (.error e, m) => (.error e, m.alignedFree new)
        | (.ok _, m) =>
          (.ok (some (A.physicalToPageTableEntry new A.getTableEntryPermissions)), m)
    cloneEntries A child src dst (List.range A.entriesPerTable) m

def clonePageDirectory (src : Addr) (copyMappings : Bool) (m : Memory) : Expected Addr × Memory :=
  match m.alignedAlloc al with
  | (none, m) => (.error .vmAllocationFailed, m)
  | (some dst, m) =>
    match recursiveClonePageTable A al copyMappings (A.pageTableLevels - 1) src dst
        (m.clear dst) with
    | (.error e, m) => (.error e, destroyPageDirectory A dst false m)
    | (.ok _, m) => (.ok dst, m)

end SimpleKernel.VirtualMemory
