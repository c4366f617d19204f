import SimpleKernel.Model.Filesystem.RamFs
import SimpleKernel.Shared.Keyed

/-! The arrays of the directories do not overlap, and every entry is the only one of its inode. -/

namespace SimpleKernel.Filesystem

open List

variable {fs fs' : RamFs} {free : List InodePtr} {i d d' : InodePtr} {name : CString}
  {head : Option InodePtr} {fs'' : RamFs}

/-! ## The free list -/

def FreeChain (inodes : InodePtr → RamInode) : Option InodePtr → List InodePtr → Prop
  | head, [] => head = none
  | head, i :: rest => head = some i ∧ FreeChain inodes (inodes i).nextFree rest

theorem FreeChain.congr {inodes inodes' : InodePtr → RamInode} (h : FreeChain inodes head free)
    (hnext : ∀ i ∈ free, (inodes' i).nextFree = (inodes i).nextFree) :
    FreeChain inodes' head free := by
  induction free generalizing head with
  | nil => exact h
  | cons i free ih =>
    rw [forall_mem_cons] at hnext
    refine ⟨h.1, ?_⟩
    rw [hnext.1]
    exact ih h.2 hnext.2

namespace RamFs

def freeFrom (fs : RamFs) : ℕ → Option InodePtr → List InodePtr
  | 0, _ => []
  | _ + 1, none => []
  | n + 1, some i => i :: fs.freeFrom n (fs.inodes i).nextFree

def freeInodes (fs : RamFs) : List InodePtr := fs.freeFrom maxInodes fs.freeList

theorem freeFrom_eq (h : FreeChain fs.inodes head free) {n : ℕ}
    (hlen : free.length ≤ n) : fs.freeFrom n head = free := by
  induction free generalizing head n with
  | nil =>
    have hhead : head = none := h
    subst hhead
    cases n with
    | zero => rfl
    | succ n => rfl
  | cons i free ih =>
    obtain ⟨rfl, hrest⟩ := h
    cases n with
    | zero => cases hlen
    | succ n =>
      rw [freeFrom, ih hrest (Nat.le_of_succ_le_succ hlen)]

/-! ## Updates -/

@[simp] theorem setInode_self (fs : RamFs) (i : InodePtr) (f : RamInode → RamInode) :
    (fs.setInode i f).inodes i = f (fs.inodes i) := Function.update_self ..

@[simp] theorem setInode_of_ne (fs : RamFs) (h : d ≠ i) (f : RamInode → RamInode) :
    (fs.setInode i f).inodes d = fs.inodes d := Function.update_of_ne h ..

section

variable (fs i) (f : RamInode → RamInode)

theorem setInode_congr {α : Type*} (p : RamInode → α) (hp : ∀ r, p (f r) = p r) (d : InodePtr) :
    p ((fs.setInode i f).inodes d) = p (fs.inodes d) := by
  by_cases h : d = i
  · rw [h, setInode_self, hp]
  · rw [setInode_of_ne fs h]

@[simp] theorem setInode_dirDataPool :
    (fs.setInode i f).dirDataPool = fs.dirDataPool := rfl

@[simp] theorem setEntry_inodes (pos : ℕ) (e : RamDirEntry) :
    (fs.setEntry pos e).inodes = fs.inodes := rfl

end

/-! ## Entries -/

def entries (fs : RamFs) (d : InodePtr) : List RamDirEntry :=
  if (fs.inodes d).inode.type = .directory then
    match (fs.inodes d).data with
    | none => []
    | some data => (range (fs.inodes d).childCount).map fun k => fs.dirDataPool (entryAt data k)
  else []

theorem entries_of_data_none (h : (fs.inodes d).data = none) : fs.entries d = [] := by
  simp [entries, h]

theorem entries_of_not_directory (h : (fs.inodes d).inode.type ≠ .directory) :
    fs.entries d = [] := if_neg h

theorem entries_eq {data : ℕ} (htype : (fs.inodes d).inode.type = .directory)
    (hdata : (fs.inodes d).data = some data) : fs.entries d =
      (range (fs.inodes d).childCount).map fun k => fs.dirDataPool (entryAt data k) := by
  simp [entries, if_pos htype, hdata]

theorem entries_congr (htype : (fs'.inodes d).inode.type = (fs.inodes d).inode.type)
    (hdata : (fs.inodes d).inode.type = .directory → (fs'.inodes d).data = (fs.inodes d).data)
    (hcount : (fs.inodes d).inode.type = .directory →
      (fs'.inodes d).childCount = (fs.inodes d).childCount)
    (hpool : ∀ data k, (fs.inodes d).inode.type = .directory → (fs.inodes d).data = some data →
      k < (fs.inodes d).childCount →
        fs'.dirDataPool (entryAt data k) = fs.dirDataPool (entryAt data k)) :
    fs'.entries d = fs.entries d := by
  by_cases hdir : (fs.inodes d).inode.type = .directory
  · cases hd : (fs.inodes d).data with
    | none => rw [entries_of_data_none hd, entries_of_data_none ((hdata hdir).trans hd)]
    | some data =>
      rw [entries_eq hdir hd, entries_eq (htype.trans hdir) ((hdata hdir).trans hd), hcount hdir]
      apply map_congr_left
      intro k hk
      exact hpool data k hdir hd (mem_range.mp hk)
  · rw [entries_of_not_directory hdir, entries_of_not_directory (htype ▸ hdir)]

theorem findInDirectory_cases (fs : RamFs) (d : InodePtr) (name : CString) :
    (fs.findInDirectory (some d) name = none ∧ ∀ e ∈ fs.entries d, e.name ≠ name) ∨
    ∃ data k, (fs.inodes d).inode.type = .directory ∧ (fs.inodes d).data = some data ∧
      k < (fs.inodes d).childCount ∧ (fs.dirDataPool (entryAt data k)).name = name ∧
      fs.findInDirectory (some d) name = some (entryAt data k) := by
  unfold findInDirectory
  by_cases htype : (fs.inodes d).inode.type = .directory
  · simp only [htype, ne_eq, not_true_eq_false, if_false]
    cases hdata : (fs.inodes d).data with
    | none =>
      left
      rw [entries_of_data_none hdata]
      exact ⟨rfl, nofun⟩
    | some data =>
      simp only
      cases hfind : ((range (fs.inodes d).childCount).map (entryAt data)).find? fun pos =>
          (fs.dirDataPool pos).name = name with
      | none =>
        left
        refine ⟨rfl, fun e he => ?_⟩
        rw [entries_eq htype hdata] at he
        obtain ⟨k, hk, rfl⟩ := mem_map.mp he
        have hnone := find?_eq_none.mp hfind _ (mem_map_of_mem hk)
        simpa using hnone
      | some pos =>
        right
        obtain ⟨k, hk, rfl⟩ := mem_map.mp (mem_of_find?_eq_some hfind)
        have hname := find?_some hfind
        exact ⟨data, k, trivial, rfl, mem_range.mp hk, by simpa using hname, rfl⟩
  · left
    rw [entries_of_not_directory htype]
    simp [htype]

end RamFs

/-! ## The state of a mounted file system -/

def InUse (free : List InodePtr) (i : InodePtr) : Prop := i < maxInodes ∧ i ∉ free

/-- The directory has its array at `data`. -/
structure ArrayAt (fs : RamFs) (free : List InodePtr) (d : InodePtr) (data : ℕ) : Prop where
  inUse : InUse free d
  type : (fs.inodes d).inode.type = .directory
  data : (fs.inodes d).data = some data

theorem ArrayAt.mem_entries {data k : ℕ} (ha : ArrayAt fs free d data)
    (hk : k < (fs.inodes d).childCount) : fs.dirDataPool (entryAt data k) ∈ fs.entries d := by
  rw [RamFs.entries_eq ha.type ha.data]
  exact mem_map_of_mem (mem_range.mpr hk)

/-- The inodes of `free` are the free ones, the arrays of the others are apart from each other in
the pool, and every entry is the only one of its inode. -/
structure WellFormed (fs : RamFs) (free : List InodePtr) : Prop where
  chain : FreeChain fs.inodes fs.freeList free
  nodup : free.Nodup
  lt : ∀ i ∈ free, i < maxInodes
  idle : ∀ i, ¬ InUse free i → (fs.inodes i).data = none
  self : ∀ i, InUse free i → (fs.inodes i).inode.fsPrivate = some i
  type : ∀ i, InUse free i →
    (fs.inodes i).inode.type = .regular ∨ (fs.inodes i).inode.type = .directory
  aligned : ∀ d, InUse free d → (fs.inodes d).inode.type = .directory →
    sizeofRamDirEntry ∣ (fs.inodes d).capacity
  room : ∀ d, InUse free d → (fs.inodes d).inode.type = .directory →
    (fs.inodes d).childCount * sizeofRamDirEntry ≤ (fs.inodes d).capacity
  empty : ∀ d, InUse free d → (fs.inodes d).inode.type = .directory →
    (fs.inodes d).data = none → (fs.inodes d).capacity = 0
  inside : ∀ d data, ArrayAt fs free d data → data + (fs.inodes d).capacity ≤ fs.dirDataPoolUsed
  apart : ∀ d d' data data', d ≠ d' → ArrayAt fs free d data → ArrayAt fs free d' data' →
    data + (fs.inodes d).capacity ≤ data' ∨ data' + (fs.inodes d').capacity ≤ data
  distinct : ∀ d, ((fs.entries d).map (·.inode)).Nodup
  bound : ∀ d, ∀ e ∈ fs.entries d, ∃ i, e.inode = some i ∧ InUse free i ∧
    (fs.inodes i).inode.linkCount = 2
  once : ∀ d d', ∀ e ∈ fs.entries d, ∀ e' ∈ fs.entries d', e.inode = e'.inode → d = d' ∧ e = e'

/-- The arrays of the directories and the free list are where they were. -/
structure SameArrays (fs fs' : RamFs) (free : List InodePtr) : Prop where
  freeList : fs'.freeList = fs.freeList
  used : fs'.dirDataPoolUsed = fs.dirDataPoolUsed
  type : ∀ i, (fs'.inodes i).inode.type = (fs.inodes i).inode.type
  self : ∀ i, (fs'.inodes i).inode.fsPrivate = (fs.inodes i).inode.fsPrivate
  nextFree : ∀ i, (fs'.inodes i).nextFree = (fs.inodes i).nextFree
  idle : ∀ i, ¬ InUse free i → (fs'.inodes i).data = (fs.inodes i).data
  data : ∀ i, (fs.inodes i).inode.type = .directory → (fs'.inodes i).data = (fs.inodes i).data
  capacity : ∀ i, (fs.inodes i).inode.type = .directory →
    (fs'.inodes i).capacity = (fs.inodes i).capacity

theorem SameArrays.trans (h : SameArrays fs fs' free)
    (h' : SameArrays fs' fs'' free) : SameArrays fs fs'' free where
  freeList := h'.freeList.trans h.freeList
  used := h'.used.trans h.used
  type i := (h'.type i).trans (h.type i)
  self i := (h'.self i).trans (h.self i)
  nextFree i := (h'.nextFree i).trans (h.nextFree i)
  idle i hi := (h'.idle i hi).trans (h.idle i hi)
  data i hi := (h'.data i ((h.type i).trans hi)).trans (h.data i hi)
  capacity i hi := (h'.capacity i ((h.type i).trans hi)).trans (h.capacity i hi)

theorem sameArrays_setEntry (fs : RamFs) (free : List InodePtr) (pos : ℕ) (e : RamDirEntry) :
    SameArrays fs (fs.setEntry pos e) free := by
  constructor <;> intros <;> rfl

theorem sameArrays_setInode (fs : RamFs) (free : List InodePtr) (i : InodePtr)
    (f : RamInode → RamInode) (htype : ∀ r, (f r).inode.type = r.inode.type)
    (hself : ∀ r, (f r).inode.fsPrivate = r.inode.fsPrivate)
    (hnext : ∀ r, (f r).nextFree = r.nextFree) (hdata : ∀ r, (f r).data = r.data)
    (hcapacity : ∀ r, (f r).capacity = r.capacity) : SameArrays fs (fs.setInode i f) free where
  freeList := rfl
  used := rfl
  type := RamFs.setInode_congr fs i f (·.inode.type) htype
  self := RamFs.setInode_congr fs i f (·.inode.fsPrivate) hself
  nextFree := RamFs.setInode_congr fs i f (·.nextFree) hnext
  idle d _ := RamFs.setInode_congr fs i f (·.data) hdata d
  data d _ := RamFs.setInode_congr fs i f (·.data) hdata d
  capacity d _ := RamFs.setInode_congr fs i f (·.capacity) hcapacity d

/-- Nothing has changed that the files are made of, and the file system stays mounted or not. -/
structure SameFiles (fs fs' : RamFs) (P : InodePtr → Prop) : Prop where
  mounted : fs'.mounted = fs.mounted
  rootInode : fs'.rootInode = fs.rootInode
  pool : fs'.fileDataPool = fs.fileDataPool
  used : fs'.fileDataPoolUsed = fs.fileDataPoolUsed
  type : ∀ i, P i → (fs'.inodes i).inode.type = (fs.inodes i).inode.type
  size : ∀ i, P i → (fs'.inodes i).inode.size = (fs.inodes i).inode.size
  data : ∀ i, P i → (fs.inodes i).inode.type = .regular →
    (fs'.inodes i).data = (fs.inodes i).data ∧ (fs'.inodes i).capacity = (fs.inodes i).capacity

namespace SameFiles

variable {P : InodePtr → Prop}

theorem rfl (fs : RamFs) (P : InodePtr → Prop) : SameFiles fs fs P :=
  ⟨Eq.refl _, Eq.refl _, Eq.refl _, Eq.refl _, fun _ _ => Eq.refl _, fun _ _ => Eq.refl _,
    fun _ _ _ => ⟨Eq.refl _, Eq.refl _⟩⟩

theorem mono {Q : InodePtr → Prop} (h : SameFiles fs fs' P) (hq : ∀ i, Q i → P i) :
    SameFiles fs fs' Q :=
  { h with
    type := fun i hi => h.type i (hq i hi)
    size := fun i hi => h.size i (hq i hi)
    data := fun i hi => h.data i (hq i hi) }

theorem trans (h : SameFiles fs fs' P) (h' : SameFiles fs' fs'' P) : SameFiles fs fs'' P where
  mounted := h'.mounted.trans h.mounted
  rootInode := h'.rootInode.trans h.rootInode
  pool := h'.pool.trans h.pool
  used := h'.used.trans h.used
  type i hi := (h'.type i hi).trans (h.type i hi)
  size i hi := (h'.size i hi).trans (h.size i hi)
  data i hi hr := by
    obtain ⟨hdata, hcapacity⟩ := h.data i hi hr
    obtain ⟨hdata', hcapacity'⟩ := h'.data i hi ((h.type i hi).trans hr)
    exact ⟨hdata'.trans hdata, hcapacity'.trans hcapacity⟩

theorem setEntry (fs : RamFs) (P : InodePtr → Prop) (pos : ℕ) (e : RamDirEntry) :
    SameFiles fs (fs.setEntry pos e) P :=
  ⟨Eq.refl _, Eq.refl _, Eq.refl _, Eq.refl _, fun _ _ => Eq.refl _, fun _ _ => Eq.refl _,
    fun _ _ _ => ⟨Eq.refl _, Eq.refl _⟩⟩

theorem setInode (fs : RamFs) (P : InodePtr → Prop) (i : InodePtr) (f : RamInode → RamInode)
    (htype : ∀ r, (f r).inode.type = r.inode.type) (hsize : ∀ r, (f r).inode.size = r.inode.size)
    (hdata : ∀ r, (f r).data = r.data) (hcapacity : ∀ r, (f r).capacity = r.capacity) :
    SameFiles fs (fs.setInode i f) P where
  mounted := Eq.refl _
  rootInode := Eq.refl _
  pool := Eq.refl _
  used := Eq.refl _
  type x _ := RamFs.setInode_congr fs i f (·.inode.type) htype x
  size x _ := RamFs.setInode_congr fs i f (·.inode.size) hsize x
  data x _ _ := ⟨RamFs.setInode_congr fs i f (·.data) hdata x,
    RamFs.setInode_congr fs i f (·.capacity) hcapacity x⟩

theorem of_other (hother : ∀ x, x ≠ i → fs'.inodes x = fs.inodes x) (hi : ¬ P i)
    (hmounted : fs'.mounted = fs.mounted) (hroot : fs'.rootInode = fs.rootInode)
    (hpool : fs'.fileDataPool = fs.fileDataPool)
    (hused : fs'.fileDataPoolUsed = fs.fileDataPoolUsed) : SameFiles fs fs' P := by
  have hsame : ∀ x, P x → fs'.inodes x = fs.inodes x := fun x hx =>
    hother x fun heq => hi (heq ▸ hx)
  constructor
  case mounted => exact hmounted
  case rootInode => exact hroot
  case pool => exact hpool
  case used => exact hused
  case type => exact fun x hx => by rw [hsame x hx]
  case size => exact fun x hx => by rw [hsame x hx]
  case data => exact fun x hx _ => by rw [hsame x hx]; exact ⟨Eq.refl _, Eq.refl _⟩

end SameFiles

namespace WellFormed

variable (h : WellFormed fs free)
include h

theorem inUse_of_data {data : ℕ} (hdata : (fs.inodes d).data = some data) : InUse free d := by
  by_contra hfree
  rw [h.idle d hfree] at hdata
  cases hdata

theorem inUse_of_mem {e : RamDirEntry} (hmem : e ∈ fs.entries d) (hinode : e.inode = some i) :
    InUse free i := by
  obtain ⟨j, hj, huse, _⟩ := h.bound d e hmem
  rw [hinode] at hj
  cases hj
  exact huse

theorem freeInodes : fs.freeInodes = free := by
  apply RamFs.freeFrom_eq h.chain
  have hsub : free.Subperm (range maxInodes) := by
    apply subperm_of_subset h.nodup
    intro i hi
    exact mem_range.mpr (h.lt i hi)
  simpa using hsub.length_le

theorem entryAt_ne {data data' j k : ℕ} (hne : d ≠ d')
    (ha : ArrayAt fs free d data) (ha' : ArrayAt fs free d' data')
    (hj : j * sizeofRamDirEntry < (fs.inodes d).capacity) (hk : k < (fs.inodes d').childCount) :
    entryAt data' k ≠ entryAt data j := by
  have hapart := h.apart d d' data data' hne ha ha'
  have hroom := h.room d' ha'.inUse ha'.type
  unfold entryAt
  unfold sizeofRamDirEntry at *
  omega

theorem of_entries (hs : SameArrays fs fs' free)
    (hroom : ∀ d, InUse free d → (fs.inodes d).inode.type = .directory →
      (fs'.inodes d).childCount * sizeofRamDirEntry ≤ (fs.inodes d).capacity)
    (hdistinct : ∀ d, ((fs'.entries d).map (·.inode)).Nodup)
    (hbound : ∀ d, ∀ e ∈ fs'.entries d, ∃ i, e.inode = some i ∧ InUse free i ∧
      (fs'.inodes i).inode.linkCount = 2)
    (honce : ∀ d d', ∀ e ∈ fs'.entries d, ∀ e' ∈ fs'.entries d', e.inode = e'.inode →
      d = d' ∧ e = e') : WellFormed fs' free := by
  have harray : ∀ d data, ArrayAt fs' free d data → ArrayAt fs free d data := by
    intro d data ha
    have htype := (hs.type d).symm.trans ha.type
    exact ⟨ha.inUse, htype, (hs.data d htype).symm.trans ha.data⟩
  constructor
  case chain =>
    rw [hs.freeList]
    exact h.chain.congr fun i _ => hs.nextFree i
  case nodup => exact h.nodup
  case lt => exact h.lt
  case idle =>
    intro i hi
    rw [hs.idle i hi]
    exact h.idle i hi
  case self =>
    intro i hi
    rw [hs.self]
    exact h.self i hi
  case type =>
    intro i hi
    rw [hs.type]
    exact h.type i hi
  case aligned =>
    intro d hd htype
    rw [hs.type] at htype
    rw [hs.capacity d htype]
    exact h.aligned d hd htype
  case room =>
    intro d hd htype
    rw [hs.type] at htype
    rw [hs.capacity d htype]
    exact hroom d hd htype
  case empty =>
    intro d hd htype hdata
    rw [hs.type] at htype
    rw [hs.data d htype] at hdata
    rw [hs.capacity d htype]
    exact h.empty d hd htype hdata
  case inside =>
    intro d data ha
    rw [hs.capacity d (harray d data ha).type, hs.used]
    exact h.inside d data (harray d data ha)
  case apart =>
    intro d d' data data' hne ha ha'
    rw [hs.capacity d (harray d data ha).type, hs.capacity d' (harray d' data' ha').type]
    exact h.apart d d' data data' hne (harray d data ha) (harray d' data' ha')
  case distinct => exact hdistinct
  case bound => exact hbound
  case once => exact honce

theorem of_same_entries (hs : SameArrays fs fs' free)
    (hcount : ∀ d, (fs.inodes d).inode.type = .directory →
      (fs'.inodes d).childCount = (fs.inodes d).childCount)
    (hlink : ∀ i, (fs'.inodes i).inode.linkCount = (fs.inodes i).inode.linkCount)
    (hentries : ∀ d, fs'.entries d = fs.entries d) : WellFormed fs' free := by
  apply h.of_entries hs
  · intro d hd htype
    rw [hcount d htype]
    exact h.room d hd htype
  · intro d
    rw [hentries]
    exact h.distinct d
  · intro d e he
    rw [hentries] at he
    obtain ⟨i, hi, huse, hl⟩ := h.bound d e he
    exact ⟨i, hi, huse, (hlink i).trans hl⟩
  · intro d d' e he e' he'
    rw [hentries] at he he'
    exact h.once d d' e he e' he'

end WellFormed

end SimpleKernel.Filesystem
