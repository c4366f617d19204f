import SimpleKernel.Verification.Filesystem.Directories

/-! An inode is taken from the free list, or goes back to it. -/

namespace SimpleKernel.Filesystem

open Function

variable {fs fs' : RamFs} {free : List InodePtr} {i d : InodePtr}
  {t : FileType}

theorem inUse_cons : InUse (i :: free) d ↔ d ≠ i ∧ InUse free d := by
  simp only [InUse, List.mem_cons, not_or]
  tauto

/-! ## Allocating and releasing an inode -/

namespace RamFs

/-- The file system after `AllocateInode`, with the type that the caller sets. -/
def allocated (fs : RamFs) (i : InodePtr) (t : FileType) : RamFs :=
  fs.allocateInode.2.setType i t

theorem allocateInode_of_free (h : fs.freeList = some i) :
    fs.allocateInode = (.ok i, { fs with
      inodes := update fs.inodes i
        { inode := { ino := i, type := .unknown, size := 0, permissions := 0o644, linkCount := 1,
                     fsPrivate := some i }
          data := none, capacity := 0, childCount := 0, nextFree := none }
      freeList := (fs.inodes i).nextFree
      usedInodes := fs.usedInodes + 1 }) := by
  simp [allocateInode, h, setInode]

theorem allocateInode_of_none (h : fs.freeList = none) :
    fs.allocateInode = (.error .outOfMemory, fs) := by
  simp [allocateInode, h]

theorem allocated_inodes (h : fs.freeList = some i) : (fs.allocated i t).inodes =
    update fs.inodes i
      { inode := { ino := i, type := t, size := 0, permissions := 0o644, linkCount := 1,
                   fsPrivate := some i }
        data := none, capacity := 0, childCount := 0, nextFree := none } := by
  simp [allocated, allocateInode, h, setType, setInode]

theorem allocated_freeList (h : fs.freeList = some i) :
    (fs.allocated i t).freeList = (fs.inodes i).nextFree := by
  simp [allocated, allocateInode, h, setType, setInode]

theorem allocated_usedInodes (h : fs.freeList = some i) :
    (fs.allocated i t).usedInodes = fs.usedInodes + 1 := by
  simp [allocated, allocateInode, h, setType, setInode]

theorem allocated_dirDataPool (fs : RamFs) (i : InodePtr) (t : FileType) :
    (fs.allocated i t).dirDataPool = fs.dirDataPool ∧
      (fs.allocated i t).dirDataPoolUsed = fs.dirDataPoolUsed := by
  unfold allocated allocateInode
  cases fs.freeList with
  | none => exact ⟨rfl, rfl⟩
  | some i => exact ⟨rfl, rfl⟩

theorem freeInode_eq (h : (fs.inodes i).inode.fsPrivate = some i) :
    (fs.freeInode (some i)).2 = { fs with
      inodes := update fs.inodes i { fs.inodes i with
        inode := { (fs.inodes i).inode with type := .unknown, size := 0, fsPrivate := none }
        data := none, capacity := 0, childCount := 0, nextFree := fs.freeList }
      freeList := some i
      usedInodes := fs.usedInodes - 1 } := by
  simp [freeInode, h, setInode]

end RamFs

/-- The step changes an inode that has no array and no entry. -/
structure ChangesInode (fs fs' : RamFs) (i : InodePtr) : Prop where
  other : ∀ x, x ≠ i → fs'.inodes x = fs.inodes x
  pool : fs'.dirDataPool = fs.dirDataPool
  used : fs'.dirDataPoolUsed = fs.dirDataPoolUsed
  data : (fs.inodes i).data = none
  data' : (fs'.inodes i).data = none

theorem ChangesInode.entries (hc : ChangesInode fs fs' i) (d : InodePtr) :
    fs'.entries d = fs.entries d := by
  by_cases hd : d = i
  · rw [hd, RamFs.entries_of_data_none hc.data, RamFs.entries_of_data_none hc.data']
  have hsame := hc.other d hd
  apply RamFs.entries_congr
  · rw [hsame]
  · exact fun _ => by rw [hsame]
  · exact fun _ => by rw [hsame]
  · intro data k _ _ _
    rw [hc.pool]

namespace WellFormed

theorem changesInode (h : WellFormed fs free) (hc : ChangesInode fs fs' i) {free' : List InodePtr}
    (hunbound : ∀ d, ∀ e ∈ fs.entries d, e.inode ≠ some i)
    (hchain : FreeChain fs'.inodes fs'.freeList free') (hnodup : free'.Nodup)
    (hlt : ∀ x ∈ free', x < maxInodes) (huse : ∀ x, x ≠ i → (InUse free' x ↔ InUse free x))
    (hself : InUse free' i → (fs'.inodes i).inode.fsPrivate = some i)
    (htype : InUse free' i →
      (fs'.inodes i).inode.type = .regular ∨ (fs'.inodes i).inode.type = .directory)
    (hempty : (fs'.inodes i).capacity = 0 ∧ (fs'.inodes i).childCount = 0) :
    WellFormed fs' free' := by
  have harray : ∀ d data, ArrayAt fs' free' d data → d ≠ i ∧ ArrayAt fs free d data := by
    intro d data ha
    have hne : d ≠ i := by
      rintro rfl
      have hdata := ha.data
      rw [hc.data'] at hdata
      cases hdata
    have hsame := hc.other d hne
    exact ⟨hne, (huse d hne).mp ha.inUse, hsame ▸ ha.type, hsame ▸ ha.data⟩
  constructor
  case chain => exact hchain
  case nodup => exact hnodup
  case lt => exact hlt
  case idle =>
    intro x hx
    by_cases hxi : x = i
    · rw [hxi]
      exact hc.data'
    · rw [hc.other x hxi]
      exact h.idle x (mt (huse x hxi).mpr hx)
  case self =>
    intro x hx
    by_cases hxi : x = i
    · subst hxi
      exact hself hx
    · rw [hc.other x hxi]
      exact h.self x ((huse x hxi).mp hx)
  case type =>
    intro x hx
    by_cases hxi : x = i
    · subst hxi
      exact htype hx
    · rw [hc.other x hxi]
      exact h.type x ((huse x hxi).mp hx)
  case aligned =>
    intro x hx hdir
    by_cases hxi : x = i
    · rw [hxi, hempty.1]
      exact Nat.dvd_zero _
    · rw [hc.other x hxi] at hdir ⊢
      exact h.aligned x ((huse x hxi).mp hx) hdir
  case room =>
    intro x hx hdir
    by_cases hxi : x = i
    · rw [hxi, hempty.1, hempty.2, Nat.zero_mul]
    · rw [hc.other x hxi] at hdir ⊢
      exact h.room x ((huse x hxi).mp hx) hdir
  case empty =>
    intro x hx hdir hdata
    by_cases hxi : x = i
    · rw [hxi, hempty.1]
    · rw [hc.other x hxi] at hdir hdata ⊢
      exact h.empty x ((huse x hxi).mp hx) hdir hdata
  case inside =>
    intro x data ha
    obtain ⟨hne, ha⟩ := harray x data ha
    rw [hc.other x hne, hc.used]
    exact h.inside x data ha
  case apart =>
    intro x x' data data' hne ha ha'
    obtain ⟨hx, ha⟩ := harray x data ha
    obtain ⟨hx', ha'⟩ := harray x' data' ha'
    rw [hc.other x hx, hc.other x' hx']
    exact h.apart x x' data data' hne ha ha'
  case distinct =>
    intro x
    rw [hc.entries]
    exact h.distinct x
  case bound =>
    intro x e he
    rw [hc.entries] at he
    obtain ⟨y, hy, hinUse, hlink⟩ := h.bound x e he
    have hyi : y ≠ i := fun heq => hunbound x e he (heq ▸ hy)
    refine ⟨y, hy, (huse y hyi).mpr hinUse, ?_⟩
    rw [hc.other y hyi]
    exact hlink
  case once =>
    intro x x' e he e' he'
    rw [hc.entries] at he he'
    exact h.once x x' e he e' he'

theorem unbound_of_free (h : WellFormed fs free) (hi : i ∈ free) (d : InodePtr) :
    ∀ e ∈ fs.entries d, e.inode ≠ some i := by
  intro e he hei
  exact (h.inUse_of_mem he hei).2 hi

section

variable (h : WellFormed fs (i :: free))
include h

theorem changes_allocated : ChangesInode fs (fs.allocated i t) i := by
  have hinodes := RamFs.allocated_inodes (t := t) h.chain.1
  constructor
  case other =>
    intro x hx
    rw [hinodes, update_of_ne hx]
  case pool => exact (RamFs.allocated_dirDataPool fs i t).1
  case used => exact (RamFs.allocated_dirDataPool fs i t).2
  case data => exact h.idle i fun huse => (inUse_cons.mp huse).1 rfl
  case data' => rw [hinodes, update_self]

theorem sameFiles_allocated : SameFiles fs (fs.allocated i t) (InUse (i :: free)) := by
  have hframe : (fs.allocated i t).mounted = fs.mounted ∧
      (fs.allocated i t).rootInode = fs.rootInode ∧
      (fs.allocated i t).fileDataPool = fs.fileDataPool ∧
      (fs.allocated i t).fileDataPoolUsed = fs.fileDataPoolUsed := by
    unfold RamFs.allocated
    rw [RamFs.allocateInode_of_free h.chain.1]
    exact ⟨rfl, rfl, rfl, rfl⟩
  apply SameFiles.of_other (h.changes_allocated (t := t)).other ?_ hframe.1 hframe.2.1
    hframe.2.2.1 hframe.2.2.2
  exact fun huse => (inUse_cons.mp huse).1 rfl

theorem allocated (ht : t = .regular ∨ t = .directory) : WellFormed (fs.allocated i t) free := by
  have hc := h.changes_allocated (t := t)
  have hi := List.nodup_cons.mp h.nodup
  have hnew := congrFun (RamFs.allocated_inodes (t := t) h.chain.1) i
  rw [update_self] at hnew
  apply h.changesInode hc
  case hunbound => exact h.unbound_of_free List.mem_cons_self
  case hchain =>
    rw [RamFs.allocated_freeList h.chain.1]
    apply h.chain.2.congr
    intro x hx
    rw [hc.other x fun heq => hi.1 (heq ▸ hx)]
  case hnodup => exact hi.2
  case hlt => exact fun x hx => h.lt x (List.mem_cons_of_mem i hx)
  case huse =>
    intro x hx
    rw [inUse_cons]
    exact (and_iff_right hx).symm
  case hself =>
    intro _
    rw [hnew]
  case htype =>
    intro _
    rw [hnew]
    exact ht
  case hempty =>
    rw [hnew]
    exact ⟨rfl, rfl⟩

end

section

variable (h : WellFormed fs free) (hi : InUse free i) (hdata : (fs.inodes i).data = none)
include h hi hdata

theorem changes_freeInode : ChangesInode fs (fs.freeInode (some i)).2 i := by
  rw [RamFs.freeInode_eq (h.self i hi)]
  constructor
  case other => exact fun x hx => update_of_ne hx ..
  case pool => rfl
  case used => rfl
  case data => exact hdata
  case data' => simp

theorem freeInode
    (hunbound : ∀ d, ∀ e ∈ fs.entries d, e.inode ≠ some i) :
    WellFormed (fs.freeInode (some i)).2 (i :: free) := by
  have hc := h.changes_freeInode hi hdata
  rw [RamFs.freeInode_eq (h.self i hi)] at hc ⊢
  apply h.changesInode hc
  case hunbound => exact hunbound
  case hchain =>
    refine ⟨rfl, ?_⟩
    dsimp only
    rw [update_self]
    apply h.chain.congr
    intro x hx
    have hxi : x ≠ i := fun heq => hi.2 (heq ▸ hx)
    rw [update_of_ne hxi]
  case hnodup => exact List.nodup_cons.mpr ⟨hi.2, h.nodup⟩
  case hlt => exact List.forall_mem_cons.mpr ⟨hi.1, h.lt⟩
  case huse =>
    intro x hx
    rw [inUse_cons]
    exact and_iff_right hx
  case hself => exact fun huse => absurd rfl (inUse_cons.mp huse).1
  case htype => exact fun huse => absurd rfl (inUse_cons.mp huse).1
  case hempty => simp

theorem sameFiles_freeInode : SameFiles fs (fs.freeInode (some i)).2 (InUse (i :: free)) := by
  have hother := (h.changes_freeInode hi hdata).other
  exact SameFiles.of_other hother (fun huse => (inUse_cons.mp huse).1 rfl) rfl rfl rfl rfl

end

end WellFormed

end SimpleKernel.Filesystem
