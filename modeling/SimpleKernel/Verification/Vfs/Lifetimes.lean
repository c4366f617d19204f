import Mathlib.Data.List.Count
import SimpleKernel.Verification.Vfs.Agreement

/-! The life of a directory entry: it is in a tree below a mount point or has an open file, unless
the last file of a removed entry is closed or a file system is unmounted whose root has children. -/

namespace SimpleKernel.Filesystem

open List Function

/-! ## The property and its condition -/

namespace Vfs

def InTree (v : Vfs RamFs) (d : DentryPtr) : Prop :=
  ∃ slot mp, v.mountTable.mounts slot = some mp ∧ v.family.Reaches mp.rootDentry d

/-- No directory entry is lost, every counter is the number of open files, and nothing refers to an
entry that has been freed. -/
structure EntriesKept (v : Vfs RamFs) : Prop where
  owned : ∀ d ∈ v.allocated, v.InTree d ∨ ∃ file ∈ v.files, file.dentry = d
  counted : ∀ d ∈ v.allocated, (v.dentries d).refCount = v.files.countP fun file => file.dentry = d
  files : ∀ file ∈ v.files, file.dentry ∈ v.allocated
  tree : ∀ d, v.InTree d → d ∈ v.allocated ∧ ∀ x, (v.dentries d).parent = some x ∨
    (v.dentries d).children = some x ∨ (v.dentries d).nextSibling = some x → x ∈ v.allocated

end Vfs

def MountTable.mountedOn (t : MountTable) (path : CString) : Option MountPoint :=
  (t.findPath maxMounts path).bind t.mounts

/-- A file system is unmounted when none of its files is open. -/
def VfsCall.filesClosed (v : Vfs RamFs) : VfsCall → Bool
  | .unmount (some path) => (v.mountTable.mountedOn path).all fun mp =>
    v.files.all fun file => file.inode.fs ≠ mp.filesystem
  | _ => true

/-- The call opens no entry whose counter is at its maximum, does not close the last file of an
entry that has been removed, and does not unmount a file system whose root has children in
memory. -/
def VfsCall.keepsEntries (v : Vfs RamFs) : VfsCall → Bool
  | .openFile path _ _ supply =>
    match { v with supply }.lookup ramFs path with
    | (.ok d, v') => (v'.dentries d).refCount < 2 ^ 32 - 1
    | (.error _, _) => true
  | .close ptr => (v.files.find? fun file => file.ptr = ptr).all fun file =>
    (v.dentries file.dentry).inode ≠ none || (v.dentries file.dentry).refCount ≠ 1
  | .unmount (some path) => (v.mountTable.mountedOn path).all fun mp =>
    (v.dentries mp.rootDentry).children = none
  | _ => true

namespace Vfs

variable {v v' : Vfs RamFs} {kids kids' : DentryPtr → List DentryPtr} {d c : DentryPtr}

/-! ## The invariant -/

/-- The entries with an inode are in the trees, and the others have open files. -/
structure Owned (v : Vfs RamFs) (kids : DentryPtr → List DentryPtr) : Prop extends
    Cached v kids where
  distinct : ∀ s s' mp mp', v.mountTable.mounts s = some mp → v.mountTable.mounts s' = some mp' →
    mp.filesystem = mp'.filesystem → s = s'
  rootMount : ∀ d, v.rootDentry = some d → ∃ slot mp, v.mountTable.rootMount = some slot ∧
    v.mountTable.mounts slot = some mp ∧ mp.rootDentry = d
  next : ∀ s mp, v.mountTable.mounts s = some mp → (v.dentries mp.rootDentry).nextSibling = none
  inTree : ∀ d ∈ v.allocated, ∀ i, (v.dentries d).inode = some i → v.InTree d
  counted : ∀ d ∈ v.allocated, (v.dentries d).refCount = v.files.countP fun file => file.dentry = d
  opened : ∀ file ∈ v.files, file.dentry ∈ v.allocated ∧
    ∀ i, (v.dentries file.dentry).inode = some i → i = file.inode
  removed : ∀ d ∈ v.allocated, (v.dentries d).inode = none → 0 < (v.dentries d).refCount

namespace Cached

variable (h : Cached v kids)
include h

theorem mem_of_inTree (hd : v.InTree d) : d ∈ v.allocated := by
  obtain ⟨slot, mp, hmp, hreach⟩ := hd
  exact h.family.mem_of_reaches (h.rooted slot mp hmp).mem hreach

theorem inTree_mono (h' : Cached v' kids') {K : DentryPtr → Prop}
    (hmounts : ∀ s mp, v.mountTable.mounts s = some mp → v'.mountTable.mounts s = some mp)
    (hnodes : ∀ x ∈ v.allocated, K x → x ∈ v'.allocated)
    (hkids : ∀ d c, c ∈ kids d → K c → K d ∧ c ∈ kids' d) (hd : v.InTree d)
    (hkeep : K d) : v'.InTree d := by
  obtain ⟨s, mp, hmp, hreach⟩ := hd
  exact ⟨s, mp, hmounts s mp hmp,
    h.family.reaches_of_kids h'.family (h.rooted s mp hmp).mem hnodes hkids hreach hkeep⟩

theorem inTree_of_mem_kids (hd : v.InTree d) (hc : c ∈ kids d) : v.InTree c := by
  have hmem := h.mem_of_inTree hd
  obtain ⟨s, mp, hmp, hreach⟩ := hd
  exact ⟨s, mp, hmp, .child hreach ((h.family.isChild_iff hmem).mpr hc)⟩

theorem fs_of_reaches {root : DentryPtr} {f : FsPtr} {i : InodePtr}
    (hroot : root ∈ v.allocated) (hi : (v.dentries root).inode = some ⟨f, i⟩)
    (hd : v.family.Reaches root d) : ∃ j, (v.dentries d).inode = some ⟨f, j⟩ := by
  induction hd with
  | root => exact ⟨i, hi⟩
  | @child d c hd hchild ih =>
    obtain ⟨j, hj⟩ := ih
    have hmem := h.family.mem_of_reaches hroot hd
    obtain ⟨g, _, k, hg, hk, -⟩ := h.bound d c ((h.family.isChild_iff hmem).mp hchild)
    rw [hj] at hg
    cases hg
    exact ⟨k, hk⟩

theorem inode_of_inTree (hd : v.InTree d) : ∃ i, (v.dentries d).inode = some i := by
  obtain ⟨slot, mp, hmp, hreach⟩ := hd
  obtain ⟨i, hi⟩ := h.fs_of_reaches (h.rooted slot mp hmp).mem (h.rooted slot mp hmp).inode hreach
  exact ⟨_, hi⟩

end Cached

namespace Owned

variable (h : Owned v kids)
include h

theorem entriesKept : v.EntriesKept := by
  constructor
  case owned =>
    intro d hd
    cases hi : (v.dentries d).inode with
    | none =>
      right
      have hpos := h.removed d hd hi
      rw [h.counted d hd, countP_pos_iff] at hpos
      obtain ⟨file, hfile, heq⟩ := hpos
      exact ⟨file, hfile, of_decide_eq_true heq⟩
    | some i => exact .inl (h.inTree d hd i hi)
  case counted => exact h.counted
  case files => exact fun file hfile => (h.opened file hfile).1
  case tree =>
    intro d hd
    have hmem := h.mem_of_inTree hd
    refine ⟨hmem, ?_⟩
    rintro x (hx | hx | hx)
    · exact h.family.parent_mem hmem hx
    · exact h.family.children_mem hmem hx
    · cases hparent : (v.dentries d).parent with
      | none =>
        obtain ⟨i, hi⟩ := h.inode_of_inTree hd
        obtain ⟨s, mp, hmp, rfl⟩ := h.top d hmem i hi hparent
        rw [h.next s mp hmp] at hx
        cases hx
      | some p => exact h.family.nextSibling_mem hmem hparent hx

theorem countP_of_notMem (hd : d ∉ v.allocated) :
    v.files.countP (fun file => file.dentry = d) = 0 := by
  rw [countP_eq_zero]
  intro file hfile heq
  exact hd (of_decide_eq_true heq ▸ (h.opened file hfile).1)

/-! ## Changes without new or removed entries -/

theorem setFs {f : FsPtr} {fs : RamFs}
    (hcached : Cached (v.setFs f fs) kids) : Owned (v.setFs f fs) kids :=
  ⟨hcached, h.distinct, h.rootMount, h.next, h.inTree, h.counted, h.opened, h.removed⟩

theorem of_supply (supply : List (Option DentryPtr)) : Owned { v with supply } kids :=
  ⟨h.toCached.of_supply supply, h.distinct, h.rootMount, h.next, h.inTree, h.counted, h.opened,
    h.removed⟩

theorem untouched (hu : Untouched v v') : Owned v' kids := by
  have hcached := h.toCached.untouched hu
  constructor
  case toCached => exact hcached
  case distinct => exact hu.table ▸ h.distinct
  case rootMount =>
    rw [hu.root, hu.table]
    exact h.rootMount
  case next =>
    intro s mp hmp
    rw [hu.table] at hmp
    rw [hu.dentries _ (h.rooted s mp hmp).mem]
    exact h.next s mp hmp
  case inTree =>
    intro d hd i hi
    rw [hu.allocated] at hd
    rw [hu.dentries d hd] at hi
    refine h.inTree_mono hcached (K := fun _ => True) ?_ ?_ ?_ (h.inTree d hd i hi) trivial
    · exact hu.table ▸ fun _ _ hmp => hmp
    · exact fun x hx _ => hu.allocated ▸ hx
    · exact fun _ _ hc _ => ⟨trivial, hc⟩
  case counted =>
    intro d hd
    rw [hu.allocated] at hd
    rw [hu.files, hu.dentries d hd]
    exact h.counted d hd
  case opened =>
    intro file hfile
    rw [hu.files] at hfile
    obtain ⟨hmem, hinode⟩ := h.opened file hfile
    rw [hu.allocated, hu.dentries _ hmem]
    exact ⟨hmem, hinode⟩
  case removed =>
    intro d hd
    rw [hu.allocated] at hd
    rw [hu.dentries d hd]
    exact h.removed d hd

/-! ## Open and Close -/

theorem setRefCount {n : ℕ} {files : List OpenFile}
    (hn : d ∈ v.allocated → n = files.countP fun file => file.dentry = d)
    (hother : ∀ x, x ≠ d → files.countP (fun file => file.dentry = x) =
      v.files.countP fun file => file.dentry = x)
    (hopened : ∀ file ∈ files, file.dentry ∈ v.allocated ∧
      ∀ i, (v.dentries file.dentry).inode = some i → i = file.inode)
    (hremoved : d ∈ v.allocated → (v.dentries d).inode = none → 0 < n) :
    Owned { v with
      dentries := update v.dentries d { v.dentries d with refCount := n }, files } kids := by
  have hinode := proj_of_refCount (v := v) (d := d) (n := n) (·.inode) (by intro; rfl)
  have hnext := proj_of_refCount (v := v) (d := d) (n := n) (·.nextSibling) (by intro; rfl)
  have hfamily : Vfs.family { v with
      dentries := update v.dentries d { v.dentries d with refCount := n }, files } = v.family := by
    simp only [Vfs.family, Family.mk.injEq]
    exact ⟨funext (proj_of_refCount (·.parent) (by intro; rfl)),
      funext (proj_of_refCount (·.children) (by intro; rfl)), funext hnext⟩
  constructor
  case toCached => exact h.toCached.setRefCount d n files
  case distinct => exact h.distinct
  case rootMount => exact h.rootMount
  case next => exact fun s mp hmp => (hnext _).trans (h.next s mp hmp)
  case inTree =>
    intro x hx i hi
    rw [InTree, hfamily]
    exact h.inTree x hx i ((hinode x).symm.trans hi)
  case counted =>
    intro x hx
    dsimp only
    by_cases hxd : x = d
    · subst hxd
      rw [update_self]
      exact hn hx
    · rw [update_of_ne hxd, hother x hxd]
      exact h.counted x hx
  case opened =>
    intro file hfile
    obtain ⟨hmem, hinode'⟩ := hopened file hfile
    exact ⟨hmem, fun i hi => hinode' i ((hinode _).symm.trans hi)⟩
  case removed =>
    intro x hx hi
    replace hi := (hinode x).symm.trans hi
    dsimp only
    by_cases hxd : x = d
    · subst hxd
      rw [update_self]
      exact hremoved hx hi
    · rw [update_of_ne hxd]
      exact h.removed x hx hi

theorem opened_file {file : OpenFile} (hd : file.dentry ∈ v.allocated)
    (hcount : (v.dentries file.dentry).refCount < 2 ^ 32 - 1) (ho : Opened v v' file) :
    Owned v' kids := by
  have hmod : ((v.dentries file.dentry).refCount + 1) % 2 ^ 32 =
      (v.dentries file.dentry).refCount + 1 := Nat.mod_eq_of_lt (by omega)
  rw [ho.rest, ho.dentries, ho.files, hmod]
  apply h.setRefCount
  · intro _
    rw [countP_cons_of_pos (by simp), h.counted _ hd]
  · intro x hx
    exact countP_cons_of_neg (by simpa using Ne.symm hx)
  · intro g hg
    rcases mem_cons.mp hg with rfl | hg
    · refine ⟨hd, ?_⟩
      intro i hi
      rw [ho.inode] at hi
      exact (Option.some.inj hi).symm
    · exact h.opened g hg
  · intro _ _
    exact Nat.succ_pos _

theorem closed_file {file : OpenFile} (hfile : file ∈ v.files)
    (hlast : (v.dentries file.dentry).inode ≠ none ∨ (v.dentries file.dentry).refCount ≠ 1)
    (hc : Closed v v' file) : Owned v' kids := by
  rw [hc.rest, hc.dentries, hc.files]
  apply h.setRefCount
  · intro hd
    rw [countP_erase, if_pos ⟨hfile, decide_eq_true rfl⟩, h.counted _ hd]
  · intro x hx
    rw [countP_erase, if_neg, Nat.sub_zero]
    rintro ⟨-, heq⟩
    exact hx (of_decide_eq_true heq).symm
  · exact fun g hg => h.opened g (mem_of_mem_erase hg)
  · intro hd hi
    have hpos := h.removed _ hd hi
    have hne := hlast.resolve_left (not_not.mpr hi)
    omega

/-! ## New entries -/

theorem added {name : CString} {inode i : InodeRef} (hd : d ∈ v.allocated)
    (hinode : (v.dentries d).inode = some inode) (ha : AddedDentry v v' d name (some i) c)
    (hcached : Cached v' (update kids d (c :: kids d))) :
    Owned v' (update kids d (c :: kids d)) := by
  have hne : ∀ x ∈ v.allocated, x ≠ c := by
    rintro x hx rfl
    exact ha.fresh hx
  have htree : ∀ {x}, v.InTree x → v'.InTree x := by
    intro x hx
    refine h.inTree_mono hcached (K := fun _ => True) ?_ ?_ ?_ hx trivial
    · exact ha.table ▸ fun _ _ hmp => hmp
    · exact fun x hx _ => ha.allocated ▸ .tail _ hx
    · intro x y hy _
      refine ⟨trivial, ?_⟩
      by_cases hxd : x = d
      · subst hxd
        rw [update_self]
        exact .tail _ hy
      · rw [update_of_ne hxd]
        exact hy
  constructor
  case toCached => exact hcached
  case distinct => exact ha.table ▸ h.distinct
  case rootMount =>
    rw [ha.root, ha.table]
    exact h.rootMount
  case next =>
    intro s mp hmp
    rw [ha.table] at hmp
    have hmem := (h.rooted s mp hmp).mem
    exact (ha.added.nextSibling_of_ne _ (hne _ hmem)).trans (h.next s mp hmp)
  case inTree =>
    intro x hx j hj
    rw [ha.allocated] at hx
    rcases mem_cons.mp hx with rfl | hx
    · apply hcached.inTree_of_mem_kids (htree (h.inTree d hd inode hinode))
      rw [update_self]
      exact .head _
    · rw [ha.inode_of_ne x (hne x hx)] at hj
      exact htree (h.inTree x hx j hj)
  case counted =>
    intro x hx
    rw [ha.allocated] at hx
    rw [ha.files]
    rcases mem_cons.mp hx with rfl | hx
    · rw [ha.refCount, h.countP_of_notMem ha.fresh]
    · rw [ha.refCount_of_ne x (hne x hx)]
      exact h.counted x hx
  case opened =>
    intro file hfile
    rw [ha.files] at hfile
    obtain ⟨hmem, hopened⟩ := h.opened file hfile
    rw [ha.allocated, ha.inode_of_ne _ (hne _ hmem)]
    exact ⟨.tail _ hmem, hopened⟩
  case removed =>
    intro x hx hnone
    rw [ha.allocated] at hx
    rcases mem_cons.mp hx with rfl | hx
    · rw [ha.inode] at hnone
      cases hnone
    rw [ha.inode_of_ne x (hne x hx)] at hnone
    rw [ha.refCount_of_ne x (hne x hx)]
    exact h.removed x hx hnone

theorem mounted {mp : MountPoint} {slot : ℕ} (hm : MountedRoot v v' mp slot) : Owned v' kids := by
  have hcached := h.toCached.mounted hm
  have hne : ∀ x ∈ v.allocated, x ≠ mp.rootDentry := by
    rintro x hx rfl
    exact hm.fresh hx
  have hdentries : ∀ x ∈ v.allocated, v'.dentries x = v.dentries x := fun x hx =>
    hm.dentries_of_ne x (hne x hx)
  have hold : ∀ s p, v.mountTable.mounts s = some p → v'.mountTable.mounts s = some p :=
    fun _ _ hp => hm.filled.mounts_of_some hp
  constructor
  case toCached => exact hcached
  case distinct =>
    have hidle : ∀ s p, v.mountTable.mounts s = some p → p.filesystem ≠ mp.filesystem := by
      intro s p hp
      exact h.ne_of_idle hm.idle (h.rooted s p hp).mem (h.rooted s p hp).inode
    intro s s' p p' hp hp' heq
    rcases hm.filled.cases hp with ⟨rfl, rfl⟩ | hp
    · rcases hm.filled.cases hp' with ⟨rfl, rfl⟩ | hp'
      · rfl
      · exact absurd heq.symm (hidle s' p' hp')
    rcases hm.filled.cases hp' with ⟨rfl, rfl⟩ | hp'
    · exact absurd heq (hidle s p hp)
    · exact h.distinct s s' p p' hp hp' heq
  case rootMount =>
    intro d hd
    rw [hm.filled.rootDentry] at hd
    rw [hm.filled.root]
    split_ifs at hd with hroot
    · cases hd
      rw [if_pos hroot]
      exact ⟨slot, mp, rfl, hm.filled.mounts_self, rfl⟩
    rw [if_neg hroot]
    obtain ⟨s, p, hs, hp, hpd⟩ := h.rootMount d hd
    exact ⟨s, p, hs, hold s p hp, hpd⟩
  case next =>
    intro s p hp
    rcases hm.filled.cases hp with ⟨rfl, rfl⟩ | hp
    · rw [hm.entry]
    · rw [hdentries _ (h.rooted s p hp).mem]
      exact h.next s p hp
  case inTree =>
    intro x hx i hi
    rw [hm.allocated] at hx
    rcases mem_cons.mp hx with rfl | hx
    · exact ⟨slot, mp, hm.filled.mounts_self, .root⟩
    rw [hdentries x hx] at hi
    refine h.inTree_mono hcached (K := fun _ => True) hold ?_ ?_ (h.inTree x hx i hi) trivial
    · exact fun y hy _ => hm.allocated ▸ .tail _ hy
    · exact fun _ _ hc _ => ⟨trivial, hc⟩
  case counted =>
    intro x hx
    rw [hm.allocated] at hx
    rw [hm.files]
    rcases mem_cons.mp hx with rfl | hx
    · rw [hm.entry, h.countP_of_notMem hm.fresh]
    · rw [hdentries x hx]
      exact h.counted x hx
  case opened =>
    intro file hfile
    rw [hm.files] at hfile
    obtain ⟨hmem, hopened⟩ := h.opened file hfile
    rw [hm.allocated, hdentries _ hmem]
    exact ⟨.tail _ hmem, hopened⟩
  case removed =>
    intro x hx hnone
    rw [hm.allocated] at hx
    rcases mem_cons.mp hx with rfl | hx
    · rw [hm.entry] at hnone
      cases hnone
    · rw [hdentries x hx] at hnone ⊢
      exact h.removed x hx hnone

/-! ## Removed entries -/

theorem dropped {f : FsPtr} {fs : RamFs} (hc : c ∈ kids d)
    (hleaf : kids c = []) (hdrop : DroppedDentry (v.setFs f fs) v' kids d c)
    (hcached : Cached v' (update kids d ((kids d).erase c))) :
    Owned v' (update kids d ((kids d).erase c)) := by
  have hmem := (h.family.mem_of_mem_kids hc).1
  constructor
  case toCached => exact hcached
  case distinct => exact hdrop.table ▸ h.distinct
  case rootMount =>
    rw [hdrop.root, hdrop.table]
    exact h.rootMount
  case next =>
    intro s mp hmp
    rw [hdrop.table] at hmp
    refine (hdrop.removed.nextSibling_of_ne _ ?_).trans (h.next s mp hmp)
    intro hparent
    have hnone := (h.rooted s mp hmp).parent
    cases hnone.symm.trans hparent
  case inTree =>
    intro x hx i hi
    obtain ⟨hxc, hi⟩ := hdrop.inode_eq_some h.nodup hx hi
    have htree := h.inTree x (hdrop.mem_of_mem hx) i hi
    refine h.inTree_mono hcached (K := fun y => y ≠ c) ?_ ?_ ?_ htree hxc
    · exact hdrop.table ▸ fun _ _ hmp => hmp
    · exact fun y hy hyc => hdrop.mem_of_ne hy hyc
    · intro y z hz hzc
      constructor
      · rintro rfl
        rw [hleaf] at hz
        cases hz
      · by_cases hyd : y = d
        · subst hyd
          rw [update_self, mem_erase_of_ne hzc]
          exact hz
        · rw [update_of_ne hyd]
          exact hz
  case counted =>
    intro x hx
    rw [hdrop.files, hdrop.refCount]
    exact h.counted x (hdrop.mem_of_mem hx)
  case opened =>
    intro file hfile
    rw [hdrop.files] at hfile
    obtain ⟨hfmem, hopened⟩ := h.opened file hfile
    by_cases hfc : file.dentry = c
    · have hpos : 0 < (v.dentries c).refCount := by
        rw [h.counted c hmem, countP_pos_iff]
        exact ⟨file, hfile, decide_eq_true hfc⟩
      have hallocated : v'.allocated = v.allocated := hdrop.allocated.trans (if_pos hpos)
      rw [hallocated, hfc, hdrop.inode hpos]
      exact ⟨hmem, nofun⟩
    · rw [hdrop.inode_of_ne _ hfc]
      exact ⟨hdrop.mem_of_ne hfmem hfc, hopened⟩
  case removed =>
    intro x hx hnone
    rw [hdrop.refCount]
    by_cases hxc : x = c
    · subst hxc
      exact hdrop.refCount_pos h.nodup hx
    · rw [hdrop.inode_of_ne x hxc] at hnone
      exact h.removed x (hdrop.mem_of_mem hx) hnone

end Owned

/-! ## Unmount -/

/-- A file system has lost its mount point, and the entry for its root is freed. -/
structure UnmountedRoot (v v' : Vfs RamFs) (mp : MountPoint) (slot : ℕ) : Prop where
  idle : (v'.fileSystems mp.filesystem).Idle
  fileSystems_of_ne : ∀ f, f ≠ mp.filesystem → v'.fileSystems f = v.fileSystems f
  allocated : v'.allocated = v.allocated.erase mp.rootDentry
  dentries : v'.dentries = v.dentries
  files : v'.files = v.files
  cleared : Cleared v v' mp slot

theorem clearSlot_eq (v : Vfs RamFs) (slot : ℕ) (mp : MountPoint) :
    v.clearSlot slot mp = { v with
      allocated := v.allocated.erase mp.rootDentry
      mountTable := (v.clearSlot slot mp).mountTable
      rootDentry := (v.clearSlot slot mp).rootDentry } := by
  unfold clearSlot
  dsimp [freeDentry]
  split
  · rfl
  · rfl

theorem unmount_outcome (h : ∀ slot mp, v.mountTable.mounts slot = some mp →
    (v.fileSystems mp.filesystem).Served) (path : Option CString) :
    (v.unmount ramFs path).2 = v ∨ ∃ p mp slot, path = some p ∧
      v.mountTable.mountedOn p = some mp ∧ UnmountedRoot v (v.unmount ramFs path).2 mp slot := by
  unfold unmount
  split
  · exact .inl rfl
  rename_i path
  split
  · exact .inl rfl
  rename_i slot hfind
  split
  · exact .inl rfl
  rename_i mp hmp
  obtain ⟨fs, hunmount, hidle⟩ := (h slot mp hmp).unmount
  have hop : ramFs.unmount (v.fileSystems mp.filesystem) = (.ok (), fs) := hunmount
  right
  refine ⟨path, mp, slot, rfl, ?_, ?_⟩
  · rw [MountTable.mountedOn, hfind]
    exact hmp
  · rw [hop]
    dsimp only
    have heq := clearSlot_eq (v.setFs mp.filesystem fs) slot mp
    obtain ⟨hpoint, hmounts, hcount, hroot, hdentry⟩ :=
      clearSlot_cleared (v.setFs mp.filesystem fs) hmp
    constructor
    case idle =>
      rw [heq]
      rw [fileSystems_setFs_self]
      exact hidle
    case fileSystems_of_ne =>
      intro f hf
      rw [heq]
      exact fileSystems_setFs_of_ne v hf fs
    case cleared => exact ⟨hpoint, hmounts, hcount, hroot, hdentry⟩
    all_goals
      rw [heq]
      rfl

namespace Owned

theorem eq_rootDentry {mp : MountPoint} {slot : ℕ} {i : InodeRef} (h : Owned v kids)
    (hmp : v.mountTable.mounts slot = some mp) (hleaf : kids mp.rootDentry = [])
    (hd : d ∈ v.allocated) (hi : (v.dentries d).inode = some i) (hfs : i.fs = mp.filesystem) :
    d = mp.rootDentry := by
  obtain ⟨s, p, hp, hreach⟩ := h.inTree d hd i hi
  obtain ⟨j, hj⟩ := h.fs_of_reaches (h.rooted s p hp).mem (h.rooted s p hp).inode hreach
  rw [hi] at hj
  cases hj
  obtain rfl := h.distinct s slot p mp hp hmp hfs
  obtain rfl := Option.some.inj (hp.symm.trans hmp)
  exact h.family.eq_of_reaches (h.rooted s p hp).mem hleaf hreach

theorem unmounted {mp : MountPoint} {slot : ℕ} (h : Owned v kids)
    (hu : UnmountedRoot v v' mp slot) (hleaf : (v.dentries mp.rootDentry).children = none)
    (hclosed : ∀ file ∈ v.files, file.inode.fs ≠ mp.filesystem) : Owned v' kids := by
  have hmp := hu.cleared.point
  have hroot := h.rooted slot mp hmp
  have hkids : kids mp.rootDentry = [] := (h.family.children_eq_none_iff hroot.mem).mp hleaf
  have hmem : ∀ {x}, x ∈ v'.allocated ↔ x ≠ mp.rootDentry ∧ x ∈ v.allocated := by
    rw [hu.allocated]
    exact h.nodup.mem_erase_iff
  have hfamily : v'.family = v.family := by simp [Vfs.family, hu.dentries]
  have hfs : ∀ x ∈ v'.allocated, ∀ i, (v.dentries x).inode = some i →
      v'.fileSystems i.fs = v.fileSystems i.fs := by
    intro x hx i hi
    refine hu.fileSystems_of_ne i.fs fun heq => ?_
    exact (hmem.mp hx).1 (h.eq_rootDentry hmp hkids (hmem.mp hx).2 hi heq)
  have hother : ∀ {s p}, v'.mountTable.mounts s = some p → p.rootDentry ≠ mp.rootDentry := by
    intro s p hp heq
    obtain ⟨hs, hp⟩ := hu.cleared.mounts_iff.mp hp
    have hi := (h.rooted s p hp).inode
    rw [heq, hroot.inode, Option.some.injEq, InodeRef.mk.injEq] at hi
    exact hs (h.distinct s slot p mp hp hmp hi.1.symm)
  have hkept : ∀ {s p}, v.mountTable.mounts s = some p → p.rootDentry ≠ mp.rootDentry →
      v'.mountTable.mounts s = some p := by
    intro s p hp hne
    refine hu.cleared.mounts_iff.mpr ⟨?_, hp⟩
    rintro rfl
    rw [hmp] at hp
    cases hp
    exact hne rfl
  have hrootMount : ∀ x, v'.rootDentry = some x → ∃ s p, v'.mountTable.rootMount = some s ∧
      v'.mountTable.mounts s = some p ∧ p.rootDentry = x := by
    intro x hx
    rw [hu.cleared.rootDentry] at hx
    rw [hu.cleared.root]
    split at hx
    · cases hx
    rename_i hne
    rw [if_neg hne]
    obtain ⟨s, p, hs, hp, hpx⟩ := h.rootMount x hx
    refine ⟨s, p, hs, hu.cleared.mounts_iff.mpr ⟨?_, hp⟩, hpx⟩
    rintro rfl
    exact hne hs
  have hcached : Cached v' kids := by
    constructor
    case nodup => exact hu.allocated ▸ h.nodup.erase _
    case family =>
      rw [hfamily, hu.allocated]
      exact h.family.erase h.nodup hroot.parent hkids
    case named => exact hu.dentries ▸ h.named
    case bound =>
      intro x y hy
      have hx : x ∈ v'.allocated := by
        refine hmem.mpr ⟨?_, (h.family.mem_of_mem_kids hy).2⟩
        rintro rfl
        rw [hkids] at hy
        cases hy
      obtain ⟨f, i, j, hi, hj, hb⟩ := h.bound x y hy
      have hf : v'.fileSystems f = v.fileSystems f := hfs x hx _ hi
      rw [Bound, hu.dentries]
      refine ⟨f, i, j, hi, hj, ?_⟩
      rw [hf]
      exact hb
    case once =>
      rw [hu.dentries]
      exact fun x hx x' hx' => h.once x (hmem.mp hx).2 x' (hmem.mp hx').2
    case top =>
      rw [hu.dentries]
      intro x hx i hi hnone
      obtain ⟨s, p, hp, rfl⟩ := h.top x (hmem.mp hx).2 i hi hnone
      exact ⟨s, p, hkept hp (hmem.mp hx).1, rfl⟩
    case rooted =>
      intro s p hp
      obtain ⟨hpmem, hnone, hi⟩ := h.rooted s p (hu.cleared.mounts_iff.mp hp).2
      rw [← hu.dentries] at hnone hi
      exact ⟨hmem.mpr ⟨hother hp, hpmem⟩, hnone, hi⟩
    case served =>
      rw [hu.dentries]
      intro x hx i hi
      rw [hfs x hx i hi]
      exact h.served x (hmem.mp hx).2 i hi
    case idle =>
      intro f
      by_cases hf : f = mp.filesystem
      · rw [hf]
        exact .inr hu.idle
      · rw [hu.fileSystems_of_ne f hf]
        exact h.idle f
    case root =>
      intro x hx
      obtain ⟨s, p, -, hp⟩ := hrootMount x hx
      exact ⟨s, p, hp⟩
  constructor
  case toCached => exact hcached
  case distinct =>
    intro s s' p p' hp hp'
    exact h.distinct s s' p p' (hu.cleared.mounts_iff.mp hp).2 (hu.cleared.mounts_iff.mp hp').2
  case rootMount => exact hrootMount
  case next =>
    rw [hu.dentries]
    exact fun s p hp => h.next s p (hu.cleared.mounts_iff.mp hp).2
  case inTree =>
    rw [hu.dentries]
    intro x hx i hi
    obtain ⟨s, p, hp, hreach⟩ := h.inTree x (hmem.mp hx).2 i hi
    refine ⟨s, p, hkept hp fun heq => ?_, hfamily ▸ hreach⟩
    exact (hmem.mp hx).1 (h.family.eq_of_reaches hroot.mem hkids (heq ▸ hreach))
  case counted =>
    rw [hu.dentries, hu.files]
    exact fun x hx => h.counted x (hmem.mp hx).2
  case opened =>
    rw [hu.dentries, hu.files]
    intro file hfile
    obtain ⟨hfmem, hopened⟩ := h.opened file hfile
    refine ⟨hmem.mpr ⟨?_, hfmem⟩, hopened⟩
    intro heq
    rw [heq] at hopened
    exact hclosed file hfile (congrArg InodeRef.fs (hopened _ hroot.inode)).symm
  case removed =>
    rw [hu.dentries]
    exact fun x hx => h.removed x (hmem.mp hx).2

end Owned

/-! ## Runs -/

theorem refCount_of_addDentry {name : CString} {inode : Option InodeRef} {parent : DentryPtr}
    (h : v.addDentry parent name inode = (some d, v')) : (v'.dentries d).refCount = 0 := by
  unfold addDentry at h
  rcases v.allocDentry_cases with ⟨supply, heq⟩ | ⟨x, supply, -, heq⟩
  · rw [heq] at h
    cases h
  rw [heq] at h
  cases h
  simp only [addChild]
  refine (setDentry_proj (·.refCount) (by intro; rfl) _ parent d).trans ?_
  refine (setDentry_proj (·.refCount) (by intro; rfl) _ d d).trans ?_
  refine (setDentry_proj (·.refCount) (by intro; rfl) _ d d).trans ?_
  simp

theorem refCount_of_createFile {path : CString} (h : v.createFile ramFs path = (.ok d, v')) :
    (v'.dentries d).refCount = 0 := by
  unfold createFile makeEntry at h
  repeat' split at h
  all_goals cases h
  rename_i hadd
  exact refCount_of_addDentry hadd

theorem owned_kept : Kept Owned where
  cached h := h.toCached
  setFs h := h.setFs
  supply h := h.of_supply
  added h := h.added
  dropped h := h.dropped
  untouched h := h.untouched
  mounted h := h.mounted

theorem Owned.step {call : VfsCall} (h : Owned v kids) (hclosed : call.filesClosed v = true)
    (hkeeps : call.keepsEntries v = true) (hs : v.step ramFs call = some v') :
    ∃ kids', Owned v' kids' := by
  refine owned_kept.step h hs ?_ ?_ ?_
  · rintro path rfl
    cases hs
    have hserved : ∀ slot mp, v.mountTable.mounts slot = some mp →
        (v.fileSystems mp.filesystem).Served := fun slot mp hmp =>
      h.served _ (h.rooted slot mp hmp).mem _ (h.rooted slot mp hmp).inode
    rcases unmount_outcome hserved path with heq | ⟨p, mp, slot, rfl, hmounted, hunmounted⟩
    · rw [heq]
      exact ⟨kids, h⟩
    simp only [VfsCall.filesClosed, hmounted, Option.all_some, all_eq_true,
      decide_eq_true_eq] at hclosed
    simp only [VfsCall.keepsEntries, hmounted, Option.all_some, decide_eq_true_eq] at hkeeps
    exact ⟨kids, h.unmounted hunmounted hkeeps hclosed⟩
  · rintro path flags file supply rfl
    cases hs
    refine owned_kept.rule.openFile path flags file ⟨kids, h.of_supply supply⟩ ?_
    rintro v₁ d ⟨kids₁, h₁⟩ hlive hfrom
    have hcount : (v₁.dentries d).refCount < 2 ^ 32 - 1 := by
      rcases hfrom with hlookup | ⟨v₀, p, hcreate⟩
      · rw [VfsCall.keepsEntries, hlookup] at hkeeps
        exact of_decide_eq_true hkeeps
      · rw [refCount_of_createFile hcreate]
        decide
    rcases v₁.openDentry_cases d flags file with heq | ⟨file, rfl, hopened⟩
    · rw [heq]
      exact ⟨kids₁, h₁⟩
    · exact ⟨kids₁, h₁.opened_file hlive.1 hcount hopened⟩
  · rintro ptr rfl
    obtain ⟨file, hfind, rfl⟩ := Option.map_eq_some_iff.mp hs
    have hmem := mem_of_find?_eq_some hfind
    simp only [VfsCall.keepsEntries, hfind, Option.all_some, Bool.or_eq_true,
      decide_eq_true_eq] at hkeeps
    exact ⟨kids, h.closed_file hmem hkeeps (v.close_closed file)⟩

theorem owned_init : Owned { fileSystems := fun _ => {} } fun _ => [] := by
  constructor
  case toCached => exact cached_init
  all_goals exact nofun

end Vfs

variable {v : Vfs RamFs}

/-- No directory entry is lost and none is freed too early, in every run in which no counter
overflows, no last file of a removed entry is closed and no file system is unmounted whose root has
children in memory. -/
theorem entries_kept (h : (vfsSystem ramFs fun _ => {}).ReachableBy
    (fun v call => call.filesClosed v = true ∧ call.keepsEntries v = true) v) :
    v.EntriesKept := by
  have howned : ∃ kids, v.Owned kids := by
    refine h.invariant (P := fun v => ∃ kids, v.Owned kids) ?_ ?_
    · rintro _ rfl
      exact ⟨_, Vfs.owned_init⟩
    · rintro v call v' ⟨kids, howned⟩ ⟨hclosed, hkeeps⟩ hs
      exact howned.step hclosed hkeeps hs
  obtain ⟨kids, howned⟩ := howned
  exact howned.entriesKept

/-- A file is opened twice and removed, and one of the two is closed. -/
theorem entries_kept_unlinked : ∃ v : Vfs RamFs, (vfsSystem ramFs fun _ => {}).ReachableBy
    (fun v call => call.filesClosed v = true ∧ call.keepsEntries v = true) v ∧
      v.allocated = [1, 0] ∧ v.files.length = 1 ∧ v.EntriesKept := by
  obtain ⟨v, hr, hallocated, hfiles⟩ := (vfsSystem ramFs fun _ => {}).exists_of_run
    (fun v call => call.filesClosed v = true ∧ call.keepsEntries v = true)
    [.init, .mount (some [47]) (some 0) none [some 0],
      .openFile (some [47, 102]) oCreate (some 7) [some 1],
      .openFile (some [47, 102]) 0 (some 8) [], .unlink (some [47, 102]) [], .close 7]
    (fun v => v.allocated = [1, 0] ∧ v.files.length = 1) rfl (by decide +kernel)
  exact ⟨v, hr, hallocated, hfiles, entries_kept hr⟩

/-- A file is created, removed and then closed: nothing leads to its entry, and it is not freed. -/
theorem removed_entry_leaks : ∃ v : Vfs RamFs, (vfsSystem ramFs fun _ => {}).ReachableBy
    (fun v call => call.filesClosed v = true) v ∧ ¬ v.EntriesKept := by
  obtain ⟨v, hr, hmem, hfiles, hinode⟩ := (vfsSystem ramFs fun _ => {}).exists_of_run
    (fun v call => call.filesClosed v = true ∧ call.isUnmount = false)
    [.init, .mount (some [47]) (some 0) none [some 0],
      .openFile (some [47, 102]) oCreate (some 7) [some 1], .unlink (some [47, 102]) [], .close 7]
    (fun v => 1 ∈ v.allocated ∧ v.files = [] ∧ (v.dentries 1).inode = none) rfl
    (by decide +kernel)
  refine ⟨v, .mono (fun _ _ h => h.1) hr, ?_⟩
  intro hkept
  rcases hkept.owned 1 hmem with htree | ⟨file, hfile, -⟩
  · obtain ⟨kids, hcached⟩ := Vfs.cached_of_reachableBy (.mono (fun _ _ h => h.2) hr)
    obtain ⟨i, hi⟩ := hcached.inode_of_inTree htree
    rw [hinode] at hi
    cases hi
  · rw [hfiles] at hfile
    cases hfile

end SimpleKernel.Filesystem
