import SimpleKernel.Verification.Vfs.Calls
import SimpleKernel.Verification.Vfs.Dentries
import SimpleKernel.Verification.Vfs.Served

/-! The directory entries in memory agree with the directories of the file systems. -/

namespace SimpleKernel.Filesystem.Vfs

open List Function

variable {v v' : Vfs RamFs} {kids : DentryPtr → List DentryPtr} {d c : DentryPtr}
  {inode : InodeRef} {name : CString}

/-! ## The invariant -/

def Bound (v : Vfs RamFs) (d c : DentryPtr) : Prop :=
  ∃ f i j, (v.dentries d).inode = some ⟨f, i⟩ ∧ (v.dentries c).inode = some ⟨f, j⟩ ∧
    (v.fileSystems f).tree.bind i (v.dentries c).name = some j

/-- The root of a mount point is an entry without a parent, for the root of its file system. -/
structure Rooted (v : Vfs RamFs) (mp : MountPoint) : Prop where
  mem : mp.rootDentry ∈ v.allocated
  parent : (v.dentries mp.rootDentry).parent = none
  inode : (v.dentries mp.rootDentry).inode = some ⟨mp.filesystem, 0⟩

/-- The entries with an inode are trees below the roots of the mount points, without two entries for
one inode; the others are the ones that have been removed. -/
structure Cached (v : Vfs RamFs) (kids : DentryPtr → List DentryPtr) : Prop where
  nodup : v.allocated.Nodup
  family : v.family.WellFormed v.allocated kids
  named : ∀ d, ∀ c ∈ kids d, ∀ c' ∈ kids d, (v.dentries c).name = (v.dentries c').name → c = c'
  bound : ∀ d, ∀ c ∈ kids d, v.Bound d c
  once : ∀ d ∈ v.allocated, ∀ d' ∈ v.allocated, ∀ i, (v.dentries d).inode = some i →
    (v.dentries d').inode = some i → d = d'
  top : ∀ d ∈ v.allocated, ∀ i, (v.dentries d).inode = some i → (v.dentries d).parent = none →
    ∃ slot mp, v.mountTable.mounts slot = some mp ∧ mp.rootDentry = d
  rooted : ∀ slot mp, v.mountTable.mounts slot = some mp → v.Rooted mp
  served : ∀ d ∈ v.allocated, ∀ i, (v.dentries d).inode = some i → (v.fileSystems i.fs).Served
  idle : ∀ f, (v.fileSystems f).Served ∨ (v.fileSystems f).Idle
  root : ∀ d, v.rootDentry = some d → ∃ slot mp, v.mountTable.mounts slot = some mp ∧
    mp.rootDentry = d

/-- An entry in memory that has not been removed. -/
def Live (v : Vfs RamFs) (d : DentryPtr) : Prop :=
  d ∈ v.allocated ∧ ∃ i, (v.dentries d).inode = some i

theorem Asked.call {r : Expected (Option InodePtr) × RamFs} (h : Asked ramFs v d inode name r) :
    ∃ call : Call, call.dir = some inode.ptr ∧ call.name = some name ∧
      call.exec (v.fileSystems inode.fs) = r ∧
      (call = .lookup (some inode.ptr) (some name) ∧ v.findChild d name = none ∨
        ∃ t, call.creates = some t) := by
  cases h with
  | lookup hfind => exact ⟨.lookup (some inode.ptr) (some name), rfl, rfl, rfl, .inl ⟨rfl, hfind⟩⟩
  | create =>
    exact ⟨.create (some inode.ptr) (some name) .regular, rfl, rfl, rfl, .inr ⟨_, rfl⟩⟩
  | mkdir hfind => exact ⟨.mkdir (some inode.ptr) (some name), rfl, rfl, rfl, .inr ⟨_, rfl⟩⟩

theorem Removing.call {r : Expected Unit × RamFs} (h : Removing ramFs v c inode name r)
    (hcached : Cached v kids) (hc : c ∈ v.allocated) :
    ∃ call : Call, call.dir = some inode.ptr ∧ call.name = some name ∧
      call.exec (v.fileSystems inode.fs) = r.map (·.map fun _ => none) id ∧ kids c = [] := by
  cases h with
  | unlink i hi htype =>
    refine ⟨.unlink (some inode.ptr) (some name), rfl, rfl, rfl, ?_⟩
    apply eq_nil_iff_forall_not_mem.mpr
    intro x hx
    obtain ⟨f, j, k, hj, -, hbind⟩ := hcached.bound c x hx
    rw [hi] at hj
    cases hj
    exact htype (RamFs.directory_of_bind hbind)
  | rmdir i hi htype hempty =>
    exact ⟨.rmdir (some inode.ptr) (some name), rfl, rfl, rfl,
      (hcached.family.children_eq_none_iff hc).mp hempty⟩

theorem served_setFs {f g : FsPtr} {fs : RamFs} (hfs : fs.Served) (h : (v.fileSystems g).Served) :
    ((v.setFs f fs).fileSystems g).Served :=
  (forall_update_iff v.fileSystems fun g fs => (v.fileSystems g).Served → fs.Served).mpr
    ⟨fun _ => hfs, fun _ _ hg => hg⟩ g h

theorem idle_setFs {f : FsPtr} {fs : RamFs} (hfs : fs.Served)
    (h : ∀ g, (v.fileSystems g).Served ∨ (v.fileSystems g).Idle) (g : FsPtr) :
    ((v.setFs f fs).fileSystems g).Served ∨ ((v.setFs f fs).fileSystems g).Idle :=
  (forall_update_iff v.fileSystems fun _ fs => fs.Served ∨ fs.Idle).mpr ⟨.inl hfs, fun g _ => h g⟩ g

namespace Cached

section

variable (h : Cached v kids)
include h

theorem present (hd : d ∈ v.allocated) (hinode : (v.dentries d).inode = some inode) :
    (v.fileSystems inode.fs).Present inode.ptr := by
  cases hparent : (v.dentries d).parent with
  | none =>
    obtain ⟨slot, mp, hmp, rfl⟩ := h.top d hd inode hinode hparent
    have hroot := (h.rooted slot mp hmp).inode
    rw [hinode] at hroot
    cases hroot
    exact .inl rfl
  | some p =>
    obtain ⟨f, i, j, -, hj, hbind⟩ := h.bound p d (h.family.mem_kids.mpr ⟨hd, hparent⟩)
    rw [hinode] at hj
    cases hj
    exact .inr ⟨i, _, hbind⟩

theorem live_rootDentry {slot : ℕ} {mp : MountPoint}
    (hmp : v.mountTable.mounts slot = some mp) : v.Live mp.rootDentry :=
  ⟨(h.rooted slot mp hmp).mem, _, (h.rooted slot mp hmp).inode⟩

theorem live_of_mem_kids (hc : c ∈ kids d) : v.Live d ∧ v.Live c := by
  obtain ⟨hmem, hmem'⟩ := h.family.mem_of_mem_kids hc
  obtain ⟨f, i, j, hi, hj, -⟩ := h.bound d c hc
  exact ⟨⟨hmem', _, hi⟩, hmem, _, hj⟩

theorem congr (hallocated : v'.allocated = v.allocated)
    (hname : ∀ d ∈ v.allocated, (v'.dentries d).name = (v.dentries d).name)
    (hinode : ∀ d ∈ v.allocated, (v'.dentries d).inode = (v.dentries d).inode)
    (hparent : ∀ d ∈ v.allocated, (v'.dentries d).parent = (v.dentries d).parent)
    (hchildren : ∀ d ∈ v.allocated, (v'.dentries d).children = (v.dentries d).children)
    (hnext : ∀ d ∈ v.allocated, (v'.dentries d).nextSibling = (v.dentries d).nextSibling)
    (htable : v'.mountTable = v.mountTable) (hroot : v'.rootDentry = v.rootDentry)
    (hfs : ∀ d ∈ v.allocated, ∀ i, (v.dentries d).inode = some i →
      v'.fileSystems i.fs = v.fileSystems i.fs)
    (hidle : ∀ f, (v'.fileSystems f).Served ∨ (v'.fileSystems f).Idle) : Cached v' kids := by
  constructor
  case nodup => exact hallocated ▸ h.nodup
  case family =>
    rw [hallocated]
    exact h.family.congr hparent hchildren hnext
  case named =>
    intro d c hc c' hc' heq
    rw [hname c (h.family.mem_of_mem_kids hc).1, hname c' (h.family.mem_of_mem_kids hc').1] at heq
    exact h.named d c hc c' hc' heq
  case bound =>
    intro d c hc
    obtain ⟨hmem, hmem'⟩ := h.family.mem_of_mem_kids hc
    obtain ⟨f, i, j, hi, hj, hb⟩ := h.bound d c hc
    have hf : v'.fileSystems f = v.fileSystems f := hfs d hmem' _ hi
    refine ⟨f, i, j, (hinode d hmem').trans hi, (hinode c hmem).trans hj, ?_⟩
    rw [hname c hmem, hf]
    exact hb
  case once =>
    intro d hd d' hd' i hi hi'
    rw [hallocated] at hd hd'
    rw [hinode d hd] at hi
    rw [hinode d' hd'] at hi'
    exact h.once d hd d' hd' i hi hi'
  case top =>
    intro d hd i hi hnone
    rw [hallocated] at hd
    rw [hinode d hd] at hi
    rw [hparent d hd] at hnone
    rw [htable]
    exact h.top d hd i hi hnone
  case rooted =>
    intro slot mp hmp
    rw [htable] at hmp
    obtain ⟨hmem, hnone, hi⟩ := h.rooted slot mp hmp
    exact ⟨hallocated ▸ hmem, (hparent _ hmem).trans hnone, (hinode _ hmem).trans hi⟩
  case served =>
    intro d hd i hi
    rw [hallocated] at hd
    rw [hinode d hd] at hi
    rw [hfs d hd i hi]
    exact h.served d hd i hi
  case idle => exact hidle
  case root =>
    intro d hd
    rw [hroot] at hd
    rw [htable]
    exact h.root d hd

theorem of_supply (supply : List (Option DentryPtr)) : Cached { v with supply } kids :=
  h.congr rfl (fun _ _ => rfl) (fun _ _ => rfl) (fun _ _ => rfl) (fun _ _ => rfl) (fun _ _ => rfl)
    rfl rfl (fun _ _ _ _ => rfl) h.idle

/-! ## The file system changes -/

theorem setFs {f : FsPtr} {fs : RamFs} (hserved : fs.Served)
    (hbind : ∀ d, ∀ c ∈ kids d, ∀ i j, (v.dentries d).inode = some ⟨f, i⟩ →
      (v.fileSystems f).tree.bind i (v.dentries c).name = some j →
      fs.tree.bind i (v.dentries c).name = some j) : Cached (v.setFs f fs) kids := by
  constructor
  case nodup => exact h.nodup
  case family => exact h.family
  case named => exact h.named
  case bound =>
    intro d c hc
    obtain ⟨g, i, j, hi, hj, hb⟩ := h.bound d c hc
    refine ⟨g, i, j, hi, hj, ?_⟩
    by_cases hgf : g = f
    · subst hgf
      rw [fileSystems_setFs_self]
      exact hbind d c hc i j hi hb
    · rw [fileSystems_setFs_of_ne v hgf]
      exact hb
  case once => exact h.once
  case top => exact h.top
  case rooted =>
    intro slot mp hmp
    obtain ⟨hmem, hnone, hi⟩ := h.rooted slot mp hmp
    exact ⟨hmem, hnone, hi⟩
  case served => exact fun d hd i hi => served_setFs hserved (h.served d hd i hi)
  case idle => exact idle_setFs hserved h.idle
  case root => exact h.root

/-! ## A new entry -/

theorem once_cons (hinode' : ∀ x ∈ v.allocated, (v'.dentries x).inode = (v.dentries x).inode)
    (hc : (v'.dentries c).inode = some inode)
    (hnew : ∀ x ∈ v.allocated, (v.dentries x).inode ≠ some inode) :
    ∀ x ∈ c :: v.allocated, ∀ y ∈ c :: v.allocated, ∀ i, (v'.dentries x).inode = some i →
      (v'.dentries y).inode = some i → x = y := by
  have hold : ∀ x ∈ v.allocated, (v'.dentries x).inode ≠ (v'.dentries c).inode := by
    intro x hx
    rw [hinode' x hx, hc]
    exact hnew x hx
  intro x hx y hy i hi hi'
  rcases mem_cons.mp hx with hxc | hx
  · rcases mem_cons.mp hy with hyc | hy
    · exact hxc.trans hyc.symm
    · exact absurd (hi'.trans (hxc ▸ hi.symm)) (hold y hy)
  rcases mem_cons.mp hy with hyc | hy
  · exact absurd (hi.trans (hyc ▸ hi'.symm)) (hold x hx)
  rw [hinode' x hx] at hi
  rw [hinode' y hy] at hi'
  exact h.once x hx y hy i hi hi'

theorem added {j : InodePtr} (hd : d ∈ v.allocated)
    (hinode : (v.dentries d).inode = some inode) (hlen : name.length ≤ 255)
    (hbind : (v.fileSystems inode.fs).tree.bind inode.ptr name = some j)
    (hname : ∀ x ∈ kids d, (v.dentries x).name ≠ name)
    (hnew : ∀ x ∈ v.allocated, (v.dentries x).inode ≠ some ⟨inode.fs, j⟩)
    (ha : AddedDentry v v' d name (some ⟨inode.fs, j⟩) c) :
    Cached v' (update kids d (c :: kids d)) := by
  have hne : ∀ x ∈ v.allocated, x ≠ c := by
    rintro x hx rfl
    exact ha.fresh hx
  have hinode' : ∀ x ∈ v.allocated, (v'.dentries x).inode = (v.dentries x).inode :=
    fun x hx => ha.inode_of_ne x (hne x hx)
  have hname' : ∀ x ∈ v.allocated, (v'.dentries x).name = (v.dentries x).name :=
    fun x hx => ha.name_of_ne x (hne x hx)
  have hcname : (v'.dentries c).name = name := ha.name.trans (take_of_length_le hlen)
  have hkids : ∀ x y, y ∈ update kids d (c :: kids d) x →
      x = d ∧ y = c ∨ y ∈ kids x := by
    intro x y hy
    by_cases hxd : x = d
    · subst hxd
      rw [update_self] at hy
      rcases mem_cons.mp hy with hy | hy
      · exact .inl ⟨rfl, hy⟩
      · exact .inr hy
    · rw [update_of_ne hxd] at hy
      exact .inr hy
  constructor
  case nodup =>
    rw [ha.allocated]
    exact nodup_cons.mpr ⟨ha.fresh, h.nodup⟩
  case family =>
    rw [ha.allocated]
    exact h.family.added ha.added hd ha.fresh
  case named =>
    intro x y hy y' hy' heq
    have hold : ∀ y ∈ kids x, (v'.dentries y).name = (v.dentries y).name := fun y hy =>
      hname' y (h.family.mem_of_mem_kids hy).1
    rcases hkids x y hy with ⟨hx, hyc⟩ | hmem
    · rcases hkids x y' hy' with ⟨-, hyc'⟩ | hmem'
      · exact hyc.trans hyc'.symm
      · rw [hyc, hcname, hold y' hmem'] at heq
        exact absurd heq.symm (hname y' (hx ▸ hmem'))
    rcases hkids x y' hy' with ⟨hx, hyc'⟩ | hmem'
    · rw [hyc', hcname, hold y hmem] at heq
      exact absurd heq (hname y (hx ▸ hmem))
    · rw [hold y hmem, hold y' hmem'] at heq
      exact h.named x y hmem y' hmem' heq
  case bound =>
    intro x y hy
    rcases hkids x y hy with ⟨rfl, rfl⟩ | hy
    · refine ⟨inode.fs, inode.ptr, j, (hinode' x hd).trans hinode, ha.inode, ?_⟩
      rw [hcname, ha.fileSystems]
      exact hbind
    obtain ⟨hmem, hmem'⟩ := h.family.mem_of_mem_kids hy
    simp only [Bound, hinode' x hmem', hinode' y hmem, hname' y hmem, ha.fileSystems]
    exact h.bound x y hy
  case once =>
    rw [ha.allocated]
    exact h.once_cons hinode' ha.inode hnew
  case top =>
    intro x hx i hi hnone
    rw [ha.allocated] at hx
    rw [ha.table]
    rcases mem_cons.mp hx with rfl | hx
    · have hparent : (v'.dentries x).parent = some d := ha.added.parent
      rw [hparent] at hnone
      cases hnone
    rw [hinode' x hx] at hi
    have hparent : (v'.dentries x).parent = (v.dentries x).parent :=
      ha.added.parent_of_ne x (hne x hx)
    exact h.top x hx i hi (hparent ▸ hnone)
  case rooted =>
    intro slot mp hmp
    rw [ha.table] at hmp
    obtain ⟨hmem, hnone, hi⟩ := h.rooted slot mp hmp
    refine ⟨?_, ?_, (hinode' _ hmem).trans hi⟩
    · rw [ha.allocated]
      exact .tail _ hmem
    · exact (ha.added.parent_of_ne _ (hne _ hmem)).trans hnone
  case served =>
    intro x hx i hi
    rw [ha.allocated] at hx
    rw [ha.fileSystems]
    rcases mem_cons.mp hx with rfl | hx
    · rw [ha.inode] at hi
      cases hi
      exact h.served d hd inode hinode
    · rw [hinode' x hx] at hi
      exact h.served x hx i hi
  case idle => exact ha.fileSystems ▸ h.idle
  case root =>
    intro x hx
    rw [ha.root] at hx
    rw [ha.table]
    exact h.root x hx

/-! ## A removed entry -/

theorem dropped {f : FsPtr} {fs : RamFs} (hc : c ∈ kids d)
    (hleaf : kids c = []) (hserved : fs.Served)
    (hbind : ∀ x, ∀ y ∈ kids x, y ≠ c → ∀ i j, (v.dentries x).inode = some ⟨f, i⟩ →
      (v.fileSystems f).tree.bind i (v.dentries y).name = some j →
      fs.tree.bind i (v.dentries y).name = some j)
    (hdrop : DroppedDentry (v.setFs f fs) v' kids d c) :
    Cached v' (update kids d ((kids d).erase c)) := by
  have hparent : (v.dentries c).parent = some d := (h.family.mem_kids.mp hc).2
  have hne : c ≠ d := by
    rintro rfl
    rw [hleaf] at hc
    cases hc
  have hwell := h.family.removed hdrop.removed hc
  have hkids : ∀ x y, y ∈ update kids d ((kids d).erase c) x →
      y ∈ kids x ∧ y ≠ c ∧ x ≠ c := by
    intro x y hy
    have hmem : y ∈ kids x ∧ y ≠ c := by
      by_cases hxd : x = d
      · subst hxd
        rw [update_self, (h.family.nodup x).mem_erase_iff] at hy
        exact ⟨hy.2, hy.1⟩
      rw [update_of_ne hxd] at hy
      refine ⟨hy, ?_⟩
      rintro rfl
      have hx : (v.dentries y).parent = some x := (h.family.mem_kids.mp hy).2
      exact hxd (Option.some.inj (hx.symm.trans hparent))
    refine ⟨hmem.1, hmem.2, ?_⟩
    rintro rfl
    rw [hleaf] at hmem
    cases hmem.1
  have hsub : ∀ x ∈ v'.allocated, x ∈ v.allocated := fun _ hx => hdrop.mem_of_mem hx
  have hsup : ∀ x ∈ v.allocated, x ≠ c → x ∈ v'.allocated := fun _ hx hxc => hdrop.mem_of_ne hx hxc
  have hlive : ∀ x ∈ v'.allocated, ∀ i, (v'.dentries x).inode = some i →
      x ≠ c ∧ (v.dentries x).inode = some i := fun _ hx _ hi => hdrop.inode_eq_some h.nodup hx hi
  constructor
  case nodup =>
    rw [hdrop.allocated]
    split
    · exact h.nodup
    · exact h.nodup.erase c
  case family =>
    rw [hdrop.allocated]
    split
    · exact hwell
    apply hwell.erase h.nodup hdrop.removed.parent
    rw [update_of_ne hne]
    exact hleaf
  case named =>
    intro x y hy y' hy' heq
    rw [hdrop.name, hdrop.name] at heq
    exact h.named x y (hkids x y hy).1 y' (hkids x y' hy').1 heq
  case bound =>
    intro x y hy
    obtain ⟨hmem, hyc, hxc⟩ := hkids x y hy
    obtain ⟨g, i, j, hi, hj, hb⟩ := h.bound x y hmem
    refine ⟨g, i, j, (hdrop.inode_of_ne x hxc).trans hi, (hdrop.inode_of_ne y hyc).trans hj, ?_⟩
    rw [hdrop.name, hdrop.fileSystems]
    by_cases hgf : g = f
    · subst hgf
      rw [fileSystems_setFs_self]
      exact hbind x y hmem hyc i j hi hb
    · rw [fileSystems_setFs_of_ne v hgf]
      exact hb
  case once =>
    intro x hx x' hx' i hi hi'
    exact h.once x (hsub x hx) x' (hsub x' hx') i (hlive x hx i hi).2 (hlive x' hx' i hi').2
  case top =>
    intro x hx i hi hnone
    obtain ⟨hxc, hi⟩ := hlive x hx i hi
    have hsame : (v'.dentries x).parent = (v.dentries x).parent := hdrop.removed.parent_of_ne x hxc
    rw [hdrop.table]
    exact h.top x (hsub x hx) i hi (hsame ▸ hnone)
  case rooted =>
    intro slot mp hmp
    rw [hdrop.table] at hmp
    obtain ⟨hmem, hnone, hi⟩ := h.rooted slot mp hmp
    have hxc : mp.rootDentry ≠ c := by
      intro heq
      rw [heq, hparent] at hnone
      cases hnone
    exact ⟨hsup _ hmem hxc, (hdrop.removed.parent_of_ne _ hxc).trans hnone,
      (hdrop.inode_of_ne _ hxc).trans hi⟩
  case served =>
    intro x hx i hi
    rw [hdrop.fileSystems]
    exact served_setFs hserved (h.served x (hsub x hx) i (hlive x hx i hi).2)
  case idle => exact hdrop.fileSystems ▸ idle_setFs hserved h.idle
  case root =>
    intro x hx
    rw [hdrop.root] at hx
    rw [hdrop.table]
    exact h.root x hx

end

/-! ## The answers of the file system -/

variable {e : ErrorCode} {state : RamFs}

theorem tree_eq_of_error {full : InodePtr → Prop} {T T' : Tree} {call : Call}
    (h : Tree.Step full T call (.error e) T') : T' = T := by
  cases h <;> rfl

theorem tree_eq_erase {full : InodePtr → Prop} {T T' : Tree} {call : Call} {i : InodePtr}
    (hdir : call.dir = some i) (hname : call.name = some name)
    (h : Tree.Step full T call (.ok none) T') : T' = T.erase i name := by
  cases h with
  | unlinked =>
    cases hdir
    cases hname
    rfl
  | rmdir =>
    cases hdir
    cases hname
    rfl

/-- What a file system answers when it is asked for a name. -/
structure Answered (v : Vfs RamFs) (kids : DentryPtr → List DentryPtr) (d : DentryPtr)
    (inode : InodeRef) (name : CString) (state : RamFs) (j : InodePtr) : Prop where
  served : state.Served
  bind : state.tree.bind inode.ptr name = some j
  keeps : ∀ i n j', (v.fileSystems inode.fs).tree.bind i n = some j' → state.tree.bind i n = some j'
  name : ∀ x ∈ kids d, (v.dentries x).name ≠ name
  new : ∀ x ∈ v.allocated, (v.dentries x).inode ≠ some ⟨inode.fs, j⟩

theorem mem_kids_of_bind {j : InodePtr} (h : Cached v kids) (hd : d ∈ v.allocated)
    (hinode : (v.dentries d).inode = some inode)
    (hbind : (v.fileSystems inode.fs).tree.bind inode.ptr name = some j) (hc : c ∈ v.allocated)
    (hj : (v.dentries c).inode = some ⟨inode.fs, j⟩) : c ∈ kids d ∧ (v.dentries c).name = name := by
  have hserved := h.served d hd inode hinode
  cases hparent : (v.dentries c).parent with
  | none =>
    obtain ⟨slot, mp, hmp, rfl⟩ := h.top c hc _ hj hparent
    have hroot := (h.rooted slot mp hmp).inode
    rw [hj, Option.some.injEq, InodeRef.mk.injEq] at hroot
    rw [hroot.2] at hbind
    exact absurd hbind (hserved.root _ _)
  | some p =>
    have hmem := h.family.mem_kids.mpr ⟨hc, hparent⟩
    obtain ⟨f, i, j', hp, hj', hb⟩ := h.bound p c hmem
    rw [hj] at hj'
    cases hj'
    obtain ⟨hi, hname⟩ := hserved.bind_inj hbind hb
    have hpd : p = d := by
      apply h.once p (h.family.mem_of_mem_kids hmem).2 d hd inode _ hinode
      rw [hp, ← hi]
    exact ⟨hpd ▸ hmem, hname.symm⟩

section

variable (h : Cached v kids) (hd : d ∈ v.allocated) (hinode : (v.dentries d).inode = some inode)
  (hlen : name.length ≤ 255)
include h hd hinode hlen

theorem called {call : Call} (hdir : call.dir = some inode.ptr) (hname : call.name = some name) :
    Tree.Step (v.fileSystems inode.fs).Full (v.fileSystems inode.fs).tree call
        (call.exec (v.fileSystems inode.fs)).1 (call.exec (v.fileSystems inode.fs)).2.tree ∧
      (call.exec (v.fileSystems inode.fs)).2.Served := by
  refine (h.served d hd inode hinode).step hdir (h.present hd hinode) fun n hn => ?_
  rw [hname] at hn
  cases hn
  exact hlen

theorem asked {answer : Expected (Option InodePtr)} (ha : Asked ramFs v d inode name (answer, state)) :
    (∃ e, answer = .error e ∧ state.Served ∧ state.tree = (v.fileSystems inode.fs).tree) ∨
      ∃ j, answer = .ok (some j) ∧ Answered v kids d inode name state j := by
  have hserved := h.served d hd inode hinode
  obtain ⟨call, hdir, hname, hexec, hkind⟩ := ha.call
  obtain ⟨hstep, hserved'⟩ := h.called hd hinode hlen hdir hname
  rw [hexec] at hstep hserved'
  cases answer with
  | error e => exact .inl ⟨e, rfl, hserved', tree_eq_of_error hstep⟩
  | ok new =>
    right
    rcases hkind with ⟨rfl, hfind⟩ | ⟨t, ht⟩
    · -- the name is bound, and there is no entry for it
      generalize htree : state.tree = T at hstep
      cases hstep with
      | @found _ _ j hbind =>
        refine ⟨j, rfl, hserved', by rw [htree]; exact hbind, ?_, ?_, ?_⟩
        · intro i n j' hb
          rw [htree]
          exact hb
        · exact fun x hx => ne_of_findChild h.family hd hfind hx
        · intro x hx hj
          obtain ⟨hmem, hxname⟩ := h.mem_kids_of_bind hd hinode hbind hx hj
          exact ne_of_findChild h.family hd hfind hmem hxname
      | created _ _ hcreates => cases hcreates
    · -- the name is new, and so is the inode
      generalize htree : state.tree = T at hstep
      cases hstep with
      | @created _ d' name' t' j hdir' hname' hcreates directory unbound fresh new =>
        rw [hdir] at hdir'
        rw [hname] at hname'
        cases hdir'
        cases hname'
        refine ⟨j, rfl, hserved', ?_, ?_, ?_, ?_⟩
        · rw [htree]
          simp [Tree.insert]
        · intro i n j' hb
          rw [htree, Tree.insert]
          dsimp only
          rw [if_neg]
          · exact hb
          · rintro ⟨rfl, rfl⟩
            rw [unbound] at hb
            cases hb
        · intro x hx hxname
          obtain ⟨f, i, j', hi, -, hb⟩ := h.bound d x hx
          rw [hinode] at hi
          cases hi
          rw [hxname, unbound] at hb
          cases hb
        · intro x hx hj
          rcases h.present hx hj with rfl | ⟨i, n, hb⟩
          · exact new ((hserved.mem_dirs (.inl rfl)).mpr hserved.type)
          · exact fresh i n hb
      | _ => cases ht

/-- The file system has removed the name of a child. -/
structure Dropping (v : Vfs RamFs) (kids : DentryPtr → List DentryPtr) (c : DentryPtr)
    (f : FsPtr) (state : RamFs) : Prop where
  served : state.Served
  leaf : kids c = []
  keeps : ∀ x, ∀ y ∈ kids x, y ≠ c → ∀ i j, (v.dentries x).inode = some ⟨f, i⟩ →
    (v.fileSystems f).tree.bind i (v.dentries y).name = some j →
    state.tree.bind i (v.dentries y).name = some j

theorem removing {answer : Expected Unit} (hc : c ∈ kids d) (hname : (v.dentries c).name = name)
    (hr : Removing ramFs v c inode name (answer, state)) :
    (∃ e, answer = .error e ∧ state.Served ∧ state.tree = (v.fileSystems inode.fs).tree) ∨
      answer = .ok () ∧ Dropping v kids c inode.fs state := by
  obtain ⟨call, hdir, hcall, hexec, hleaf⟩ := hr.call h (h.family.mem_of_mem_kids hc).1
  obtain ⟨hstep, hserved'⟩ := h.called hd hinode hlen hdir hcall
  rw [hexec] at hstep hserved'
  simp only [Prod.map, id] at hstep hserved'
  cases answer with
  | error e => exact .inl ⟨e, rfl, hserved', tree_eq_of_error hstep⟩
  | ok _ =>
    refine .inr ⟨rfl, hserved', hleaf, ?_⟩
    intro x y hy hyc i j hi hb
    rw [tree_eq_erase hdir hcall hstep, Tree.erase]
    dsimp only
    rw [if_neg]
    · exact hb
    · rintro ⟨rfl, hyname⟩
      have hxd : x = d := h.once x (h.family.mem_of_mem_kids hy).2 d hd inode hi hinode
      subst hxd
      exact hyc (h.named x y hy c hc (hyname.trans hname.symm))

/-! ## The changes of a call -/

theorem add {answer : Option InodePtr} {r : Option DentryPtr}
    (ha : Asked ramFs v d inode name (.ok answer, state))
    (hadd : (v.setFs inode.fs state).addDentry d name (answer.map fun i => ⟨inode.fs, i⟩) =
      (r, v')) :
    Cached (v.setFs inode.fs state) kids ∧
      ((r = none ∧ ∃ supply, v' = { v.setFs inode.fs state with supply }) ∨
        ∃ c j, r = some c ∧ Cached v' (update kids d (c :: kids d)) ∧
          AddedDentry (v.setFs inode.fs state) v' d name (some ⟨inode.fs, j⟩) c) := by
  rcases h.asked hd hinode hlen ha with ⟨e, he, -⟩ | ⟨j, hj, hanswered⟩
  · cases he
  cases hj
  have hset : Cached (v.setFs inode.fs state) kids :=
    h.setFs hanswered.served fun _ _ _ i _ _ hb => hanswered.keeps i _ _ hb
  refine ⟨hset, ?_⟩
  rcases (v.setFs inode.fs state).addDentry_cases name (some ⟨inode.fs, j⟩) hd with
    ⟨supply, heq⟩ | ⟨c, v₁, heq, hadded⟩
  · left
    obtain ⟨rfl, rfl⟩ := Prod.mk.inj (hadd.symm.trans heq)
    exact ⟨rfl, supply, rfl⟩
  right
  obtain ⟨rfl, rfl⟩ := Prod.mk.inj (hadd.symm.trans heq)
  have hbind : ((v.setFs inode.fs state).fileSystems inode.fs).tree.bind inode.ptr name =
      some j := by
    rw [fileSystems_setFs_self]
    exact hanswered.bind
  exact ⟨c, j, rfl, hset.added hd hinode hlen hbind hanswered.name hanswered.new hadded, hadded⟩

theorem refuse
    (ha : Asked ramFs v d inode name (.error e, state)) : Cached (v.setFs inode.fs state) kids := by
  rcases h.asked hd hinode hlen ha with ⟨e, -, hserved, htree⟩ | ⟨j, hj, -⟩
  · exact h.setFs hserved fun _ _ _ _ _ _ hb => htree ▸ hb
  · cases hj

theorem keep
    (hfind : v.findChild d name = some c) (hr : Removing ramFs v c inode name (.error e, state)) :
    Cached (v.setFs inode.fs state) kids := by
  obtain ⟨hc, hname⟩ := mem_of_findChild h.family hd hfind
  rcases h.removing hd hinode hlen hc hname hr with ⟨e, -, hserved, htree⟩ | ⟨hok, -⟩
  · exact h.setFs hserved fun _ _ _ _ _ _ hb => htree ▸ hb
  · cases hok

theorem drop
    (hfind : v.findChild d name = some c) (hr : Removing ramFs v c inode name (.ok (), state)) :
    c ∈ kids d ∧ kids c = [] ∧
      DroppedDentry (v.setFs inode.fs state) ((v.setFs inode.fs state).dropDentry d c) kids d c ∧
      Cached ((v.setFs inode.fs state).dropDentry d c) (update kids d ((kids d).erase c)) := by
  obtain ⟨hc, hname⟩ := mem_of_findChild h.family hd hfind
  rcases h.removing hd hinode hlen hc hname hr with ⟨e, he, -⟩ | ⟨-, hdropping⟩
  · cases he
  have hdropped : DroppedDentry (v.setFs inode.fs state) _ kids d c :=
    dropDentry_dropped h.family hd hc
  exact ⟨hc, hdropping.leaf, hdropped,
    h.dropped hc hdropping.leaf hdropping.served hdropping.keeps hdropped⟩

end

end Cached

end SimpleKernel.Filesystem.Vfs
