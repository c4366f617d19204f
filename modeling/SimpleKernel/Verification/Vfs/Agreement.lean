import SimpleKernel.Verification.Vfs.Cache
import SimpleKernel.Verification.Vfs.MountTable

/-! In every run without `Unmount`, the tree of directory entries below the root agrees with the
directories of the file system. -/

namespace SimpleKernel.Filesystem

open List Function

def VfsCall.isUnmount : VfsCall → Bool
  | .unmount _ => true
  | _ => false

namespace Vfs

variable {v v' : Vfs RamFs} {kids : DentryPtr → List DentryPtr} {d : DentryPtr} {file : OpenFile}

/-! ## Open and Close -/

/-- A new `File` of the entry `d`. -/
structure Opened (v v' : Vfs RamFs) (file : OpenFile) : Prop where
  inode : (v.dentries file.dentry).inode = some file.inode
  dentries : v'.dentries = update v.dentries file.dentry
    { v.dentries file.dentry with
      refCount := ((v.dentries file.dentry).refCount + 1) % 2 ^ 32 }
  files : v'.files = file :: v.files
  rest : v' = { v with dentries := v'.dentries, files := v'.files }

theorem openDentry_cases (v : Vfs RamFs) (d : DentryPtr) (flags : BitVec 32)
    (ptr : Option FilePtr) : (v.openDentry ramFs d flags ptr).2 = v ∨
      ∃ file : OpenFile, file.dentry = d ∧ Opened v (v.openDentry ramFs d flags ptr).2 file := by
  unfold openDentry
  split
  · exact .inl rfl
  rename_i inode hinode
  split
  · exact .inl rfl
  split
  · exact .inl rfl
  rename_i ptr
  split
  · exact .inl rfl
  dsimp [ramFs]
  rw [setFs_self]
  exact .inr ⟨⟨ptr, inode, d, flags⟩, rfl, hinode, rfl, rfl, rfl⟩

/-- The `File` is closed. -/
structure Closed (v v' : Vfs RamFs) (file : OpenFile) : Prop where
  dentries : v'.dentries = update v.dentries file.dentry
    { v.dentries file.dentry with refCount := (v.dentries file.dentry).refCount - 1 }
  files : v'.files = v.files.erase file
  rest : v' = { v with dentries := v'.dentries, files := v'.files }

theorem close_closed (v : Vfs RamFs) (file : OpenFile) : Closed v (v.close ramFs file).2 file := by
  unfold close
  dsimp [ramFs]
  rw [setFs_self]
  split_ifs with hzero
  · exact ⟨rfl, rfl, rfl⟩
  refine ⟨?_, rfl, rfl⟩
  have hcount : (v.dentries file.dentry).refCount - 1 = (v.dentries file.dentry).refCount := by
    omega
  rw [hcount]
  exact (update_eq_self file.dentry v.dentries).symm

theorem proj_of_refCount {β : Type} (g : Dentry → β) {n : ℕ}
    (hg : ∀ e : Dentry, g { e with refCount := n } = g e) (x : DentryPtr) :
    g (update v.dentries d { v.dentries d with refCount := n } x) = g (v.dentries x) := by
  by_cases hx : x = d
  · rw [hx, update_self, hg]
  · rw [update_of_ne hx]

theorem Cached.setRefCount (h : Cached v kids) (d : DentryPtr) (n : ℕ) (files : List OpenFile) :
    Cached { v with
      dentries := update v.dentries d { v.dentries d with refCount := n }, files } kids := by
  apply h.congr
  case hname => exact fun x _ => proj_of_refCount (·.name) (by intro; rfl) x
  case hinode => exact fun x _ => proj_of_refCount (·.inode) (by intro; rfl) x
  case hparent => exact fun x _ => proj_of_refCount (·.parent) (by intro; rfl) x
  case hchildren => exact fun x _ => proj_of_refCount (·.children) (by intro; rfl) x
  case hnext => exact fun x _ => proj_of_refCount (·.nextSibling) (by intro; rfl) x
  case hfs => exact fun _ _ _ _ => rfl
  case hidle => exact h.idle
  all_goals rfl

/-! ## Mount -/

/-- Nothing has changed but memory that is not in use and file systems that are not mounted. -/
structure Untouched (v v' : Vfs RamFs) : Prop where
  allocated : v'.allocated = v.allocated
  dentries : ∀ x ∈ v.allocated, v'.dentries x = v.dentries x
  fileSystems : ∀ f, v'.fileSystems f = v.fileSystems f ∨
    (v.fileSystems f).Idle ∧ (v'.fileSystems f).Idle
  table : v'.mountTable = v.mountTable
  root : v'.rootDentry = v.rootDentry
  files : v'.files = v.files

theorem Untouched.refl (v : Vfs RamFs) : Untouched v v :=
  ⟨rfl, fun _ _ => rfl, fun _ => .inl rfl, rfl, rfl, rfl⟩

/-- A file system has got a mount point and an entry for its root. -/
structure MountedRoot (v v' : Vfs RamFs) (mp : MountPoint) (slot : ℕ) : Prop where
  idle : (v.fileSystems mp.filesystem).Idle
  served : (v'.fileSystems mp.filesystem).Served
  fileSystems_of_ne : ∀ f, f ≠ mp.filesystem → v'.fileSystems f = v.fileSystems f
  fresh : mp.rootDentry ∉ v.allocated
  allocated : v'.allocated = mp.rootDentry :: v.allocated
  entry : v'.dentries mp.rootDentry = { name := [slash], inode := some ⟨mp.filesystem, 0⟩ }
  dentries_of_ne : ∀ x, x ≠ mp.rootDentry → v'.dentries x = v.dentries x
  filled : Filled v v' mp slot
  files : v'.files = v.files

theorem mountRoot_outcome {f : FsPtr} {fs : RamFs} (hidle : (v.fileSystems f).Idle)
    (hserved : fs.Served) (path : CString) (device : Option ℕ) :
    Untouched v ((v.setFs f fs).mountRoot ramFs path f device 0).2 ∨
      ∃ mp slot, MountedRoot v ((v.setFs f fs).mountRoot ramFs path f device 0).2 mp slot := by
  have htype : (v.setFs f fs).typeOf ramFs ⟨f, 0⟩ = .directory := by
    change (((v.setFs f fs).fileSystems f).inodes 0).inode.type = .directory
    rw [fileSystems_setFs_self]
    exact hserved.type
  obtain ⟨fs', hunmount, hidle'⟩ := hserved.unmount
  have hfs : ∀ g, update (update v.fileSystems f fs) f fs' g =
      v.fileSystems g ∨ (v.fileSystems g).Idle ∧
        (update (update v.fileSystems f fs) f fs' g).Idle := by
    intro g
    by_cases hgf : g = f
    · rw [hgf, update_self]
      exact .inr ⟨hidle, hidle'⟩
    · rw [update_of_ne hgf, update_of_ne hgf]
      exact .inl rfl
  unfold mountRoot
  rw [if_neg (not_not.mpr htype)]
  rcases (v.setFs f fs).allocDentry_cases with ⟨supply, heq⟩ | ⟨d, supply, hd, heq⟩
  · left
    rw [heq]
    dsimp [setFs, ramFs]
    rw [update_self, hunmount]
    exact ⟨rfl, fun _ _ => rfl, hfs, rfl, rfl, rfl⟩
  rw [heq]
  have hdentry : ∀ x, x ≠ d → update (update v.dentries d {}) d
      { (update v.dentries d {} d) with name := [slash], inode := some ⟨f, 0⟩ } x =
        v.dentries x := by
    intro x hx
    rw [update_of_ne hx, update_of_ne hx]
  have hself : update v.fileSystems f fs f = fs := update_self ..
  have hserved' : (update v.fileSystems f fs f).Served := by
    rw [hself]
    exact hserved
  dsimp [fillSlot, setDentry, setFs]
  cases hfree : v.mountTable.freeSlot with
  | none =>
    left
    dsimp [freeDentry, ramFs]
    rw [hself, hunmount]
    refine ⟨erase_cons_head .., ?_, hfs, rfl, rfl, rfl⟩
    intro x hx
    apply hdentry
    rintro rfl
    exact hd hx
  | some slot =>
    right
    refine ⟨⟨path, none, f, device, 0, d⟩, slot, ?_⟩
    by_cases hroot : path = [slash]
    · dsimp only
      rw [if_pos hroot]
      exact ⟨hidle, hserved',
        fun g hg => update_of_ne hg .., hd, rfl, by simp, hdentry,
        ⟨hfree, rfl, rfl, (if_pos hroot).symm, (if_pos hroot).symm⟩, rfl⟩
    dsimp only
    rw [if_neg hroot]
    exact ⟨hidle, hserved',
      fun g hg => update_of_ne hg .., hd, rfl, by simp, hdentry,
      ⟨hfree, rfl, rfl, (if_neg hroot).symm, (if_neg hroot).symm⟩, rfl⟩

theorem mount_outcome (hidle : ∀ f, (v.fileSystems f).Served ∨ (v.fileSystems f).Idle)
    (path : Option CString) (fs : Option FsPtr) (device : Option ℕ) :
    Untouched v (v.mount ramFs path fs device).2 ∨
      ∃ mp slot, MountedRoot v (v.mount ramFs path fs device).2 mp slot := by
  unfold mount
  split
  · rename_i path f
    split
    · exact .inl (.refl v)
    split
    · exact .inl (.refl v)
    split
    · exact .inl (.refl v)
    have hsame : ∀ e, (v.fileSystems f).mount device = (.error e, v.fileSystems f) →
        ramFs.mount (v.fileSystems f) device = (.error e, v.fileSystems f) := by
      intro e he
      simp [ramFs, he, Except.map]
    rcases hidle f with hserved | hidle
    · rw [hsame _ (hserved.mount_eq device)]
      dsimp only
      rw [setFs_self]
      exact .inl (.refl v)
    rcases hidle.mount device with ⟨e, he⟩ | ⟨fs', he, hserved⟩
    · rw [hsame e he]
      dsimp only
      rw [setFs_self]
      exact .inl (.refl v)
    have hmount : ramFs.mount (v.fileSystems f) device = (.ok (some 0), fs') := by
      simp [ramFs, he, Except.map]
    rw [hmount]
    exact mountRoot_outcome hidle hserved path device
  · exact .inl (.refl v)

namespace Cached

theorem ne_of_idle (h : Cached v kids) {f : FsPtr} (hidle : (v.fileSystems f).Idle)
    (hd : d ∈ v.allocated) {i : InodeRef} (hi : (v.dentries d).inode = some i) : i.fs ≠ f := by
  rintro rfl
  have hmounted := (h.served d hd i hi).mounted
  rw [hidle.mounted] at hmounted
  cases hmounted

theorem untouched (h : Cached v kids) (hu : Untouched v v') : Cached v' kids := by
  apply h.congr hu.allocated
  case htable => exact hu.table
  case hroot => exact hu.root
  case hfs =>
    intro d hd i hi
    rcases hu.fileSystems i.fs with hsame | ⟨hidle, -⟩
    · exact hsame
    · exact absurd rfl (h.ne_of_idle hidle hd hi)
  case hidle =>
    intro f
    rcases hu.fileSystems f with hsame | ⟨-, hidle⟩
    · rw [hsame]
      exact h.idle f
    · exact .inr hidle
  all_goals
    intro x hx
    rw [hu.dentries x hx]

theorem mounted {mp : MountPoint} {slot : ℕ} (h : Cached v kids)
    (hm : MountedRoot v v' mp slot) : Cached v' kids := by
  have hne : ∀ x ∈ v.allocated, x ≠ mp.rootDentry := by
    rintro x hx rfl
    exact hm.fresh hx
  have hfs : ∀ d ∈ v.allocated, ∀ i, (v.dentries d).inode = some i →
      v'.fileSystems i.fs = v.fileSystems i.fs := fun d hd i hi =>
    hm.fileSystems_of_ne i.fs (h.ne_of_idle hm.idle hd hi)
  have hold : ∀ s p, v.mountTable.mounts s = some p → v'.mountTable.mounts s = some p :=
    fun _ _ hp => hm.filled.mounts_of_some hp
  have hself := hm.filled.mounts_self
  constructor
  case nodup =>
    rw [hm.allocated]
    exact nodup_cons.mpr ⟨hm.fresh, h.nodup⟩
  case family =>
    rw [hm.allocated]
    have hsame : v'.family.WellFormed v.allocated kids := by
      apply h.family.congr
      all_goals
        intro x hx
        simp only [Vfs.family]
        rw [hm.dentries_of_ne x (hne x hx)]
    apply hsame.cons hm.fresh
    all_goals simp [Vfs.family, hm.entry]
  case named =>
    intro d c hc c' hc' heq
    rw [hm.dentries_of_ne c (hne c (h.family.mem_of_mem_kids hc).1),
      hm.dentries_of_ne c' (hne c' (h.family.mem_of_mem_kids hc').1)] at heq
    exact h.named d c hc c' hc' heq
  case bound =>
    intro d c hc
    obtain ⟨hmem, hmem'⟩ := h.family.mem_of_mem_kids hc
    obtain ⟨f, i, j, hi, hj, hb⟩ := h.bound d c hc
    have hf : v'.fileSystems f = v.fileSystems f := hfs d hmem' _ hi
    rw [Bound, hm.dentries_of_ne c (hne c hmem), hm.dentries_of_ne d (hne d hmem')]
    refine ⟨f, i, j, hi, hj, ?_⟩
    rw [hf]
    exact hb
  case once =>
    have hinode : (v'.dentries mp.rootDentry).inode = some ⟨mp.filesystem, 0⟩ := by rw [hm.entry]
    rw [hm.allocated]
    exact h.once_cons (fun x hx => by rw [hm.dentries_of_ne x (hne x hx)]) hinode
      fun x hx hi => h.ne_of_idle hm.idle hx hi rfl
  case top =>
    intro x hx i hi hnone
    rw [hm.allocated] at hx
    rcases mem_cons.mp hx with hxr | hmem
    · exact ⟨slot, mp, hself, hxr.symm⟩
    rw [hm.dentries_of_ne x (hne x hmem)] at hi hnone
    obtain ⟨s, p, hp, hpx⟩ := h.top x hmem i hi hnone
    exact ⟨s, p, hold s p hp, hpx⟩
  case rooted =>
    intro s p hp
    rcases hm.filled.cases hp with ⟨rfl, rfl⟩ | hp
    · refine ⟨?_, by rw [hm.entry], by rw [hm.entry]⟩
      rw [hm.allocated]
      exact .head _
    obtain ⟨hmem, hnone, hi⟩ := h.rooted s p hp
    have hsame := hm.dentries_of_ne p.rootDentry (hne _ hmem)
    refine ⟨?_, by rw [hsame]; exact hnone, by rw [hsame]; exact hi⟩
    rw [hm.allocated]
    exact .tail _ hmem
  case served =>
    intro x hx i hi
    rw [hm.allocated] at hx
    rcases mem_cons.mp hx with hxr | hmem
    · rw [hxr, hm.entry] at hi
      cases hi
      exact hm.served
    rw [hm.dentries_of_ne x (hne x hmem)] at hi
    rw [hfs x hmem i hi]
    exact h.served x hmem i hi
  case idle =>
    intro f
    by_cases hf : f = mp.filesystem
    · rw [hf]
      exact .inl hm.served
    · rw [hm.fileSystems_of_ne f hf]
      exact h.idle f
  case root =>
    intro x hx
    rw [hm.filled.rootDentry] at hx
    split at hx
    · cases hx
      exact ⟨slot, mp, hself, rfl⟩
    · obtain ⟨s, p, hp, hpx⟩ := h.root x hx
      exact ⟨s, p, hold s p hp, hpx⟩

end Cached

/-! ## Runs -/

theorem Cached.opened (h : Cached v kids) (ho : Opened v v' file) : Cached v' kids :=
  ho.rest ▸ ho.dentries ▸ h.setRefCount ..

theorem Cached.closed (h : Cached v kids) (hc : Closed v v' file) : Cached v' kids :=
  hc.rest ▸ hc.dentries ▸ h.setRefCount ..

/-- A property that comes with the agreement of the entries and the file systems, and is kept by all
that changes the entries in the calls on paths and in `Mount`. -/
structure Kept (P : Vfs RamFs → (DentryPtr → List DentryPtr) → Prop) : Prop where
  cached : ∀ {v kids}, P v kids → Cached v kids
  setFs : ∀ {v kids f fs}, P v kids → Cached (v.setFs f fs) kids → P (v.setFs f fs) kids
  supply : ∀ {v kids}, P v kids → ∀ supply, P { v with supply } kids
  added : ∀ {v v' kids d name inode i c}, P v kids → d ∈ v.allocated →
    (v.dentries d).inode = some inode → AddedDentry v v' d name (some i) c →
    Cached v' (update kids d (c :: kids d)) → P v' (update kids d (c :: kids d))
  dropped : ∀ {v v' kids d c f fs}, P v kids → c ∈ kids d → kids c = [] →
    DroppedDentry (v.setFs f fs) v' kids d c → Cached v' (update kids d ((kids d).erase c)) →
    P v' (update kids d ((kids d).erase c))
  untouched : ∀ {v v' kids}, P v kids → Untouched v v' → P v' kids
  mounted : ∀ {v v' kids mp slot}, P v kids → MountedRoot v v' mp slot → P v' kids

namespace Kept

variable {P : Vfs RamFs → (DentryPtr → List DentryPtr) → Prop} (hP : Kept P)
include hP

theorem rule : Rule ramFs (fun v => ∃ kids, P v kids) Live where
  root {v d} := by
    rintro ⟨kids, h⟩ hd
    obtain ⟨slot, mp, hmp, rfl⟩ := (hP.cached h).root d hd
    exact (hP.cached h).live_rootDentry hmp
  mountRoot {v i mp} := by
    rintro ⟨kids, h⟩ hmp
    exact (hP.cached h).live_rootDentry hmp
  parent {v d p} := by
    rintro ⟨kids, h⟩ hlive hparent
    have hc := hP.cached h
    exact (hc.live_of_mem_kids (hc.family.mem_kids.mpr ⟨hlive.1, hparent⟩)).1
  child {v d name c} := by
    rintro ⟨kids, h⟩ hlive hfind
    have hc := hP.cached h
    exact (hc.live_of_mem_kids (mem_of_findChild hc.family hlive.1 hfind).1).2
  refuse {v d inode name e state} := by
    rintro ⟨kids, h⟩ hlive hinode - hlen ha
    exact ⟨kids, hP.setFs h ((hP.cached h).refuse hlive.1 hinode hlen ha)⟩
  add {v d inode name new state c v'} := by
    rintro ⟨kids, h⟩ hlive hinode - hlen ha hadd
    obtain ⟨hset, ⟨rfl, supply, rfl⟩ | ⟨x, j, rfl, hcached, hadded⟩⟩ :=
      (hP.cached h).add hlive.1 hinode hlen ha hadd
    · exact ⟨⟨kids, hP.supply (hP.setFs h hset) supply⟩, nofun⟩
    refine ⟨⟨_, hP.added (hP.setFs h hset) hlive.1 hinode hadded hcached⟩, ?_⟩
    rintro _ ⟨⟩
    exact ⟨hadded.allocated ▸ .head _, _, hadded.inode⟩
  keep {v d inode target name e state} := by
    rintro ⟨kids, h⟩ hlive hinode hlen hfind hr
    exact ⟨kids, hP.setFs h ((hP.cached h).keep hlive.1 hinode hlen hfind hr)⟩
  drop {v d inode target name state} := by
    rintro ⟨kids, h⟩ hlive hinode hlen hfind hr
    obtain ⟨hc, hleaf, hdropped, hcached⟩ := (hP.cached h).drop hlive.1 hinode hlen hfind hr
    exact ⟨_, hP.dropped h hc hleaf hdropped hcached⟩

theorem step {call : VfsCall} (h : P v kids) (hs : v.step ramFs call = some v')
    (hunmount : ∀ path, call = .unmount path → ∃ kids', P v' kids')
    (hopen : ∀ path flags file supply, call = .openFile path flags file supply → ∃ kids', P v' kids')
    (hclose : ∀ file, call = .close file → ∃ kids', P v' kids') : ∃ kids', P v' kids' := by
  have hsupply : ∀ supply, ∃ kids', P { v with supply } kids' := fun supply =>
    ⟨kids, hP.supply h supply⟩
  cases call with
  | init =>
    cases hs
    exact ⟨kids, hP.untouched h ⟨rfl, fun _ _ => rfl, fun _ => .inl rfl, rfl, rfl, rfl⟩⟩
  | mount path fs device supply =>
    cases hs
    have h' := hP.supply h supply
    rcases mount_outcome (hP.cached h').idle path fs device with huntouched | ⟨mp, slot, hmounted⟩
    · exact ⟨kids, hP.untouched h' huntouched⟩
    · exact ⟨kids, hP.mounted h' hmounted⟩
  | unmount path => exact hunmount path rfl
  | lookup path supply =>
    cases hs
    exact (hP.rule.lookup path (hsupply supply)).1
  | openFile path flags file supply => exact hopen path flags file supply rfl
  | close file => exact hclose file rfl
  | mkDir path supply =>
    cases hs
    exact hP.rule.mkDir path (hsupply supply)
  | unlink path supply =>
    cases hs
    exact hP.rule.unlink path (hsupply supply)
  | rmDir path supply =>
    cases hs
    exact hP.rule.rmDir path (hsupply supply)

end Kept

theorem cached_kept : Kept Cached where
  cached h := h
  setFs _ h := h
  supply h := h.of_supply
  added _ _ _ _ h := h
  dropped _ _ _ _ h := h
  untouched h := h.untouched
  mounted h := h.mounted

theorem Cached.step {call : VfsCall} (h : Cached v kids) (hcall : call.isUnmount = false)
    (hs : v.step ramFs call = some v') : ∃ kids', Cached v' kids' := by
  refine cached_kept.step h hs ?_ ?_ ?_
  · rintro path rfl
    cases hcall
  · rintro path flags file supply rfl
    cases hs
    refine cached_kept.rule.openFile path flags file ⟨kids, h.of_supply supply⟩ ?_
    rintro v₁ d ⟨kids₁, h₁⟩ - -
    rcases v₁.openDentry_cases d flags file with heq | ⟨file, -, hopened⟩
    · rw [heq]
      exact ⟨kids₁, h₁⟩
    · exact ⟨kids₁, h₁.opened hopened⟩
  · rintro file rfl
    obtain ⟨f, -, rfl⟩ := Option.map_eq_some_iff.mp hs
    exact ⟨kids, h.closed (v.close_closed f)⟩

theorem cached_init : Cached { fileSystems := fun _ => {} } fun _ => [] := by
  constructor
  case nodup => exact nodup_nil
  case family => exact ⟨nofun, fun _ => nodup_nil, by simp, nofun⟩
  case idle => exact fun _ => .inr ⟨rfl, fun _ => rfl⟩
  all_goals exact nofun

theorem cached_of_reachableBy (h : (vfsSystem ramFs fun _ => {}).ReachableBy
    (fun _ call => call.isUnmount = false) v) : ∃ kids, Cached v kids := by
  refine h.invariant (P := fun v => ∃ kids, Cached v kids) ?_ ?_
  · rintro _ rfl
    exact ⟨_, cached_init⟩
  · rintro v call v' ⟨kids, hcached⟩ hcall hs
    exact hcached.step hcall hs

/-- What the tree below the root looks like: every entry but the root is in one list of children,
that of its parent; siblings have different names; and the file system of the parent binds the name
of a child to its inode. -/
structure Agrees (v : Vfs RamFs) (root : DentryPtr) : Prop where
  list : ∀ d, v.family.Reaches root d → ∃ l, v.family.ListFrom (v.dentries d).children l ∧ l.Nodup
  top : ∀ d, v.family.Reaches root d → ¬ v.family.IsChild d root
  once : ∀ c, v.family.Reaches root c → c ≠ root →
    ∃! d, v.family.Reaches root d ∧ v.family.IsChild d c
  parent : ∀ d c, v.family.Reaches root d → v.family.IsChild d c → (v.dentries c).parent = some d
  names : ∀ d c c', v.family.Reaches root d → v.family.IsChild d c → v.family.IsChild d c' →
    (v.dentries c).name = (v.dentries c').name → c = c'
  binds : ∀ d c, v.family.Reaches root d → v.family.IsChild d c →
    ∃ f i j, (v.dentries d).inode = some ⟨f, i⟩ ∧ (v.dentries c).inode = some ⟨f, j⟩ ∧
      (v.fileSystems f).lookup (some i) (some (v.dentries c).name) = .ok (some j)

theorem Cached.agrees {root : DentryPtr} (h : Cached v kids) (hroot : v.rootDentry = some root) :
    v.Agrees root := by
  obtain ⟨slot, mp, hmp, rfl⟩ := h.root root hroot
  obtain ⟨hmem, hnone, -⟩ := h.rooted slot mp hmp
  have hmemd : ∀ {d}, v.family.Reaches mp.rootDentry d → d ∈ v.allocated :=
    fun hd => h.family.mem_of_reaches hmem hd
  have hchild : ∀ {d c}, v.family.Reaches mp.rootDentry d → v.family.IsChild d c → c ∈ kids d :=
    fun hd hc => (h.family.isChild_iff (hmemd hd)).mp hc
  have hparent : ∀ {d c}, v.family.Reaches mp.rootDentry d → v.family.IsChild d c →
      (v.dentries c).parent = some d := fun hd hc => (h.family.mem_kids.mp (hchild hd hc)).2
  constructor
  case list => exact fun d hd => ⟨kids d, h.family.list d (hmemd hd), h.family.nodup d⟩
  case top =>
    intro d hd hc
    have hsome := hparent hd hc
    rw [hnone] at hsome
    cases hsome
  case once =>
    intro c hc hne
    cases hc with
    | root => exact absurd rfl hne
    | @child d _ hd hdc =>
      refine ⟨d, ⟨hd, hdc⟩, ?_⟩
      rintro d' ⟨hd', hdc'⟩
      exact Option.some.inj ((hparent hd' hdc').symm.trans (hparent hd hdc))
  case parent => exact fun d c hd hc => hparent hd hc
  case names =>
    intro d c c' hd hc hc' heq
    exact h.named d c (hchild hd hc) c' (hchild hd hc') heq
  case binds =>
    intro d c hd hc
    obtain ⟨f, i, j, hi, hj, hbind⟩ := h.bound d c (hchild hd hc)
    have hserved : (v.fileSystems f).Served := h.served d (hmemd hd) _ hi
    have hpresent : (v.fileSystems f).Present i := h.present (hmemd hd) hi
    exact ⟨f, i, j, hi, hj, (hserved.lookup_iff hpresent).mpr hbind⟩

end Vfs

variable {v : Vfs RamFs}

/-- As long as nothing is unmounted, the directory entries below the root are a tree that agrees with
the directories of the file system on `/`. -/
theorem entries_agree (h : (vfsSystem ramFs fun _ => {}).ReachableBy
    (fun _ call => call.isUnmount = false) v) {root : DentryPtr}
    (hroot : v.rootDentry = some root) : v.Agrees root := by
  obtain ⟨kids, hcached⟩ := Vfs.cached_of_reachableBy h
  exact hcached.agrees hroot

/-- A directory is made, a file in it is created and removed, and the directory looked up. -/
theorem entries_agree_two : ∃ v : Vfs RamFs, (vfsSystem ramFs fun _ => {}).ReachableBy
    (fun _ call => call.isUnmount = false) v ∧ v.rootDentry = some 0 ∧
      (v.dentries 0).children = some 1 ∧ v.Agrees 0 := by
  obtain ⟨v, hr, hroot, hchild⟩ := (vfsSystem ramFs fun _ => {}).exists_of_run
    (fun _ call => call.isUnmount = false)
    [.init, .mount (some [47]) (some 0) none [some 0], .mkDir (some [47, 97]) [some 1],
      .openFile (some [47, 97, 47, 98]) oCreate (some 7) [some 2], .close 7,
      .unlink (some [47, 97, 47, 98]) [], .lookup (some [47, 97]) []]
    (fun v => v.rootDentry = some 0 ∧ (v.dentries 0).children = some 1) rfl (by decide +kernel)
  exact ⟨v, hr, hroot, hchild, entries_agree hr hroot⟩

end SimpleKernel.Filesystem
