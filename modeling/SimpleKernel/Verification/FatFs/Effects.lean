import SimpleKernel.Model.Filesystem.FatFs

/-! What the operations on a FAT volume change: an inode keeps its path and its type while it is in
use, and the object of an open file belongs to one inode. -/

namespace SimpleKernel.Filesystem

open Function

namespace FatFs

variable {δ φ ψ : Type} {fs fs' fs'' : FatFs δ φ ψ} {i j : InodePtr} {f : FatInode → FatInode}
  {k : ℕ} {path : CString}

/-! ## Inodes -/

/-- The inodes are the same ones as before. -/
structure Kept (fs fs' : FatFs δ φ ψ) : Prop where
  volumeId : fs'.volumeId = fs.volumeId
  path : ∀ j, (fs'.inodes j).path = (fs.inodes j).path
  inUse : ∀ j, (fs'.inodes j).inUse = (fs.inodes j).inUse
  type : ∀ j, (fs'.inodes j).inode.type = (fs.inodes j).inode.type

theorem Kept.refl (fs : FatFs δ φ ψ) : Kept fs fs := ⟨rfl, fun _ => rfl, fun _ => rfl, fun _ => rfl⟩

theorem Kept.trans (h : Kept fs fs') (h' : Kept fs' fs'') : Kept fs fs'' :=
  ⟨h'.volumeId.trans h.volumeId, fun j => (h'.path j).trans (h.path j),
    fun j => (h'.inUse j).trans (h.inUse j), fun j => (h'.type j).trans (h.type j)⟩

@[simp] theorem inodes_setInode (fs : FatFs δ φ ψ) (i : InodePtr) (f : FatInode → FatInode)
    (j : InodePtr) : (fs.setInode i f).inodes j = if j = i then f (fs.inodes j) else fs.inodes j := by
  by_cases hj : j = i
  · subst hj
    simp [setInode]
  · simp [setInode, hj]

def SameInode (r r' : FatInode) : Prop :=
  r'.path = r.path ∧ r'.inUse = r.inUse ∧ r'.inode.type = r.inode.type

theorem Kept.of_inodes (hvolume : fs'.volumeId = fs.volumeId)
    (hinodes : ∀ j, SameInode (fs.inodes j) (fs'.inodes j)) : Kept fs fs' :=
  ⟨hvolume, fun j => (hinodes j).1, fun j => (hinodes j).2.1, fun j => (hinodes j).2.2⟩

theorem sameInode_setInode (fs : FatFs δ φ ψ) (i : InodePtr)
    (hf : ∀ r, SameInode r (f r)) (j : InodePtr) :
    SameInode (fs.inodes j) ((fs.setInode i f).inodes j) := by
  rw [inodes_setInode]
  split
  · exact hf _
  · exact ⟨rfl, rfl, rfl⟩

theorem fil_setInode (fs : FatFs δ φ ψ) (i : InodePtr)
    (hf : ∀ r, (f r).fil = r.fil) (j : InodePtr) :
    ((fs.setInode i f).inodes j).fil = (fs.inodes j).fil := by
  rw [inodes_setInode]
  split
  · exact hf _
  · rfl

/-! ## Objects of open files -/

/-- The object behind the open file of an inode. -/
def handle (fs : FatFs δ φ ψ) (i : InodePtr) : Option φ :=
  (fs.inodes i).fil.map fun h => (fs.filPool h).object

/-- Every object belongs to one inode, and it is not free. -/
structure Handled (fs : FatFs δ φ ψ) : Prop where
  inUse : ∀ i h, (fs.inodes i).fil = some h → (fs.filPool h).inUse = true
  inj : ∀ i j h, (fs.inodes i).fil = some h → (fs.inodes j).fil = some h → i = j

/-- An operation on one inode. -/
structure Effect (fs fs' : FatFs δ φ ψ) (i : InodePtr) : Prop where
  kept : Kept fs fs'
  handled : Handled fs'
  others : ∀ j, j ≠ i → fs'.handle j = fs.handle j

theorem Effect.refl (h : Handled fs) (i : InodePtr) : Effect fs fs i := ⟨.refl fs, h, fun _ _ => rfl⟩

theorem Effect.trans (h : Effect fs fs' i) (h' : Effect fs' fs'' i) : Effect fs fs'' i :=
  ⟨h.kept.trans h'.kept, h'.handled, fun j hj => (h'.others j hj).trans (h.others j hj)⟩

/-- An operation that concerns no open file. -/
structure Still (fs fs' : FatFs δ φ ψ) : Prop where
  kept : Kept fs fs'
  handled : Handled fs'
  handle : ∀ j, fs'.handle j = fs.handle j

theorem Still.effect (h : Still fs fs') (i : InodePtr) : Effect fs fs' i :=
  ⟨h.kept, h.handled, fun j _ => h.handle j⟩

theorem Still.trans (h : Still fs fs') (h' : Handled fs' → Still fs' fs'') : Still fs fs'' :=
  ⟨h.kept.trans (h' h.handled).kept, (h' h.handled).handled,
    fun j => ((h' h.handled).handle j).trans (h.handle j)⟩

theorem Still.of_fil (h : Handled fs) (hkept : Kept fs fs')
    (hfil : ∀ j, (fs'.inodes j).fil = (fs.inodes j).fil) (hpool : fs'.filPool = fs.filPool) :
    Still fs fs' where
  kept := hkept
  handled := by
    constructor
    · intro j k hk
      rw [hfil] at hk
      rw [hpool]
      exact h.inUse j k hk
    · intro j j' k hk hk'
      rw [hfil] at hk hk'
      exact h.inj j j' k hk hk'
  handle j := by rw [FatFs.handle, FatFs.handle, hfil, hpool]

theorem Effect.of_pool {r : FatInode} (h : Handled fs) (hvolume : fs'.volumeId = fs.volumeId)
    (hinodes : fs'.inodes = update fs.inodes i r) (hi : SameInode (fs.inodes i) r)
    (hpool : ∀ l, l ≠ k → fs'.filPool l = fs.filPool l)
    (hk : ∀ j, j ≠ i → (fs.inodes j).fil ≠ some k)
    (hnew : ∀ l, r.fil = some l → l = k ∧ (fs'.filPool k).inUse = true) : Effect fs fs' i := by
  have hself : fs'.inodes i = r := by rw [hinodes, update_self]
  have hinodes : ∀ j, j ≠ i → fs'.inodes j = fs.inodes j := fun j hj => by
    rw [hinodes, update_of_ne hj]
  rw [← hself] at hi hnew
  have hother : ∀ j l, j ≠ i → (fs'.inodes j).fil = some l →
      (fs.inodes j).fil = some l ∧ fs'.filPool l = fs.filPool l := by
    intro j l hj hl
    rw [hinodes j hj] at hl
    refine ⟨hl, hpool l ?_⟩
    rintro rfl
    exact hk j hj hl
  constructor
  case kept =>
    apply Kept.of_inodes hvolume
    intro j
    by_cases hj : j = i
    · subst hj
      exact hi
    · rw [hinodes j hj]
      exact ⟨rfl, rfl, rfl⟩
  case handled =>
    constructor
    case inUse =>
      intro j l hl
      by_cases hj : j = i
      · subst hj
        obtain ⟨rfl, huse⟩ := hnew l hl
        exact huse
      obtain ⟨hold, hsame⟩ := hother j l hj hl
      rw [hsame]
      exact h.inUse j l hold
    case inj =>
      have hdiff : ∀ j l, j ≠ i → (fs'.inodes j).fil = some l → (fs'.inodes i).fil ≠ some l := by
        intro j l hj hl hl'
        obtain ⟨rfl, -⟩ := hnew l hl'
        exact hk j hj (hother j l hj hl).1
      intro j j' l hl hl'
      by_cases hj : j = i
      · by_cases hj' : j' = i
        · exact hj.trans hj'.symm
        · exact absurd (hj ▸ hl) (hdiff j' l hj' hl')
      by_cases hj' : j' = i
      · exact absurd (hj' ▸ hl') (hdiff j l hj hl)
      · exact h.inj j j' l (hother j l hj hl).1 (hother j' l hj' hl').1
  case others =>
    intro j hj
    rw [handle, handle, hinodes j hj]
    cases hl : (fs.inodes j).fil with
    | none => rfl
    | some l => rw [Option.map_some, Option.map_some, (hother j l hj (hinodes j hj ▸ hl)).2]

/-! ## The operations on inodes -/

/-- A slot that was free has become an inode with the path. -/
structure NewInode (fs fs' : FatFs δ φ ψ) (i : InodePtr) (path : CString) : Prop where
  lt : i < fatMaxInodes
  free : (fs.inodes i).inUse = false
  inUse : (fs'.inodes i).inUse = true
  path : (fs'.inodes i).path = path.take (pathBufSize - 1)
  fil : (fs'.inodes i).fil = none
  inodes_of_ne : ∀ j, j ≠ i → fs'.inodes j = fs.inodes j
  filPool : fs'.filPool = fs.filPool
  volumeId : fs'.volumeId = fs.volumeId

theorem NewInode.fil_eq_some (h : NewInode fs fs' i path)
    (hj : (fs'.inodes j).fil = some k) : (fs.inodes j).fil = some k := by
  by_cases hji : j = i
  · rw [hji, h.fil] at hj
    cases hj
  · rw [h.inodes_of_ne j hji] at hj
    exact hj

theorem NewInode.handled (h : NewInode fs fs' i path) (hfs : Handled fs) : Handled fs' where
  inUse j k hk := by
    rw [h.filPool]
    exact hfs.inUse j k (h.fil_eq_some hk)
  inj j j' k hk hk' := hfs.inj j j' k (h.fil_eq_some hk) (h.fil_eq_some hk')

theorem allocateFatInode_eq_some (h : fs.allocateFatInode = some (i, fs')) :
    i < fatMaxInodes ∧ (fs.inodes i).inUse = false ∧
      fs' = fs.setInode i fun _ => { inUse := true } := by
  obtain ⟨k, hfind, heq⟩ := Option.map_eq_some_iff.mp h
  obtain ⟨rfl, rfl⟩ := Prod.mk.inj heq
  have hfree := List.find?_some hfind
  exact ⟨List.mem_range.mp (List.mem_of_find?_eq_some hfind), by simpa using hfree, rfl⟩

/-- A failed call may have changed the volume, and no more. -/
structure SameInodes (fs fs' : FatFs δ φ ψ) : Prop where
  inodes : fs'.inodes = fs.inodes
  filPool : fs'.filPool = fs.filPool
  volumeId : fs'.volumeId = fs.volumeId

theorem SameInodes.kept (h : SameInodes fs fs') : Kept fs fs' :=
  ⟨h.volumeId, fun _ => by rw [h.inodes], fun _ => by rw [h.inodes], fun _ => by rw [h.inodes]⟩

def Returns (fs : FatFs δ φ ψ) (path : CString) (r : Expected InodePtr × FatFs δ φ ψ) : Prop :=
  (∃ e, r.1 = .error e ∧ SameInodes fs r.2) ∨ ∃ i, r.1 = .ok i ∧ NewInode fs r.2 i path

theorem newInode_returns (fs : FatFs δ φ ψ) (disk : δ) (type : FileType) (size : ℕ)
    (path : CString) : Returns fs path ({ fs with disk }.newInode type size path) := by
  unfold newInode allocateInode
  cases halloc : allocateFatInode { fs with disk } with
  | none => exact .inl ⟨_, rfl, rfl, rfl, rfl⟩
  | some p =>
    obtain ⟨i, fs₁⟩ := p
    obtain ⟨hlt, hfree, rfl⟩ := allocateFatInode_eq_some halloc
    refine .inr ⟨i, rfl, hlt, hfree, ?_, ?_, ?_, ?_, rfl, rfl⟩
    · simp
    · simp
    · simp
    · intro j hj
      simp [hj]

variable (lib : FatLibrary δ φ ψ)

section

variable (fs) (dir : InodePtr) (name : CString)

theorem lookup_returns :
    Returns fs (fullPath (fs.inodes dir).path name) (fs.lookup lib dir name) := by
  simp only [lookup]
  split
  · exact .inl ⟨_, rfl, rfl, rfl, rfl⟩
  · exact newInode_returns fs _ _ _ _

theorem create_returns (type : FileType) :
    Returns fs (fullPath (fs.inodes dir).path name) (fs.create lib dir name type) := by
  simp only [create]
  split
  · split
    · exact .inl ⟨_, rfl, rfl, rfl, rfl⟩
    · exact newInode_returns fs _ _ _ _
  split
  · exact .inl ⟨_, rfl, rfl, rfl, rfl⟩
  · exact newInode_returns fs _ _ _ _

theorem mount_returns (device : Option ℕ) :
    Returns fs (volumePath fs.volumeId) (fs.mount lib device) := by
  simp only [mount]
  split
  · exact .inl ⟨_, rfl, rfl, rfl, rfl⟩
  split
  · exact .inl ⟨_, rfl, rfl, rfl, rfl⟩
  split
  · exact .inl ⟨_, rfl, rfl, rfl, rfl⟩
  split
  · exact .inl ⟨_, rfl, rfl, rfl, rfl⟩
  rename_i i fs₁ halloc
  obtain ⟨hlt, hfree, rfl⟩ := allocateFatInode_eq_some halloc
  refine .inr ⟨i, rfl, hlt, hfree, ?_, ?_, ?_, ?_, rfl, rfl⟩
  · simp
  · simp only [inodes_setInode, if_true]
    rfl
  · simp
  · intro j hj
    simp [hj]

theorem unlink_sameInodes : SameInodes fs (fs.unlink lib dir name).2 :=
  ⟨rfl, rfl, rfl⟩

end

theorem SameInodes.still (hs : SameInodes fs fs') (h : Handled fs) : Still fs fs' :=
  .of_fil h hs.kept (fun _ => by rw [hs.inodes]) hs.filPool

/-! ## Unmount -/

theorem closeDir_still (h : Handled fs) (i : InodePtr) : Still fs (fs.closeDir lib i) := by
  simp only [closeDir]
  split
  · exact (SameInodes.mk rfl rfl rfl).still h
  refine .of_fil h (.of_inodes rfl ?_) ?_ rfl
  · exact sameInode_setInode fs i (f := fun r => { r with dir := none }) fun _ => ⟨rfl, rfl, rfl⟩
  · exact fil_setInode fs i (f := fun r => { r with dir := none }) fun _ => rfl

theorem releaseInode_handled (h : Handled fs) (i : InodePtr) :
    Handled (fs.releaseInode lib i) ∧ (fs.releaseInode lib i).volumeId = fs.volumeId := by
  have hclosed : Still fs (if (fs.inodes i).inUse then fs.closeDir lib i else fs) := by
    split
    · exact closeDir_still lib h i
    · exact SameInodes.still ⟨rfl, rfl, rfl⟩ h
  simp only [releaseInode]
  generalize (if (fs.inodes i).inUse then fs.closeDir lib i else fs) = fs₁ at hclosed ⊢
  have hfil := fil_setInode fs₁ i (f := fun r => { r with inUse := false }) fun _ => rfl
  refine ⟨⟨?_, ?_⟩, hclosed.kept.volumeId⟩
  · intro j k hk
    rw [hfil] at hk
    exact hclosed.handled.inUse j k hk
  · intro j j' k hk hk'
    rw [hfil] at hk hk'
    exact hclosed.handled.inj j j' k hk hk'

theorem unmount_handled (h : Handled fs) :
    Handled (fs.unmount lib).2 ∧ (fs.unmount lib).2.volumeId = fs.volumeId := by
  have hrelease : ∀ (l : List InodePtr) (fs : FatFs δ φ ψ), Handled fs →
      Handled (l.foldl (releaseInode lib) fs) ∧
        (l.foldl (releaseInode lib) fs).volumeId = fs.volumeId := by
    intro l
    induction l with
    | nil => exact fun _ h => ⟨h, rfl⟩
    | cons i l ih =>
      intro fs h
      obtain ⟨hhandled, hvolume⟩ := releaseInode_handled lib h i
      obtain ⟨hhandled', hvolume'⟩ := ih _ hhandled
      exact ⟨hhandled', hvolume'.trans hvolume⟩
  simp only [unmount]
  split
  · exact ⟨h, rfl⟩
  generalize List.range fatMaxInodes = l
  exact hrelease l { fs with
    disk := (lib.unmount fs.disk (volumePath fs.volumeId)).2, blockDevice := none,
    mounted := false, rootInode := none } ⟨h.inUse, h.inj⟩

/-! ## The operations on files -/

theorem allocateHandle_eq_some {α : Type} {fresh : α} {n : ℕ} {pool pool' : ℕ → FatHandle α}
    (h : allocateHandle fresh n pool = some (k, pool')) :
    (pool k).inUse = false ∧ pool' = update pool k ⟨fresh, true⟩ := by
  obtain ⟨l, hfind, heq⟩ := Option.map_eq_some_iff.mp h
  obtain ⟨rfl, rfl⟩ := Prod.mk.inj heq
  have hfree := List.find?_some hfind
  exact ⟨by simpa using hfree, rfl⟩

theorem freeHandle_of_ne {α : Type} (pool : ℕ → FatHandle α) {l : ℕ} (h : l ≠ k) :
    freeHandle pool k l = pool l := by
  rw [freeHandle, update_of_ne h]

theorem openFil_effect (h : Handled fs) (i : InodePtr) (flags : BitVec 32) :
    Effect fs (fs.openFil lib i flags).2 i ∧
      (fs.handle i ≠ none → (fs.openFil lib i flags).2 = fs) ∧
      ((fs.openFil lib i flags).1 = .ok () → (fs.openFil lib i flags).2.handle i ≠ none) := by
  simp only [openFil]
  split_ifs with hfil
  · refine ⟨.refl h i, fun _ => rfl, fun _ => ?_⟩
    obtain ⟨k, hk⟩ := Option.ne_none_iff_exists'.mp hfil
    rw [handle, hk, Option.map_some]
    exact Option.some_ne_none _
  have hnone : fs.handle i = none := by rw [handle, not_not.mp hfil, Option.map_none]
  split
  · exact ⟨.refl h i, fun _ => rfl, nofun⟩
  rename_i k pool halloc
  obtain ⟨hfree, rfl⟩ := allocateHandle_eq_some halloc
  have hk : ∀ j, j ≠ i → (fs.inodes j).fil ≠ some k := by
    intro j _ hj
    rw [h.inUse j k hj] at hfree
    cases hfree
  split
  · refine ⟨.of_pool h rfl (update_eq_self i _).symm ⟨rfl, rfl, rfl⟩ (k := k) ?_ hk ?_,
      fun hsome => absurd hnone hsome, nofun⟩
    · intro l hl
      simp [FatFs.setFil, freeHandle_of_ne _ hl, hl]
    · intro l hl
      rw [not_not] at hfil
      cases hfil.symm.trans hl
  refine ⟨.of_pool h rfl rfl ⟨rfl, rfl, rfl⟩ (k := k) ?_ hk ?_, fun hsome => absurd hnone hsome,
    fun _ => ?_⟩
  · intro l hl
    simp [FatFs.setInode, FatFs.setFil, hl]
  · rintro _ ⟨⟩
    simp [FatFs.setInode, FatFs.setFil]
  · simp [handle]

theorem openFile_effect (h : Handled fs) (file : FatFile) :
    Effect fs (fs.openFile lib file).2 file.inode ∧
      (fs.handle file.inode ≠ none → (fs.openFile lib file).2 = fs) ∧
      ((fs.openFile lib file).1 = .ok () → (fs.inodes file.inode).inode.type ≠ .directory →
        (fs.openFile lib file).2.handle file.inode ≠ none) := by
  unfold openFile
  split_ifs with htype
  · exact ⟨.refl h _, fun _ => rfl, fun _ hne => absurd htype hne⟩
  · obtain ⟨heffect, hsame, hopen⟩ := openFil_effect lib h file.inode file.flags
    exact ⟨heffect, hsame, fun hok _ => hopen hok⟩

/-- The operations on files leave their addresses, inodes and flags alone. -/
structure SameFile (file file' : FatFile) : Prop where
  ptr : file'.ptr = file.ptr
  inode : file'.inode = file.inode
  flags : file'.flags = file.flags

/-- What `Read`, `Write`, `Seek` and `ReadDir` do with a file and the object of its inode. -/
structure Moves (fs fs' : FatFs δ φ ψ) (file file' : FatFile) (move : φ → φ) : Prop where
  effect : Effect fs fs' file.inode
  handle : fs'.handle file.inode = (fs.handle file.inode).map move
  same : SameFile file file'

variable {file file' : FatFile} {move : φ → φ}

theorem Moves.refl (h : Handled fs) (hi : (fs.inodes file.inode).fil = none) :
    Moves fs fs file file move := by
  refine ⟨.refl h _, ?_, ⟨rfl, rfl, rfl⟩⟩
  rw [FatFs.handle, hi]
  rfl

theorem Still.moves (h : Still fs fs') (hsame : SameFile file file') : Moves fs fs' file file' id :=
  ⟨h.effect _, by rw [Option.map_id, h.handle]; rfl, hsame⟩

section

variable (h : Handled fs)
include h

theorem Moves.of_fil {r : FatInode} (hk : (fs.inodes file.inode).fil = some k)
    (hvolume : fs'.volumeId = fs.volumeId) (hinodes : fs'.inodes = update fs.inodes file.inode r)
    (hi : SameInode (fs.inodes file.inode) r) (hfil : r.fil = (fs.inodes file.inode).fil)
    (hpool : fs'.filPool = update fs.filPool k
      { fs.filPool k with object := move (fs.filPool k).object }) (hsame : SameFile file file') :
    Moves fs fs' file file' move := by
  refine ⟨.of_pool h hvolume hinodes hi (k := k) ?_ ?_ ?_, ?_, hsame⟩
  · intro l hl
    rw [hpool, update_of_ne hl]
  · intro j hj hjk
    exact hj (h.inj j _ k hjk hk)
  · intro l hl
    rw [hfil, hk] at hl
    cases hl
    rw [hpool, update_self]
    exact ⟨rfl, h.inUse _ k hk⟩
  · rw [FatFs.handle, FatFs.handle, hinodes, update_self, hfil, hk, hpool]
    simp

theorem read_moves (file : FatFile) (count : ℕ) :
    Moves fs (fs.read lib file count).2.1 file (fs.read lib file count).2.2 fun fil =>
      (lib.read fs.disk fil (count % 2 ^ 32)).2.2.1 := by
  simp only [read]
  split
  · rename_i hnone
    exact .refl h hnone
  rename_i k hk
  have hinodes := (update_eq_self file.inode fs.inodes).symm
  split
  all_goals exact .of_fil h hk rfl hinodes ⟨rfl, rfl, rfl⟩ rfl rfl ⟨rfl, rfl, rfl⟩

theorem write_moves (file : FatFile) (buf : List UInt8) :
    Moves fs (fs.write lib file buf).2.1 file (fs.write lib file buf).2.2 fun fil =>
      (lib.write fs.disk fil (buf.take (buf.length % 2 ^ 32))).2.2.1 := by
  simp only [write]
  split
  · rename_i hnone
    exact .refl h hnone
  rename_i k hk
  have hinodes := (update_eq_self file.inode fs.inodes).symm
  split
  · exact .of_fil h hk rfl hinodes ⟨rfl, rfl, rfl⟩ rfl rfl ⟨rfl, rfl, rfl⟩
  · exact .of_fil h hk rfl rfl ⟨rfl, rfl, rfl⟩ rfl rfl ⟨rfl, rfl, rfl⟩

theorem seek_moves (file : FatFile) (offset : ℤ) (whence : SeekWhence) :
    Moves fs (fs.seek lib file offset whence).2.1 file (fs.seek lib file offset whence).2.2 fun fil =>
      (lib.lseek fs.disk fil (newPos lib fil offset whence)).2.1 := by
  simp only [seek]
  split
  · rename_i hnone
    exact .refl h hnone
  rename_i k hk
  have hinodes := (update_eq_self file.inode fs.inodes).symm
  split
  all_goals exact .of_fil h hk rfl hinodes ⟨rfl, rfl, rfl⟩ rfl rfl ⟨rfl, rfl, rfl⟩

theorem close_effect (file : FatFile) : Effect fs (fs.close lib file).2 file.inode := by
  have hdir := closeDir_still lib h file.inode
  refine (hdir.effect file.inode).trans ?_
  have hhandled := hdir.handled
  simp only [close]
  split
  · exact .refl hhandled _
  rename_i k hk
  refine .of_pool hhandled rfl rfl ⟨rfl, rfl, rfl⟩ (k := k) ?_ ?_ nofun
  · intro l hl
    simp [FatFs.setInode, FatFs.setFil, freeHandle_of_ne _ hl, hl]
  · intro j hj hjk
    exact hj (hhandled.inj j _ k hjk hk)

end

theorem readEntries_sameInodes (k n : ℕ) (fs : FatFs δ φ ψ) :
    SameInodes fs (readEntries lib k n fs).2 := by
  induction n generalizing fs with
  | zero => exact ⟨rfl, rfl, rfl⟩
  | succ n ih =>
    simp only [readEntries]
    split
    · exact ⟨rfl, rfl, rfl⟩
    have hrest := ih (FatFs.setDir { fs with
      disk := (lib.readdir fs.disk (fs.dirPool k).object).2.2.2 } k
        (lib.readdir fs.disk (fs.dirPool k).object).2.2.1)
    exact ⟨hrest.inodes, hrest.filPool, hrest.volumeId⟩

theorem readDir_moves (h : Handled fs) (file : FatFile) (count : ℕ) :
    Moves fs (fs.readDir lib file count).2.1 file (fs.readDir lib file count).2.2 id := by
  simp only [readDir]
  split
  · exact ((readEntries_sameInodes lib _ count fs).still h).moves ⟨rfl, rfl, rfl⟩
  split
  · exact Still.moves (SameInodes.still ⟨rfl, rfl, rfl⟩ h) ⟨rfl, rfl, rfl⟩
  split
  · exact Still.moves (SameInodes.still ⟨rfl, rfl, rfl⟩ h) ⟨rfl, rfl, rfl⟩
  rename_i k pool _ _
  refine Still.moves ?_ ⟨rfl, rfl, rfl⟩
  refine Still.trans ?_ fun hset => (readEntries_sameInodes lib k count _).still hset
  refine .of_fil h (.of_inodes rfl ?_) ?_ rfl
  · exact sameInode_setInode fs _ (f := fun r => { r with dir := some k }) fun _ => ⟨rfl, rfl, rfl⟩
  · exact fil_setInode fs _ (f := fun r => { r with dir := some k }) fun _ => rfl

end FatFs

/-! ## Calls -/

variable {δ φ ψ : Type} {lib : FatLibrary δ φ ψ} {s s' : FatSession δ φ ψ} {i : InodePtr}

theorem effect_of_file {call : FatCall} (h : s.fs.Handled) {ptr : FilePtr}
    (hcall : call.file = some ptr) (hs : s.step lib call = some s') : ∃ i, s.fs.Effect s'.fs i := by
  cases call with
  | openFile inode flags ptr =>
    simp only [FatSession.step] at hs
    split at hs
    · obtain ⟨heffect, -⟩ := FatFs.openFile_effect lib h { ptr, inode, flags }
      generalize s.fs.openFile lib { ptr, inode, flags } = r at hs heffect
      obtain ⟨_ | _, fs⟩ := r
      all_goals
        cases hs
        exact ⟨inode, heffect⟩
    · cases hs
  | read ptr buf count =>
    obtain ⟨file, -, rfl⟩ := Option.map_eq_some_iff.mp hs
    refine ⟨file.inode, ?_⟩
    split
    · exact .refl h _
    · exact (FatFs.read_moves lib h file count).effect
  | write ptr buf =>
    obtain ⟨file, -, rfl⟩ := Option.map_eq_some_iff.mp hs
    refine ⟨file.inode, ?_⟩
    cases buf with
    | none => exact .refl h _
    | some buf =>
      dsimp only
      split
      · exact .refl h _
      · exact (FatFs.write_moves lib h file buf).effect
  | seek ptr offset whence =>
    obtain ⟨file, -, rfl⟩ := Option.map_eq_some_iff.mp hs
    exact ⟨file.inode, (FatFs.seek_moves lib h file offset whence).effect⟩
  | readDir ptr count =>
    obtain ⟨file, -, rfl⟩ := Option.map_eq_some_iff.mp hs
    refine ⟨file.inode, ?_⟩
    split
    · exact .refl h _
    · exact (FatFs.readDir_moves lib h file count).effect
  | close ptr =>
    obtain ⟨file, -, rfl⟩ := Option.map_eq_some_iff.mp hs
    refine ⟨file.inode, ?_⟩
    have heffect := FatFs.close_effect lib h file
    generalize s.fs.close lib file = r at heffect ⊢
    obtain ⟨_ | _, fs⟩ := r
    all_goals exact heffect
  | _ => cases hcall

theorem FatFs.Returns.handled {fs : FatFs δ φ ψ} {path : CString}
    {r : Expected InodePtr × FatFs δ φ ψ} (hr : fs.Returns path r) (h : fs.Handled) :
    r.2.Handled := by
  rcases hr with ⟨_, _, hsame⟩ | ⟨_, _, hnew⟩
  · exact (hsame.still h).handled
  · exact hnew.handled h

theorem handled_step {call : FatCall} (h : s.fs.Handled) (hs : s.step lib call = some s') :
    s'.fs.Handled := by
  cases call with
  | mount device =>
    cases hs
    exact (s.fs.mount_returns lib device).handled h
  | unmount =>
    obtain ⟨-, ⟨⟩⟩ := Option.ite_none_right_eq_some.mp hs
    exact (FatFs.unmount_handled lib h).1
  | lookup dir name =>
    obtain ⟨-, ⟨⟩⟩ := Option.ite_none_right_eq_some.mp hs
    exact (s.fs.lookup_returns lib dir name).handled h
  | create dir name type =>
    obtain ⟨-, ⟨⟩⟩ := Option.ite_none_right_eq_some.mp hs
    exact (s.fs.create_returns lib dir name type).handled h
  | mkdir dir name =>
    obtain ⟨-, ⟨⟩⟩ := Option.ite_none_right_eq_some.mp hs
    exact (s.fs.create_returns lib dir name .directory).handled h
  | unlink dir name | rmdir dir name =>
    have hsame := s.fs.unlink_sameInodes lib dir name
    obtain ⟨-, ⟨⟩⟩ := Option.ite_none_right_eq_some.mp hs
    exact (hsame.still h).handled
  | openFile | read | write | seek | readDir | close =>
    obtain ⟨i, heffect⟩ := effect_of_file h rfl hs
    exact heffect.handled

/-! ## A volume for examples -/

/-- An open file of the volume. -/
structure ExampleFil where
  fptr : ℕ := 0
  objsize : ℕ := 0
  deriving DecidableEq, Repr

/-- A volume whose directories have every name, and whose files all have the same bytes. -/
def exampleLibrary : FatLibrary (List UInt8) ExampleFil Unit where
  newFil := {}
  newDir := ()
  mount bytes _ := (.ok, bytes)
  unmount bytes _ := (.ok, bytes)
  stat bytes _ := (.ok, { fsize := bytes.length }, bytes)
  mkdir bytes _ := (.ok, bytes)
  unlink bytes _ := (.ok, bytes)
  openFil bytes _ _ _ := (.ok, { objsize := bytes.length }, bytes)
  close bytes fil := (.ok, fil, bytes)
  read bytes fil count :=
    let read := ((bytes.drop fil.fptr).take (min count (fil.objsize - fil.fptr)))
    (.ok, read, { fil with fptr := fil.fptr + read.length }, bytes)
  write bytes fil data :=
    (.ok, data.length,
      { fptr := fil.fptr + data.length, objsize := max fil.objsize (fil.fptr + data.length) },
      bytes.take fil.fptr ++ data ++ bytes.drop (fil.fptr + data.length))
  lseek bytes fil pos := (.ok, { fil with fptr := pos }, bytes)
  tell := ExampleFil.fptr
  size := ExampleFil.objsize
  opendir bytes _ _ := (.ok, (), bytes)
  readdir bytes _ := (.ok, {}, (), bytes)
  closedir bytes _ := (.ok, (), bytes)

def exampleSession : FatSession (List UInt8) ExampleFil Unit where
  fs := {
    volumeId := 0, disk := [1, 2, 3, 4], filPool := fun _ => ⟨{}, false⟩
    dirPool := fun _ => ⟨(), false⟩ }

/-! ## Runs -/

/-- Whatever the library answers, no two inodes share an object of the pool, and none has a free one. -/
theorem objects_apart {volumeId : ℕ} {disk : δ} (h : (fatSystem lib volumeId disk).Reachable s) :
    s.fs.Handled := by
  refine h.invariant (P := fun s => s.fs.Handled) ?_ fun _ _ _ => handled_step
  rintro s rfl
  exact ⟨(by simp), (by simp)⟩

theorem objects_apart_two : ∃ s, (fatSystem exampleLibrary 0 [1, 2, 3, 4]).Reachable s ∧
    (s.fs.inodes 1).fil = some 0 ∧ (s.fs.inodes 2).fil ≠ some 0 := by
  obtain ⟨s, hr, hfil⟩ := (fatSystem exampleLibrary 0 [1, 2, 3, 4]).exists_of_run
    (fun _ _ => True) [.mount (some 0), .create 0 [97] .regular, .create 0 [98] .regular,
      .openFile 1 0 7, .openFile 2 0 8] (fun s => (s.fs.inodes 1).fil = some 0)
    (s := exampleSession) rfl (by decide +kernel)
  exact ⟨s, hr, hfil, fun h => absurd ((objects_apart hr).inj 1 2 0 hfil h) (by decide)⟩

end SimpleKernel.Filesystem
