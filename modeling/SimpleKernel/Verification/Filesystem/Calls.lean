import SimpleKernel.Model.Filesystem.Session
import SimpleKernel.Verification.Filesystem.Entries

/-! What each operation on inodes does to the entries of the directories, and when it fails. -/

namespace SimpleKernel.Filesystem

open List

variable {fs fs' : RamFs} {free : List InodePtr} {i d : InodePtr} {name : CString} {t : FileType}
  {data k : ℕ} {e : RamDirEntry} {call : Call}

/-- No directory and no inode in use has changed. -/
structure Unchanged (fs fs' : RamFs) (free : List InodePtr) : Prop where
  wellFormed : WellFormed fs' free
  entries : ∀ d, fs'.entries d = fs.entries d
  files : SameFiles fs fs' (InUse free)
  usedInodes : fs'.usedInodes = fs.usedInodes

theorem WellFormed.unchanged (h : WellFormed fs free) : Unchanged fs fs free :=
  ⟨h, fun _ => rfl, .rfl fs _, rfl⟩

/-- The directory has a new entry, of an inode that was free. -/
structure Created (fs fs' : RamFs) (free : List InodePtr) (d : InodePtr) (name : CString)
    (t : FileType) (i : InodePtr) : Prop where
  wellFormed : WellFormed fs' free
  directory : (fs.inodes d).inode.type = .directory
  fresh : ∀ e ∈ fs.entries d, e.name ≠ name
  entries : ∀ x, fs'.entries x =
    if x = d then fs.entries d ++ [⟨name.take 255, some i⟩] else fs.entries x
  type : ∀ x, (fs'.inodes x).inode.type = if x = i then t else (fs.inodes x).inode.type
  files : SameFiles fs fs' (InUse (i :: free))
  file : t = .regular → (fs'.inodes i).inode.size = 0 ∧ (fs'.inodes i).data = none ∧
    (fs'.inodes i).capacity = 0
  usedInodes : fs'.usedInodes = fs.usedInodes + 1

/-- The directory has lost the entry. -/
structure Removed (fs fs' : RamFs) (free : List InodePtr) (d : InodePtr) (e : RamDirEntry) :
    Prop where
  wellFormed : WellFormed fs' free
  entries_self : (fs.entries d).Perm (e :: fs'.entries d)
  entries_of_ne : ∀ x, x ≠ d → fs'.entries x = fs.entries x
  unbound : ∀ x, ∀ e' ∈ fs'.entries x, e'.inode ≠ e.inode
  files : SameFiles fs fs' fun _ => True
  usedInodes : fs'.usedInodes = fs.usedInodes

/-- The position is the one of an entry of the directory. -/
structure EntryAt (fs : RamFs) (free : List InodePtr) (d : InodePtr) (data k : ℕ)
    (e : RamDirEntry) (i : InodePtr) : Prop where
  array : ArrayAt fs free d data
  lt : k < (fs.inodes d).childCount
  entry : fs.dirDataPool (entryAt data k) = e
  inode : e.inode = some i

/-- There is no inode for a new file in the directory, or no memory for its entry. -/
def RamFs.Full (fs : RamFs) (d : InodePtr) : Prop :=
  fs.freeList = none ∨ fs.growDirectory d = none

/-- What a call answers, and what it makes of the entries and of the free inodes. -/
inductive Effect (fs : RamFs) (free : List InodePtr) :
    Call → Expected (Option InodePtr) → RamFs → List InodePtr → Prop where
  | null {call : Call} (null : call.dir = none ∨ call.name = none) :
      Effect fs free call (.error .invalidArgument) fs free
  | found {d : InodePtr} {e : RamDirEntry} {i : InodePtr} (mem : e ∈ fs.entries d)
      (inode : e.inode = some i) :
      Effect fs free (.lookup (some d) (some e.name)) (.ok (some i)) fs free
  | notFound {call : Call} {d : InodePtr} {name : CString} (dir : call.dir = some d)
      (named : call.name = some name) (creates : call.creates = none)
      (unbound : ∀ e ∈ fs.entries d, e.name ≠ name) :
      Effect fs free call (.error .fsFileNotFound) fs free
  | invalidType {call : Call} {t : FileType} (creates : call.creates = some t)
      (invalid : t ≠ .regular ∧ t ≠ .directory) :
      Effect fs free call (.error .invalidArgument) fs free
  | createFailed {call : Call} {d : InodePtr} {name : CString} {t : FileType} {e : ErrorCode}
      {fs' : RamFs} (dir : call.dir = some d) (named : call.name = some name)
      (creates : call.creates = some t)
      (reason : e = .fsNotADirectory ∧ (fs.inodes d).inode.type ≠ .directory ∨
        e = .fsFileExists ∧ (∃ entry ∈ fs.entries d, entry.name = name) ∨
        e = .outOfMemory ∧ fs.Full d)
      (unchanged : Unchanged fs fs' free) : Effect fs free call (.error e) fs' free
  | created {call : Call} {d : InodePtr} {name : CString} {t : FileType} {i : InodePtr}
      {rest : List InodePtr} {fs' : RamFs} (dir : call.dir = some d)
      (named : call.name = some name) (creates : call.creates = some t) (taken : free = i :: rest)
      (created : Created fs fs' rest d name t i) : Effect fs free call (.ok (some i)) fs' rest
  | isADirectory {d : InodePtr} {e : RamDirEntry} {i : InodePtr} (mem : e ∈ fs.entries d)
      (inode : e.inode = some i) (found : fs.lookup (some d) (some e.name) = .ok (some i))
      (type : (fs.inodes i).inode.type = .directory) :
      Effect fs free (.unlink (some d) (some e.name)) (.error .fsIsADirectory) fs free
  | unlinked {d : InodePtr} {e : RamDirEntry} {i : InodePtr} {fs' : RamFs} (mem : e ∈ fs.entries d)
      (inode : e.inode = some i) (found : fs.lookup (some d) (some e.name) = .ok (some i))
      (type : (fs.inodes i).inode.type ≠ .directory)
      (removed : Removed fs fs' free d e) :
      Effect fs free (.unlink (some d) (some e.name)) (.ok none) fs' free
  | notADirectory {d : InodePtr} {e : RamDirEntry} {i : InodePtr} (mem : e ∈ fs.entries d)
      (inode : e.inode = some i) (found : fs.lookup (some d) (some e.name) = .ok (some i))
      (type : (fs.inodes i).inode.type ≠ .directory) :
      Effect fs free (.rmdir (some d) (some e.name)) (.error .fsNotADirectory) fs free
  | notEmpty {d : InodePtr} {e : RamDirEntry} {i : InodePtr} (mem : e ∈ fs.entries d)
      (inode : e.inode = some i) (found : fs.lookup (some d) (some e.name) = .ok (some i))
      (type : (fs.inodes i).inode.type = .directory)
      (entries : fs.entries i ≠ []) :
      Effect fs free (.rmdir (some d) (some e.name)) (.error .fsNotEmpty) fs free
  | rmdir {d : InodePtr} {e : RamDirEntry} {i : InodePtr} {fs' : RamFs} (mem : e ∈ fs.entries d)
      (inode : e.inode = some i) (found : fs.lookup (some d) (some e.name) = .ok (some i))
      (type : (fs.inodes i).inode.type = .directory)
      (entries : fs.entries i = []) (removed : Removed fs fs' free d e) :
      Effect fs free (.rmdir (some d) (some e.name)) (.ok none) fs' free

theorem EntryAt.mem (h : EntryAt fs free d data k e i) : e ∈ fs.entries d := by
  rw [← h.entry]
  exact h.array.mem_entries h.lt

namespace WellFormed

theorem find_cases (h : WellFormed fs free) (d : InodePtr) (name : CString) :
    (fs.findInDirectory (some d) name = none ∧ ∀ e ∈ fs.entries d, e.name ≠ name) ∨
    ∃ data k e i, EntryAt fs free d data k e i ∧ e.name = name ∧
      fs.findInDirectory (some d) name = some (entryAt data k) := by
  obtain hnone | ⟨data, k, htype, hdata, hk, hname, hfind⟩ := fs.findInDirectory_cases d name
  · exact .inl hnone
  right
  have ha : ArrayAt fs free d data := ⟨h.inUse_of_data hdata, htype, hdata⟩
  obtain ⟨i, hi, _⟩ := h.bound d _ (ha.mem_entries hk)
  exact ⟨data, k, _, i, ⟨ha, hk, rfl, hi⟩, hname, hfind⟩

/-! ## Lookup -/

theorem lookup_eq (h : WellFormed fs free) (he : EntryAt fs free d data k e i)
    (hfind : fs.findInDirectory (some d) name = some (entryAt data k)) :
    fs.lookup (some d) (some name) = .ok (some i) := by
  unfold RamFs.lookup
  simp [h.self d he.array.inUse, hfind, he.entry, he.inode]

theorem lookup_cases (h : WellFormed fs free) (hd : InUse free d) (name : CString) :
    (fs.lookup (some d) (some name) = .error .fsFileNotFound ∧ ∀ e ∈ fs.entries d, e.name ≠ name) ∨
    ∃ e i, e ∈ fs.entries d ∧ e.name = name ∧ e.inode = some i ∧
      fs.lookup (some d) (some name) = .ok (some i) := by
  obtain ⟨hfind, hnone⟩ | ⟨data, k, e, i, he, hname, hfind⟩ := h.find_cases d name
  · left
    unfold RamFs.lookup
    simp only [h.self d hd, hfind]
    exact ⟨trivial, hnone⟩
  · exact .inr ⟨e, i, he.mem, hname, he.inode, h.lookup_eq he hfind⟩

/-! ## Create -/

theorem allocated_linkCount (h : WellFormed fs (i :: free)) :
    ((fs.allocated i t).inodes i).inode.linkCount = 1 := by
  rw [RamFs.allocated_inodes h.chain.1, Function.update_self]

theorem allocated_type (h : WellFormed fs (i :: free)) (x : InodePtr) :
    ((fs.allocated i t).inodes x).inode.type = if x = i then t else (fs.inodes x).inode.type := by
  rw [RamFs.allocated_inodes h.chain.1]
  by_cases hx : x = i
  · rw [if_pos hx, hx, Function.update_self]
  · rw [if_neg hx, Function.update_of_ne hx]

theorem growDirectory_eq_none_iff {fs fs' : RamFs} (hd : fs'.inodes d = fs.inodes d)
    (hpool : fs'.dirDataPoolUsed = fs.dirDataPoolUsed) :
    fs'.growDirectory d = none ↔ fs.growDirectory d = none := by
  unfold RamFs.growDirectory RamFs.allocateDirEntries
  simp only [hd, hpool]
  split_ifs <;> simp

theorem addToDirectory_cases (h : WellFormed fs free) (hd : InUse free d) (hi : InUse free i)
    (hne : i ≠ d) (name : CString) (hlink : (fs.inodes i).inode.linkCount = 1)
    (hunbound : ∀ x, ∀ e ∈ fs.entries x, e.inode ≠ some i) :
    (∃ e, fs.addToDirectory (some d) name i = (.error e, fs) ∧
      (e = .fsNotADirectory ∧ (fs.inodes d).inode.type ≠ .directory ∨
        e = .fsFileExists ∧ (∃ entry ∈ fs.entries d, entry.name = name) ∨
        e = .outOfMemory ∧ fs.growDirectory d = none)) ∨
    ∃ fs', fs.addToDirectory (some d) name i = (.ok (), fs') ∧ WellFormed fs' free ∧
      (fs.inodes d).inode.type = .directory ∧ (∀ e ∈ fs.entries d, e.name ≠ name) ∧
      (∀ x, fs'.entries x =
        if x = d then fs.entries d ++ [⟨name.take 255, some i⟩] else fs.entries x) ∧
      (SameFiles fs fs' fun _ => True) ∧ fs'.usedInodes = fs.usedInodes := by
  unfold RamFs.addToDirectory
  dsimp only
  by_cases htype : (fs.inodes d).inode.type = .directory
  · simp only [htype, ne_eq, not_true_eq_false, if_false]
    obtain ⟨hfind, hnone⟩ | ⟨data, k, e, j, he, hen, hfind⟩ := h.find_cases d name
    · rw [hfind, Option.isSome_none, if_neg Bool.false_ne_true]
      cases hgrow : fs.growDirectory d with
      | none => exact .inl ⟨.outOfMemory, rfl, .inr (.inr ⟨rfl, rfl⟩)⟩
      | some grown =>
        right
        obtain ⟨hw, hentries, hinodes, hroom, hused⟩ := h.growDirectory hd htype hgrow
        have htype' : (grown.inodes d).inode.type = .directory := by
          rw [hinodes]
          exact htype
        have happend := @appendEntry_entries grown free i d name hw hd htype' hroom hne
        refine ⟨grown.appendEntry d name i, rfl, ?_, trivial, hnone, ?_, ?_, hused⟩
        · apply hw.appendEntry hd htype' hroom hne hi ?_ ?_
          · rw [hinodes]
            exact hlink
          · intro x
            rw [hentries]
            exact hunbound x
        · intro x
          rw [happend, hentries, hentries]
        · exact (sameFiles_growDirectory _ htype hgrow).trans (sameFiles_appendEntry grown _ d name i)
    · left
      rw [hfind, Option.isSome_some, if_pos rfl]
      exact ⟨.fsFileExists, rfl, .inr (.inl ⟨rfl, e, he.mem, hen⟩)⟩
  · left
    rw [if_pos htype]
    exact ⟨.fsNotADirectory, rfl, .inl ⟨rfl, htype⟩⟩

theorem release (h : WellFormed fs (i :: free)) (ht : t = .regular ∨ t = .directory) :
    Unchanged fs ((fs.allocated i t).freeInode (some i)).2 (i :: free) := by
  have hw := h.allocated ht
  have hi : InUse free i := ⟨h.lt i mem_cons_self, (nodup_cons.mp h.nodup).1⟩
  have hchanges := h.changes_allocated (t := t)
  have hback := hw.changes_freeInode hi hchanges.data'
  constructor
  case wellFormed =>
    apply hw.freeInode hi hchanges.data'
    intro d e he
    rw [hchanges.entries] at he
    exact h.unbound_of_free mem_cons_self d e he
  case entries =>
    intro d
    rw [hback.entries, hchanges.entries]
  case files => exact h.sameFiles_allocated.trans (hw.sameFiles_freeInode hi hchanges.data')
  case usedInodes =>
    rw [RamFs.freeInode_eq (hw.self i hi)]
    rw [RamFs.allocated_usedInodes h.chain.1, Nat.add_sub_cancel]

section

variable (h : WellFormed fs free)
include h

theorem effect_create {call : Call} (hdir : call.dir = some d) (hname : call.name = some name)
    (hcreates : call.creates = some t) (hd : InUse free d)
    (hexec : call.exec fs = (fs.create (some d) (some name) t).map (·.map some) id) :
    ∃ free', Effect fs free call (call.exec fs).1 (call.exec fs).2 free' := by
  rw [hexec]
  unfold RamFs.create
  by_cases hinvalid : t ≠ .regular ∧ t ≠ .directory
  · simp only [if_pos hinvalid]
    exact ⟨free, .invalidType hcreates hinvalid⟩
  have ht := or_iff_not_and_not.mpr hinvalid
  simp only [if_neg hinvalid]
  rw [h.self d hd]
  cases free with
  | nil =>
    rw [RamFs.allocateInode_of_none h.chain]
    exact ⟨[], .createFailed hdir hname hcreates (.inr (.inr ⟨rfl, .inl h.chain⟩)) h.unchanged⟩
  | cons i rest =>
    have halloc : fs.allocateInode = (.ok i, fs.allocateInode.2) :=
      Prod.ext (by rw [RamFs.allocateInode_of_free h.chain.1]) rfl
    have hnew : fs.allocateInode.2.setType i t = fs.allocated i t := rfl
    rw [halloc]
    dsimp only
    rw [hnew]
    have hdi := (inUse_cons.mp hd).1
    have hpool : (fs.allocated i t).dirDataPoolUsed = fs.dirDataPoolUsed := by
      rw [RamFs.allocated, RamFs.allocateInode_of_free h.chain.1]
      rfl
    have hw := h.allocated ht
    have hchanges := h.changes_allocated (t := t)
    have hi : InUse rest i := ⟨h.lt i mem_cons_self, (nodup_cons.mp h.nodup).1⟩
    have hunbound : ∀ x, ∀ e ∈ (fs.allocated i t).entries x, e.inode ≠ some i := by
      intro x
      rw [hchanges.entries]
      exact h.unbound_of_free mem_cons_self x
    obtain ⟨e, heq, hreason⟩ | ⟨fs', heq, hw', htype, hfresh, hentries, hfiles, hused⟩ :=
      hw.addToDirectory_cases (inUse_cons.mp hd).2 hi hdi.symm name h.allocated_linkCount hunbound
    · rw [heq]
      rw [hchanges.other d hdi, hchanges.entries,
        growDirectory_eq_none_iff (hchanges.other d hdi) hpool] at hreason
      refine ⟨i :: rest, .createFailed hdir hname hcreates (hreason.imp_right ?_) (h.release ht)⟩
      exact Or.imp_right (And.imp_right .inr)
    rw [heq]
    rw [hchanges.other d hdi] at htype
    change ∃ free', Effect fs (i :: rest) call (.ok (some i)) fs' free'
    refine ⟨rest, .created hdir hname hcreates rfl ⟨hw', htype, ?_, ?_, ?_, ?_, ?_, ?_⟩⟩
    · rw [← hchanges.entries d]
      exact hfresh
    · intro x
      rw [hentries, hchanges.entries, hchanges.entries]
    · intro x
      rw [hfiles.type x trivial, h.allocated_type]
    · exact h.sameFiles_allocated.trans (hfiles.mono fun _ _ => trivial)
    · intro hr
      have hnew := congrFun (RamFs.allocated_inodes (t := t) h.chain.1) i
      rw [Function.update_self] at hnew
      have hi := hfiles.data i trivial (by rw [hnew]; exact hr)
      rw [hfiles.size i trivial, hi.1, hi.2, hnew]
      exact ⟨rfl, rfl, rfl⟩
    · rw [hused, RamFs.allocated_usedInodes h.chain.1]

/-! ## Unlink and Rmdir -/

theorem remove (he : EntryAt fs free d data k e i)
    (hfind : fs.findInDirectory (some d) name = some (entryAt data k)) :
    ∃ fs', fs.removeFromDirectory (some d) name = (.ok (), fs') ∧
      fs'.freeUnlinked (entryAt data k) = fs' ∧ Removed fs fs' free d e := by
  have hinode : (fs.dirDataPool (entryAt data k)).inode = some i := by
    rw [he.entry]
    exact he.inode
  refine ⟨fs.removed d data k i, RamFs.removeFromDirectory_eq hfind he.array.data hinode,
    h.freeUnlinked_removed he.array he.lt hinode, ?_⟩
  constructor
  case wellFormed => exact h.removed he.array he.lt hinode
  case entries_self =>
    have hperm := removed_entries_self (i := i) he.array he.lt
    rw [he.entry] at hperm
    exact hperm
  case entries_of_ne => exact fun x hx => h.removed_entries_of_ne he.array he.lt hx
  case unbound =>
    intro x e' he'
    rw [he.inode]
    exact (h.mem_removed_entries he.array he.lt hinode x he').2
  case files => exact sameFiles_removed fs _ d data k i
  case usedInodes => rfl

theorem effect_unlink (hd : InUse free d) (name : CString) :
    Effect fs free (.unlink (some d) (some name)) ((Call.unlink (some d) (some name)).exec fs).1
      ((Call.unlink (some d) (some name)).exec fs).2 free := by
  simp only [Call.exec, RamFs.unlink, h.self d hd]
  obtain ⟨hfind, hnone⟩ | ⟨data, k, e, i, he, rfl, hfind⟩ := h.find_cases d name
  · rw [hfind]
    exact .notFound rfl rfl rfl hnone
  have hfound := h.lookup_eq he hfind
  simp only [hfind, he.entry, he.inode, Option.any_some, decide_eq_true_eq]
  by_cases htype : (fs.inodes i).inode.type = .directory
  · rw [if_pos htype]
    exact .isADirectory he.mem he.inode hfound htype
  obtain ⟨fs', hremove, hkept, hremoved⟩ := h.remove he hfind
  rw [if_neg htype, hremove]
  dsimp only
  rw [hkept]
  exact .unlinked he.mem he.inode hfound htype hremoved

theorem entries_eq_nil_iff (hi : InUse free i) (htype : (fs.inodes i).inode.type = .directory) :
    fs.entries i = [] ↔ (fs.inodes i).childCount = 0 := by
  cases hdata : (fs.inodes i).data with
  | none =>
    rw [RamFs.entries_of_data_none hdata]
    exact iff_of_true rfl (h.childCount_of_data_none hi htype hdata)
  | some data => rw [RamFs.entries_eq htype hdata, map_eq_nil_iff, range_eq_nil]

theorem effect_rmdir (hd : InUse free d) (name : CString) :
    Effect fs free (.rmdir (some d) (some name)) ((Call.rmdir (some d) (some name)).exec fs).1
      ((Call.rmdir (some d) (some name)).exec fs).2 free := by
  simp only [Call.exec, RamFs.rmdir, h.self d hd]
  obtain ⟨hfind, hnone⟩ | ⟨data, k, e, i, he, rfl, hfind⟩ := h.find_cases d name
  · rw [hfind]
    exact .notFound rfl rfl rfl hnone
  have hfound := h.lookup_eq he hfind
  simp only [hfind, he.entry, he.inode]
  by_cases htype : (fs.inodes i).inode.type = .directory
  · have huse := h.inUse_of_mem he.mem he.inode
    have hempty : fs.isDirectoryEmpty (some i) = true ↔ fs.entries i = [] := by
      rw [h.entries_eq_nil_iff huse htype]
      simp [RamFs.isDirectoryEmpty, htype]
    rw [if_neg (not_not.mpr htype), h.self i huse]
    by_cases hentries : fs.entries i = []
    · obtain ⟨fs', hremove, hkept, hremoved⟩ := h.remove he hfind
      rw [hempty.mpr hentries, if_neg (by decide), hremove]
      dsimp only
      rw [hkept]
      exact .rmdir he.mem he.inode hfound htype hentries hremoved
    · rw [Bool.eq_false_iff.mpr (mt hempty.mp hentries), if_pos (by decide)]
      exact .notEmpty he.mem he.inode hfound htype hentries
  · rw [if_pos htype]
    exact .notADirectory he.mem he.inode hfound htype

end

end WellFormed

/-! ## Any call -/

theorem Call.exec_null (fs : RamFs) (h : call.dir = none ∨ call.name = none) :
    call.exec fs = (.error .invalidArgument, fs) := by
  obtain h | h := h
  · cases call <;> cases h <;> rfl
  cases call with
  | lookup dir _ => cases h; cases dir <;> rfl
  | create dir _ _ => cases h; cases dir <;> rfl
  | mkdir dir _ => cases h; cases dir <;> rfl
  | unlink dir _ => cases h; cases dir <;> rfl
  | rmdir dir _ => cases h; cases dir <;> rfl

namespace WellFormed

theorem effect (h : WellFormed fs free) (hdir : ∀ d ∈ call.dir, InUse free d) :
    ∃ free', Effect fs free call (call.exec fs).1 (call.exec fs).2 free' := by
  by_cases hnull : call.dir = none ∨ call.name = none
  · rw [Call.exec_null fs hnull]
    exact ⟨free, .null hnull⟩
  rw [not_or] at hnull
  obtain ⟨d, hd⟩ := Option.ne_none_iff_exists'.mp hnull.1
  obtain ⟨name, hn⟩ := Option.ne_none_iff_exists'.mp hnull.2
  have huse := hdir d hd
  cases call with
  | lookup dir name =>
    cases hd
    cases hn
    obtain ⟨heq, hnone⟩ | ⟨e, i, hmem, rfl, hinode, heq⟩ := h.lookup_cases huse name
    · rw [Call.exec, heq]
      exact ⟨free, .notFound rfl rfl rfl hnone⟩
    · rw [Call.exec, heq]
      exact ⟨free, .found hmem hinode⟩
  | create dir name t =>
    cases hd
    cases hn
    exact h.effect_create rfl rfl rfl huse rfl
  | mkdir dir name =>
    cases hd
    cases hn
    exact h.effect_create rfl rfl rfl huse rfl
  | unlink dir name =>
    cases hd
    cases hn
    exact ⟨free, h.effect_unlink huse name⟩
  | rmdir dir name =>
    cases hd
    cases hn
    exact ⟨free, h.effect_rmdir huse name⟩

end WellFormed

end SimpleKernel.Filesystem
