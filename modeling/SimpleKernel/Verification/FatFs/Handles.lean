import SimpleKernel.Verification.FatFs.Effects

/-! Several files that are open on one inode share one object of the library, so that they are
independent only as long as no call through one of them moves or closes it. `Seek` counts in 32
bits. -/

namespace SimpleKernel.Filesystem

open List

variable {δ φ ψ : Type} {lib : FatLibrary δ φ ψ} {volumeId : ℕ} {disk : δ}
  {s s' : FatSession δ φ ψ} {closing : List FilePtr} {fs : FatFs δ φ ψ}

/-! ## The property and its condition -/

/-- What the documentation of the library says of the pointer of an open file. -/
structure FatLibrary.Documented (lib : FatLibrary δ φ ψ) : Prop where
  read : ∀ disk fil count,
    lib.tell (lib.read disk fil count).2.2.1 =
        lib.tell fil + (lib.read disk fil count).2.1.length ∧
      (lib.read disk fil count).2.1.length ≤ min count (lib.size fil - lib.tell fil)
  write : ∀ disk fil data,
    lib.tell (lib.write disk fil data).2.2.1 = lib.tell fil + (lib.write disk fil data).2.1 ∧
      (lib.write disk fil data).2.1 ≤ data.length
  lseek : ∀ disk fil, lib.tell (lib.lseek disk fil (lib.tell fil)).2.1 = lib.tell fil

def FatSession.position (lib : FatLibrary δ φ ψ) (s : FatSession δ φ ψ) (file : FatFile) :
    Option ℕ :=
  (s.fs.handle file.inode).map lib.tell

/-- `Read` and `Write` get as far as the library. -/
structure FatFs.Usable (lib : FatLibrary δ φ ψ) (fs : FatFs δ φ ψ) (file : FatFile) : Prop where
  read : ∀ count, (fs.read lib file count).1 ≠ .error .fsInvalidFd
  write : ∀ buf, (fs.write lib file buf).1 ≠ .error .fsInvalidFd

/-- A call through a file does not change the positions of the others. -/
def Undisturbed (lib : FatLibrary δ φ ψ) (s : FatSession δ φ ψ) (call : FatCall)
    (s' : FatSession δ φ ψ) : Prop :=
  ∀ f ∈ s.files, call.file = some f.ptr → ∀ g ∈ s.files, g.ptr ≠ f.ptr →
    s'.position lib g = s.position lib g

def FatSession.alone (s : FatSession δ φ ψ) (file : FatFile) : Bool :=
  s.files.all fun g => g.ptr = file.ptr || g.inode ≠ file.inode

def FatCall.moves (lib : FatLibrary δ φ ψ) (flags : BitVec 32) (fil : φ) : FatCall → Bool
  | .read _ buf count => buf && (count % 2 ^ 32 ≠ 0 && lib.tell fil < lib.size fil)
  | .write _ buf => FatSession.writable flags && buf.any fun data => data.length % 2 ^ 32 ≠ 0
  | .seek _ offset whence => FatFs.newPos lib fil offset whence ≠ lib.tell fil
  | .close _ => true
  | _ => false

def FatCall.sparesOthers (lib : FatLibrary δ φ ψ) (s : FatSession δ φ ψ) (call : FatCall) : Bool :=
  (call.file.bind s.file).all fun file => (s.fs.handle file.inode).all fun fil =>
    s.alone file || !call.moves lib file.flags fil

def recordClosing (_ : FatSession δ φ ψ) (call : FatCall) (_ : FatSession δ φ ψ)
    (closing : List FilePtr) : List FilePtr :=
  match call with
  | .close ptr => ptr :: closing
  | .openFile _ _ ptr => closing.filter fun x => x ≠ ptr
  | _ => closing

def closingSystem (lib : FatLibrary δ φ ψ) (volumeId : ℕ) (disk : δ) :
    Transition (FatSession δ φ ψ × List FilePtr) FatCall :=
  (fatSystem lib volumeId disk).recorded [] recordClosing

/-! ## The pointer of an open file -/

theorem FatFs.usable_of_handle {file : FatFile}
    (h : fs.handle file.inode ≠ none) : fs.Usable lib file := by
  have hcode : ∀ fr, fresultToErrorCode fr ≠ .fsInvalidFd := by
    intro fr
    cases fr <;> decide
  cases hfil : (fs.inodes file.inode).fil with
  | none => exact absurd (by rw [handle, hfil, Option.map_none]) h
  | some k =>
    constructor
    · intro count
      simp only [FatFs.read, hfil]
      split
      · simpa using hcode _
      · simp
    · intro buf
      simp only [FatFs.write, hfil]
      split
      · simpa using hcode _
      · simp

/-! ## The invariant -/

/-- Every regular file has its object, unless it has been closed. -/
structure Held (s : FatSession δ φ ψ) (closing : List FilePtr) : Prop where
  handled : s.fs.Handled
  nodup : (s.files.map FatFile.ptr).Nodup
  inUse : ∀ file ∈ s.files, (s.fs.inodes file.inode).inUse = true
  handle : ∀ file ∈ s.files, file.ptr ∉ closing →
    (s.fs.inodes file.inode).inode.type ≠ .directory → s.fs.handle file.inode ≠ none

namespace Held

variable {ptr : FilePtr} {i : InodePtr} {path : CString} {f g f' : FatFile} {move : φ → φ}
  {call : FatCall}

theorem file_eq_some {file : FatFile} (h : s.file ptr = some file) :
    file ∈ s.files ∧ file.ptr = ptr := by
  have hptr := find?_some h
  exact ⟨mem_of_find?_eq_some h, of_decide_eq_true hptr⟩

section

variable (h : Held s closing)
include h

theorem still (hfiles : s'.files = s.files)
    (hs : s.fs.Still s'.fs) : Held s' closing where
  handled := hs.handled
  nodup := hfiles ▸ h.nodup
  inUse file hfile := by
    rw [hfiles] at hfile
    rw [hs.kept.inUse]
    exact h.inUse file hfile
  handle file hfile := by
    rw [hfiles] at hfile
    rw [hs.kept.type, hs.handle]
    exact h.handle file hfile

theorem newInode (hfiles : s'.files = s.files)
    (hn : s.fs.NewInode s'.fs i path) : Held s' closing := by
  have hne : ∀ file ∈ s.files, s'.fs.inodes file.inode = s.fs.inodes file.inode := by
    intro file hfile
    apply hn.inodes_of_ne
    intro heq
    have huse := h.inUse file hfile
    rw [heq, hn.free] at huse
    cases huse
  have hhandle : ∀ file ∈ s.files, s'.fs.handle file.inode = s.fs.handle file.inode := by
    intro file hfile
    rw [FatFs.handle, FatFs.handle, hne file hfile, hn.filPool]
  refine ⟨hn.handled h.handled, hfiles ▸ h.nodup, ?_, ?_⟩
  · intro file hfile
    rw [hfiles] at hfile
    rw [hne file hfile]
    exact h.inUse file hfile
  · intro file hfile
    rw [hfiles] at hfile
    rw [hne file hfile, hhandle file hfile]
    exact h.handle file hfile

/-! ## Read, Write and Seek -/

theorem eq_of_ptr_eq (hf : f ∈ s.files) (hg : g ∈ s.files) (hptr : f.ptr = g.ptr) : f = g :=
  inj_on_of_nodup_map h.nodup hf hg hptr

theorem mem_setFile {g' : FatFile}
    (hf : f ∈ s.files) (hsame : FatFs.SameFile f f') (hg : g' ∈ (s.setFile fs f').files) :
    ∃ g ∈ s.files, FatFs.SameFile g g' := by
  obtain ⟨g, hmem, rfl⟩ := mem_map.mp hg
  refine ⟨g, hmem, ?_⟩
  split_ifs with hptr
  · rw [h.eq_of_ptr_eq hmem hf (hptr.trans hsame.ptr)]
    exact hsame
  · exact ⟨rfl, rfl, rfl⟩

end

theorem map_ptr_setFile (s : FatSession δ φ ψ) (fs : FatFs δ φ ψ) (f : FatFile) :
    (s.setFile fs f).files.map FatFile.ptr = s.files.map FatFile.ptr := by
  rw [FatSession.setFile, map_map]
  apply map_congr_left
  intro g _
  rw [Function.comp_apply]
  split_ifs with hptr
  · exact hptr.symm
  · rfl

theorem moved (h : Held s closing)
    (hf : f ∈ s.files) (hm : s.fs.Moves fs f f' move) : Held (s.setFile fs f') closing where
  handled := hm.effect.handled
  nodup := by
    rw [map_ptr_setFile]
    exact h.nodup
  inUse g' hg' := by
    obtain ⟨g, hg, hgg⟩ := h.mem_setFile hf hm.same hg'
    rw [hgg.inode]
    exact (hm.effect.kept.inUse _).trans (h.inUse g hg)
  handle g' hg' hptr htype := by
    obtain ⟨g, hg, hgg⟩ := h.mem_setFile hf hm.same hg'
    rw [hgg.ptr] at hptr
    rw [hgg.inode] at htype ⊢
    have hopen := h.handle g hg hptr fun hdir => htype ((hm.effect.kept.type g.inode).trans hdir)
    change fs.handle g.inode ≠ none
    by_cases hi : g.inode = f.inode
    · rw [hi] at hopen ⊢
      rw [hm.handle, Ne, Option.map_eq_none_iff]
      exact hopen
    · rw [hm.effect.others g.inode hi]
      exact hopen

theorem position_of_moves (hm : s.fs.Moves fs f f' move)
    (hkeep : s.alone f = true ∨ ∀ fil, s.fs.handle f.inode = some fil →
      lib.tell (move fil) = lib.tell fil) (hg : g ∈ s.files) (hne : g.ptr ≠ f.ptr) :
    (s.setFile fs f').position lib g = s.position lib g := by
  change (fs.handle g.inode).map lib.tell = (s.fs.handle g.inode).map lib.tell
  by_cases hi : g.inode = f.inode
  · rcases hkeep with halone | hkeep
    · have hother := all_eq_true.mp halone g hg
      simp [hne, hi] at hother
    rw [hi, hm.handle, Option.map_map]
    cases hfil : s.fs.handle f.inode with
    | none => rfl
    | some fil => simp [hkeep fil hfil]
  · rw [hm.effect.others g.inode hi]

theorem spares_cases (hspares : call.sparesOthers lib s = true) (hcall : call.file = some ptr)
    (hf : s.file ptr = some f) :
    s.alone f = true ∨ ∀ fil, s.fs.handle f.inode = some fil →
      call.moves lib f.flags fil = false := by
  rw [FatCall.sparesOthers, hcall, Option.bind_some, hf, Option.all_some] at hspares
  by_cases halone : s.alone f = true
  · exact .inl halone
  right
  intro fil hfil
  rw [hfil, Option.all_some] at hspares
  simpa [halone] using hspares

/-! ## Open and Close -/

theorem prepared (h : Held s closing) (hptr : ptr ∉ s.files.map FatFile.ptr) (he : s.fs.Effect fs i)
    (hsame : s.fs.handle i ≠ none → fs = s.fs) :
    Held { s with fs } (closing.filter fun x => x ≠ ptr) where
  handled := he.handled
  nodup := h.nodup
  inUse g hg := (he.kept.inUse _).trans (h.inUse g hg)
  handle g hg hnot htype := by
    have hne : g.ptr ≠ ptr := fun heq => hptr (mem_map.mpr ⟨g, hg, heq⟩)
    have hclosing : g.ptr ∉ closing := fun hmem =>
      hnot (mem_filter.mpr ⟨hmem, decide_eq_true hne⟩)
    have hopen := h.handle g hg hclosing fun hdir => htype ((he.kept.type g.inode).trans hdir)
    by_cases hi : g.inode = i
    · rw [hi] at hopen ⊢
      rw [hsame hopen]
      exact hopen
    · rw [he.others g.inode hi]
      exact hopen

theorem cons (h : Held s closing) (hptr : f.ptr ∉ s.files.map FatFile.ptr)
    (hinUse : (s.fs.inodes f.inode).inUse = true)
    (hopen : (s.fs.inodes f.inode).inode.type ≠ .directory → s.fs.handle f.inode ≠ none) :
    Held { s with files := f :: s.files } closing where
  handled := h.handled
  nodup := by
    exact nodup_cons.mpr ⟨hptr, h.nodup⟩
  inUse g hg := by
    rcases mem_cons.mp hg with rfl | hg
    · exact hinUse
    · exact h.inUse g hg
  handle g hg hnot := by
    rcases mem_cons.mp hg with rfl | hg
    · exact hopen
    · exact h.handle g hg hnot

theorem close_still (h : fs.Handled)
    (hnone : fs.handle f.inode = none) : fs.Still (fs.close lib f).2 := by
  have hdir := FatFs.closeDir_still lib h f.inode
  have hfil : ((fs.closeDir lib f.inode).inodes f.inode).fil = none := by
    have hnone' := (hdir.handle f.inode).trans hnone
    rw [FatFs.handle, Option.map_eq_none_iff] at hnone'
    exact hnone'
  rw [FatFs.close]
  rw [hfil]
  exact hdir

theorem closed (h : Held s closing) (he : s.fs.Effect fs f.inode)
    (hspares : s.alone f = true ∨ s.fs.Still fs) :
    (∀ g ∈ s.files, g.ptr ≠ f.ptr → fs.handle g.inode = s.fs.handle g.inode) ∧
      Held { s with fs } (f.ptr :: closing) := by
  have hother : ∀ g ∈ s.files, g.ptr ≠ f.ptr → fs.handle g.inode = s.fs.handle g.inode := by
    intro g hg hne
    rcases hspares with halone | hstill
    · apply he.others
      have hother := all_eq_true.mp halone g hg
      simpa [hne] using hother
    · exact hstill.handle g.inode
  refine ⟨hother, he.handled, h.nodup, ?_, ?_⟩
  · exact fun g hg => (he.kept.inUse _).trans (h.inUse g hg)
  · intro g hg hnot htype
    rw [mem_cons, not_or] at hnot
    rw [hother g hg hnot.1]
    exact h.handle g hg hnot.2 fun hdir => htype ((he.kept.type g.inode).trans hdir)

theorem erase (h : Held s closing) (f : FatFile) :
    Held { s with files := s.files.erase f } closing where
  handled := h.handled
  nodup := h.nodup.sublist (erase_sublist.map _)
  inUse g hg := h.inUse g (mem_of_mem_erase hg)
  handle g hg := h.handle g (mem_of_mem_erase hg)

/-! ## Every step -/

theorem returns {r : Expected InodePtr × FatFs δ φ ψ} (h : Held s closing)
    (hr : s.fs.Returns path r) : Held { s with fs := r.2 } closing := by
  rcases hr with ⟨e, -, hsame⟩ | ⟨i, -, hnew⟩
  · exact h.still rfl (hsame.still h.handled)
  · exact h.newInode rfl hnew

theorem undisturbed_of_file (hcall : call.file = some f.ptr)
    (h : ∀ g ∈ s.files, g.ptr ≠ f.ptr → s'.position lib g = s.position lib g) :
    Undisturbed lib s call s' := by
  intro f' _ hf' g hg hne
  rw [hcall, Option.some.injEq] at hf'
  exact h g hg (hf' ▸ hne)

theorem undisturbed_of_none (hcall : call.file = none) : Undisturbed lib s call s' := by
  intro f _ hf
  rw [hcall] at hf
  cases hf

theorem openFile {flags : BitVec 32} (h : Held s closing)
    (hs : s.step lib (.openFile i flags ptr) = some s') :
    Held s' (closing.filter fun x => x ≠ ptr) ∧ ptr ∉ s.files.map FatFile.ptr := by
  obtain ⟨hok, hs⟩ := Option.ite_none_right_eq_some.mp hs
  obtain ⟨-, hinUse, hptr⟩ := hok
  obtain ⟨heffect, hsame, hopen⟩ := FatFs.openFile_effect lib h.handled { ptr, inode := i, flags }
  refine ⟨?_, hptr⟩
  generalize s.fs.openFile lib { ptr, inode := i, flags } = r at hs heffect hsame hopen
  obtain ⟨_ | _, fs⟩ := r
  · cases hs
    exact h.prepared hptr heffect hsame
  cases hs
  refine (h.prepared hptr heffect hsame).cons hptr ((heffect.kept.inUse i).trans hinUse) ?_
  intro htype
  apply hopen rfl
  rw [← heffect.kept.type]
  exact htype

theorem file (h : Held s closing) (hcall : call.file = some f.ptr) (hf : s.file f.ptr = some f)
    (hspares : call.sparesOthers lib s = true) (hm : s.fs.Moves fs f f' move)
    (htell : ∀ fil, call.moves lib f.flags fil = false → lib.tell (move fil) = lib.tell fil) :
    Held (s.setFile fs f') closing ∧ Undisturbed lib s call (s.setFile fs f') := by
  refine ⟨h.moved (file_eq_some hf).1 hm, undisturbed_of_file hcall fun g hg hne => ?_⟩
  refine position_of_moves hm ?_ hg hne
  exact (spares_cases hspares hcall hf).imp_right fun hstill fil hfil => htell fil (hstill fil hfil)

theorem step (hlib : lib.Documented) (h : Held s closing)
    (hspares : call.sparesOthers lib s = true) (hs : s.step lib call = some s') :
    Held s' (recordClosing s call s' closing) ∧ Undisturbed lib s call s' := by
  cases call with
  | mount device =>
    cases hs
    exact ⟨h.returns (s.fs.mount_returns lib device), undisturbed_of_none rfl⟩
  | unmount =>
    obtain ⟨hfiles, ⟨⟩⟩ := Option.ite_none_right_eq_some.mp hs
    refine ⟨⟨(FatFs.unmount_handled lib h.handled).1, h.nodup, ?_, ?_⟩, undisturbed_of_none rfl⟩
    · simp [hfiles]
    · simp [hfiles]
  | lookup dir name =>
    obtain ⟨-, ⟨⟩⟩ := Option.ite_none_right_eq_some.mp hs
    exact ⟨h.returns (s.fs.lookup_returns lib dir name), undisturbed_of_none rfl⟩
  | create dir name type =>
    obtain ⟨-, ⟨⟩⟩ := Option.ite_none_right_eq_some.mp hs
    exact ⟨h.returns (s.fs.create_returns lib dir name type), undisturbed_of_none rfl⟩
  | mkdir dir name =>
    obtain ⟨-, ⟨⟩⟩ := Option.ite_none_right_eq_some.mp hs
    exact ⟨h.returns (s.fs.create_returns lib dir name .directory), undisturbed_of_none rfl⟩
  | unlink dir name | rmdir dir name =>
    have hsame := s.fs.unlink_sameInodes lib dir name
    obtain ⟨-, ⟨⟩⟩ := Option.ite_none_right_eq_some.mp hs
    exact ⟨h.still rfl (hsame.still h.handled), undisturbed_of_none rfl⟩
  | openFile i flags ptr =>
    obtain ⟨hheld, hptr⟩ := h.openFile hs
    refine ⟨hheld, ?_⟩
    intro f hf heq
    rw [FatCall.file, Option.some.injEq] at heq
    exact absurd (mem_map.mpr ⟨f, hf, heq.symm⟩) hptr
  | read ptr buf count =>
    obtain ⟨f, hf, rfl⟩ := Option.map_eq_some_iff.mp hs
    obtain ⟨hmem, rfl⟩ := file_eq_some hf
    split_ifs with hbuf
    · exact ⟨h, fun _ _ _ _ _ _ => rfl⟩
    have htrue : buf = true := by simpa using hbuf
    refine h.file rfl hf hspares (FatFs.read_moves lib h.handled f count) fun fil hfalse => ?_
    have hstays : ¬ (count % 2 ^ 32 ≠ 0 ∧ lib.tell fil < lib.size fil) := by
      simpa [FatCall.moves, htrue] using hfalse
    obtain ⟨htell, hlen⟩ := hlib.read s.fs.disk fil (count % 2 ^ 32)
    omega
  | write ptr buf =>
    obtain ⟨f, hf, rfl⟩ := Option.map_eq_some_iff.mp hs
    obtain ⟨hmem, rfl⟩ := file_eq_some hf
    cases buf with
    | none => exact ⟨h, fun _ _ _ _ _ _ => rfl⟩
    | some buf =>
      dsimp only
      split_ifs with hwritable
      · exact ⟨h, fun _ _ _ _ _ _ => rfl⟩
      have htrue : FatSession.writable f.flags = true := by simpa using hwritable
      refine h.file rfl hf hspares (FatFs.write_moves lib h.handled f buf) fun fil hfalse => ?_
      have hlen : buf.length % 2 ^ 32 = 0 := by
        simpa [FatCall.moves, htrue] using hfalse
      rw [hlen, take_zero]
      obtain ⟨htell, hzero⟩ := hlib.write s.fs.disk fil []
      rw [htell, Nat.le_zero.mp hzero, Nat.add_zero]
  | seek ptr offset whence =>
    obtain ⟨f, hf, rfl⟩ := Option.map_eq_some_iff.mp hs
    obtain ⟨hmem, rfl⟩ := file_eq_some hf
    refine h.file rfl hf hspares (FatFs.seek_moves lib h.handled f offset whence) fun fil hfalse => ?_
    have hpos : FatFs.newPos lib fil offset whence = lib.tell fil := by
      simpa [FatCall.moves] using hfalse
    rw [hpos]
    exact hlib.lseek s.fs.disk fil
  | readDir ptr count =>
    obtain ⟨f, hf, rfl⟩ := Option.map_eq_some_iff.mp hs
    obtain ⟨hmem, rfl⟩ := file_eq_some hf
    split
    · exact ⟨h, fun _ _ _ _ _ _ => rfl⟩
    · exact h.file rfl hf hspares (FatFs.readDir_moves lib h.handled f count) fun _ _ => rfl
  | close ptr =>
    obtain ⟨f, hf, rfl⟩ := Option.map_eq_some_iff.mp hs
    obtain ⟨hmem, rfl⟩ := file_eq_some hf
    have heffect := FatFs.close_effect lib h.handled f
    have hspared : s.alone f = true ∨ s.fs.Still (s.fs.close lib f).2 := by
      refine (spares_cases hspares rfl hf).imp_right fun hmoves => close_still h.handled ?_
      rw [Option.eq_none_iff_forall_ne_some]
      intro fil hfil
      cases hmoves fil hfil
    obtain ⟨hother, hheld⟩ := h.closed heffect hspared
    have hposition := fun g hg hne => congrArg (Option.map lib.tell) (hother g hg hne)
    generalize s.fs.close lib f = r at hposition hheld ⊢
    obtain ⟨_ | _, fs⟩ := r
    · exact ⟨hheld, undisturbed_of_file rfl hposition⟩
    · exact ⟨hheld.erase f, undisturbed_of_file rfl hposition⟩

end Held

/-- Files that are open on one inode are independent in every run in which no call moves or closes
the object that they share: `Read` and `Write` through a file find the object until the file itself is
closed, and no call through another file changes the position. -/
theorem opens_independent (hlib : lib.Documented) {p : FatSession δ φ ψ × List FilePtr}
    (h : (closingSystem lib volumeId disk).ReachableBy
      (fun p call => call.sparesOthers lib p.1 = true) p) :
    (∀ file ∈ p.1.files, (p.1.fs.inodes file.inode).inode.type ≠ .directory → file.ptr ∉ p.2 →
      p.1.fs.Usable lib file) ∧
    ∀ call s', call.sparesOthers lib p.1 = true → p.1.step lib call = some s' →
      Undisturbed lib p.1 call s' := by
  have hheld : Held p.1 p.2 := by
    refine h.recorded (P := Held) ?_ ?_
    · rintro s rfl
      exact ⟨⟨nofun, nofun⟩, nodup_nil, nofun, nofun⟩
    · exact fun s closing call s' hp hspares hs => (hp.step hlib hspares hs).1
  constructor
  · intro file hfile htype hclosing
    exact FatFs.usable_of_handle (hheld.handle file hfile hclosing htype)
  · intro call s' hspares hs
    exact (hheld.step hlib hspares hs).2

theorem exampleLibrary_documented : exampleLibrary.Documented where
  read disk fil count := by
    refine ⟨rfl, ?_⟩
    simp only [exampleLibrary, length_take]
    omega
  write disk fil data := ⟨rfl, le_rfl⟩
  lseek disk fil := rfl

/-- A file is read to its end and opened once more; then a read through either of the two moves
nothing. -/
theorem opens_independent_at_end : ∃ p,
    (closingSystem exampleLibrary 0 [1, 2, 3, 4]).ReachableBy
      (fun p call => call.sparesOthers exampleLibrary p.1 = true) p ∧
    p.1.files.map FatFile.ptr = [8, 7] ∧
    FatCall.sparesOthers exampleLibrary p.1 (.read 7 true 4) = true ∧
    (∀ file ∈ p.1.files, (p.1.fs.inodes file.inode).inode.type ≠ .directory → file.ptr ∉ p.2 →
      p.1.fs.Usable exampleLibrary file) ∧
    ∀ s', p.1.step exampleLibrary (.read 7 true 4) = some s' →
      Undisturbed exampleLibrary p.1 (.read 7 true 4) s' := by
  obtain ⟨p, hr, hfiles, hspares⟩ := (closingSystem exampleLibrary 0 [1, 2, 3, 4]).exists_of_run
    (fun p call => call.sparesOthers exampleLibrary p.1 = true)
    [.mount (some 0), .create 0 [97] .regular, .openFile 1 FatFs.oReadWrite 7, .read 7 true 4,
      .openFile 1 FatFs.oReadWrite 8, .read 8 true 4]
    (fun p => p.1.files.map FatFile.ptr = [8, 7] ∧
      FatCall.sparesOthers exampleLibrary p.1 (.read 7 true 4))
    (s := (exampleSession, [])) ⟨rfl, rfl⟩ (by decide +kernel)
  obtain ⟨husable, hundisturbed⟩ := opens_independent exampleLibrary_documented hr
  exact ⟨p, hr, hfiles, hspares, husable, fun s' => hundisturbed _ s' hspares⟩

/-- Two files are open on one inode. A read through the first moves the second, and after `Close` of
the first the second cannot be read. -/
theorem opens_interfere :
    (∃ p, (closingSystem exampleLibrary 0 [1, 2, 3, 4]).Reachable p ∧
      ∃ s', p.1.step exampleLibrary (.read 7 true 2) = some s' ∧
        ¬ Undisturbed exampleLibrary p.1 (.read 7 true 2) s') ∧
    ∃ p, (closingSystem exampleLibrary 0 [1, 2, 3, 4]).Reachable p ∧
      ∃ file ∈ p.1.files, (p.1.fs.inodes file.inode).inode.type = .regular ∧ file.ptr ∉ p.2 ∧
        ¬ p.1.fs.Usable exampleLibrary file := by
  constructor
  · obtain ⟨p, hr, hfiles, s', hs, hmoved⟩ :=
    (closingSystem exampleLibrary 0 [1, 2, 3, 4]).exists_of_run (fun _ _ => True)
      [.mount (some 0), .create 0 [97] .regular, .openFile 1 FatFs.oReadWrite 7,
        .openFile 1 FatFs.oReadWrite 8]
      (fun p => p.1.files = [⟨8, 1, 0, FatFs.oReadWrite⟩, ⟨7, 1, 0, FatFs.oReadWrite⟩] ∧
        ∃ s' ∈ p.1.step exampleLibrary (.read 7 true 2),
          s'.position exampleLibrary ⟨8, 1, 0, FatFs.oReadWrite⟩ ≠
            p.1.position exampleLibrary ⟨8, 1, 0, FatFs.oReadWrite⟩)
      (s := (exampleSession, [])) ⟨rfl, rfl⟩ (by decide +kernel)
    refine ⟨p, hr, s', hs, ?_⟩
    intro hundisturbed
    apply hmoved
    apply hundisturbed ⟨7, 1, 0, FatFs.oReadWrite⟩ _ rfl
    · rw [hfiles]
      exact .head _
    · decide
    · rw [hfiles]
      exact .tail _ (.head _)
  · obtain ⟨p, hr, hfiles, hclosing, htype, hread⟩ :=
    (closingSystem exampleLibrary 0 [1, 2, 3, 4]).exists_of_run (fun _ _ => True)
      [.mount (some 0), .create 0 [97] .regular, .openFile 1 FatFs.oReadWrite 7,
        .openFile 1 FatFs.oReadWrite 8, .close 7]
      (fun p => p.1.files = [⟨8, 1, 0, FatFs.oReadWrite⟩] ∧ p.2 = [7] ∧
        (p.1.fs.inodes 1).inode.type = .regular ∧
        (p.1.fs.read exampleLibrary ⟨8, 1, 0, FatFs.oReadWrite⟩ 2).1 = .error .fsInvalidFd)
      (s := (exampleSession, [])) ⟨rfl, rfl⟩ (by decide +kernel)
    refine ⟨p, hr, ⟨8, 1, 0, FatFs.oReadWrite⟩, ?_, htype, ?_, ?_⟩
    · rw [hfiles]
      exact .head _
    · rw [hclosing]
      decide
    · intro husable
      exact husable.read 2 hread

/-! ## `Seek` -/

/-- The position that `whence` counts from. The end is where the library has it; `vfs::Seek` counts
from the size in the inode, which `Write` of another open file may have left behind. -/
def FatLibrary.seekBase (lib : FatLibrary δ φ ψ) (fil : φ) (file : FatFile) :
    SeekWhence → Option ℕ
  | .kSet => some 0
  | .kCur => some file.offset
  | .kEnd => some (lib.size fil)
  | .other => none

/-- A position before the start is refused, and the file moves to any other. -/
def AgreedSeek (position : ℤ) (file : FatFile) (r : Expected ℕ × FatFile) : Prop :=
  (position < 0 ∧ ∃ e, r = (.error e, file)) ∨
    ∃ n : ℕ, n = position ∧ r = (.ok n, { file with offset := n })

/-- `Seek` counts in 32 bits, and from the pointer of the library instead of the offset of the file.
Where the library follows, it does what `vfs::Seek` does exactly if the position has 32 bits and the
two are the same. -/
theorem fatSeek_agrees_iff (fs : FatFs δ φ ψ) (file : FatFile) {fil : φ} {b : ℕ} (offset : Int64)
    {whence : SeekWhence} (hopen : fs.handle file.inode = some fil)
    (hbase : lib.seekBase fil file whence = some b)
    (hseek : (lib.lseek fs.disk fil (FatFs.newPos lib fil offset.toInt whence)).1 = .ok) :
    AgreedSeek (b + offset.toInt) file
        ((fs.seek lib file offset.toInt whence).map id Prod.snd) ↔
      0 ≤ b + offset.toInt ∧ b + offset.toInt < 2 ^ 32 ∧
        (whence = .kCur → lib.tell fil % 2 ^ 32 = file.offset % 2 ^ 32) := by
  obtain ⟨h, hfil, rfl⟩ := Option.map_eq_some_iff.mp hopen
  have hexact : AgreedSeek (b + offset.toInt) file
      ((fs.seek lib file offset.toInt whence).map id Prod.snd) ↔
        (FatFs.newPos lib (fs.filPool h).object offset.toInt whence : ℤ) = b + offset.toInt := by
    simp only [AgreedSeek, FatFs.seek, hfil, hseek]
    constructor
    · rintro (⟨-, e, he⟩ | ⟨n, hn, hr⟩)
      · cases he
      · cases hr
        exact hn
    · exact fun heq => .inr ⟨_, heq, rfl⟩
  rw [hexact]
  cases whence with
  | other => cases hbase
  | kSet | kCur | kEnd =>
    cases hbase
    simp only [FatFs.newPos, reduceCtorEq, false_imp_iff, true_imp_iff, and_true]
    omega

/-- A file is set to its third byte. -/
theorem fatSeek_agrees_third : AgreedSeek 2 ⟨7, 1, 0, 0⟩
    (({ exampleSession.fs with inodes := fun _ => { fil := some 0 } }.seek exampleLibrary
      ⟨7, 1, 0, 0⟩ 2 .kSet).map id Prod.snd) :=
  (fatSeek_agrees_iff { exampleSession.fs with inodes := fun _ => { fil := some 0 } } ⟨7, 1, 0, 0⟩ 2
    rfl rfl rfl).mpr (by decide)

/-- One byte before the start is the last one that 32 bits can count. -/
theorem fatSeek_wraps : ∃ s, (fatSystem exampleLibrary 0 [1, 2, 3, 4]).Reachable s ∧
    ∃ file ∈ s.files, (s.fs.seek exampleLibrary file (-1) .kSet).1 = .ok (2 ^ 32 - 1) ∧
      ¬ AgreedSeek (-1) file ((s.fs.seek exampleLibrary file (-1) .kSet).map id Prod.snd) := by
  obtain ⟨s, hr, file, hfile, hseek⟩ := (fatSystem exampleLibrary 0 [1, 2, 3, 4]).exists_of_run
    (fun _ _ => True) [.mount (some 0), .create 0 [97] .regular, .openFile 1 0 7]
    (fun s => ∃ file ∈ s.files,
      (s.fs.seek exampleLibrary file (-1) .kSet).1 = .ok (2 ^ 32 - 1)) (s := exampleSession) rfl
    (by decide +kernel)
  refine ⟨s, hr, file, hfile, hseek, ?_⟩
  rintro (⟨-, e, he⟩ | ⟨n, hn, -⟩)
  · simp [Prod.ext_iff, hseek] at he
  · omega

end SimpleKernel.Filesystem
