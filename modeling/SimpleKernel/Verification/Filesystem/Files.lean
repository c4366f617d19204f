import SimpleKernel.Verification.Filesystem.Calls

/-! What the operations on files do to the inode and to the pool. -/

namespace SimpleKernel.Filesystem

variable {fs fs' : RamFs} {free : List InodePtr} {i : InodePtr}

/-- The step only changes the data and the size of a file. -/
structure ChangesFile (fs fs' : RamFs) (i : InodePtr) : Prop where
  other : ∀ x, x ≠ i → fs'.inodes x = fs.inodes x
  type : (fs'.inodes i).inode.type = (fs.inodes i).inode.type
  self : (fs'.inodes i).inode.fsPrivate = (fs.inodes i).inode.fsPrivate
  linkCount : (fs'.inodes i).inode.linkCount = (fs.inodes i).inode.linkCount
  childCount : (fs'.inodes i).childCount = (fs.inodes i).childCount
  nextFree : (fs'.inodes i).nextFree = (fs.inodes i).nextFree
  dirs : { fs' with
    inodes := fs.inodes
    fileDataPool := fs.fileDataPool
    fileDataPoolUsed := fs.fileDataPoolUsed } = fs

namespace ChangesFile

theorem rfl (fs : RamFs) (i : InodePtr) : ChangesFile fs fs i :=
  ⟨fun _ _ => Eq.refl _, Eq.refl _, Eq.refl _, Eq.refl _, Eq.refl _, Eq.refl _, Eq.refl _⟩

theorem trans {fs'' : RamFs} (h : ChangesFile fs fs' i) (h' : ChangesFile fs' fs'' i) :
    ChangesFile fs fs'' i where
  other x hx := (h'.other x hx).trans (h.other x hx)
  type := h'.type.trans h.type
  self := h'.self.trans h.self
  linkCount := h'.linkCount.trans h.linkCount
  childCount := h'.childCount.trans h.childCount
  nextFree := h'.nextFree.trans h.nextFree
  dirs := by
    have hdirs := h.dirs
    rw [← h'.dirs] at hdirs
    exact hdirs

section

variable (fs i)

theorem pool (pool : ℕ → UInt8) (used : ℕ) :
    ChangesFile fs { fs with fileDataPool := pool, fileDataPoolUsed := used } i :=
  ⟨fun _ _ => Eq.refl _, Eq.refl _, Eq.refl _, Eq.refl _, Eq.refl _, Eq.refl _, Eq.refl _⟩

theorem data (newData newCapacity : ℕ) :
    ChangesFile fs (fs.setInode i fun r =>
      { r with data := some newData, capacity := newCapacity }) i := by
  constructor
  case other => exact fun x hx => RamFs.setInode_of_ne _ hx _
  case dirs => exact Eq.refl _
  all_goals rw [RamFs.setInode_self]

theorem size (newSize : ℕ) :
    ChangesFile fs (fs.setInode i fun r => { r with inode := { r.inode with size := newSize } })
      i := by
  constructor
  case other => exact fun x hx => RamFs.setInode_of_ne _ hx _
  case dirs => exact Eq.refl _
  all_goals rw [RamFs.setInode_self]

end

end ChangesFile

namespace RamFs

/-! ## Frames -/

theorem changesFile_expandFile (fs : RamFs) (i : InodePtr) (newSize : ℕ) :
    ChangesFile fs (fs.expandFile i newSize).2 i := by
  unfold expandFile allocateFileData
  dsimp only
  split
  · exact .rfl fs i
  split
  · exact .rfl fs i
  rename_i halloc
  split at halloc
  · cases halloc
  cases halloc
  cases (fs.inodes i).data with
  | none => exact (ChangesFile.pool fs i fs.fileDataPool _).trans (.data _ i _ _)
  | some data => exact (ChangesFile.pool fs i _ _).trans (.data _ i _ _)

def stored (fs : RamFs) (i : InodePtr) (offset : ℕ) (bytes : List UInt8) (newOffset : ℕ) : RamFs :=
  let fs := { fs with
    fileDataPool := copyBytes fs.fileDataPool ((fs.inodes i).data.getD 0 + offset) bytes }
  if (fs.inodes i).inode.size < newOffset then
    fs.setInode i fun r => { r with inode := { r.inode with size := newOffset } }
  else fs

theorem changesFile_stored (fs : RamFs) (i : InodePtr) (offset : ℕ) (bytes : List UInt8)
    (newOffset : ℕ) : ChangesFile fs (fs.stored i offset bytes newOffset) i := by
  unfold stored
  dsimp only
  split
  · exact (ChangesFile.pool fs i _ fs.fileDataPoolUsed).trans (.size _ i _)
  · exact .pool fs i _ fs.fileDataPoolUsed

theorem write_eq {file : File} (hfile : file.inode = some i)
    (htype : (fs.inodes i).inode.type = .regular)
    (hself : (fs.inodes i).inode.fsPrivate = some i) (bytes : List UInt8) :
    fs.write file (some bytes) =
      match if (fs.inodes i).capacity < (file.offset + bytes.length) % 2 ^ 64 then
          fs.expandFile i ((file.offset + bytes.length) % 2 ^ 64) else (.ok (), fs) with
      | (.error e, fs) => (.error e, fs, file)
      | (.ok _, fs) =>
        (.ok bytes.length,
          fs.stored i file.offset bytes ((file.offset + bytes.length) % 2 ^ 64),
          { file with offset := (file.offset + bytes.length) % 2 ^ 64 }) := by
  obtain ⟨inode, offset⟩ := file
  subst hfile
  unfold write
  simp only [htype, hself, ne_eq, not_true_eq_false, if_false, Option.getD_some]
  generalize (if (fs.inodes i).capacity < (offset + bytes.length) % 2 ^ 64 then
    fs.expandFile i ((offset + bytes.length) % 2 ^ 64) else (.ok (), fs)) = r
  obtain ⟨e | _, fs⟩ := r <;> rfl

theorem changesFile_write {file : File} (hself : ∀ i ∈ file.inode,
    (fs.inodes i).inode.fsPrivate = some i) (buf : Option (List UInt8)) :
    (fs.write file buf).2.2.inode = file.inode ∧
    ((fs.write file buf).2.1 = fs ∨ ∃ i, file.inode = some i ∧
      (fs.inodes i).inode.type = .regular ∧ ChangesFile fs (fs.write file buf).2.1 i) := by
  cases buf with
  | none => exact ⟨rfl, .inl rfl⟩
  | some bytes =>
    cases hfile : file.inode with
    | none =>
      unfold write
      simp [hfile]
    | some i =>
      by_cases htype : (fs.inodes i).inode.type = .regular
      · rw [write_eq hfile htype (hself i hfile)]
        have hexpand : ChangesFile fs (if (fs.inodes i).capacity <
            (file.offset + bytes.length) % 2 ^ 64 then
              fs.expandFile i ((file.offset + bytes.length) % 2 ^ 64) else (.ok (), fs)).2 i := by
          split
          · exact changesFile_expandFile fs i _
          · exact .rfl fs i
        split
        · rename_i heq
          rw [heq] at hexpand
          exact ⟨hfile, .inr ⟨i, rfl, htype, hexpand⟩⟩
        rename_i heq
        rw [heq] at hexpand
        exact ⟨hfile, .inr ⟨i, rfl, htype, hexpand.trans (changesFile_stored _ i _ _ _)⟩⟩
      · unfold write
        simp [hfile, htype]

theorem read_inode (fs : RamFs) (file : File) (buf : Bool) (count : ℕ) :
    (fs.read file buf count).2.inode = file.inode := by
  unfold read
  split
  · rfl
  split
  · rfl
  dsimp only
  split
  · rfl
  · split <;> rfl

theorem seek_inode (fs : RamFs) (file : File) (offset : ℤ) (whence : SeekWhence) :
    (fs.seek file offset whence).2.inode = file.inode := by
  unfold seek
  dsimp only
  split
  · split <;> rfl
  · split <;> rfl
  · split
    · rfl
    · split <;> rfl
  · rfl

end RamFs

theorem WellFormed.changesFile (h : WellFormed fs free) (hc : ChangesFile fs fs' i)
    (hi : InUse free i) (htype : (fs.inodes i).inode.type = .regular) :
    WellFormed fs' free ∧ (∀ d, fs'.entries d = fs.entries d) ∧
      fs'.usedInodes = fs.usedInodes ∧ fs'.rootInode = fs.rootInode ∧ fs'.mounted = fs.mounted := by
  have hall : ∀ {α : Type} (p : RamInode → α), p (fs'.inodes i) = p (fs.inodes i) →
      ∀ x, p (fs'.inodes x) = p (fs.inodes x) := by
    intro α p hp x
    by_cases hx : x = i
    · rw [hx]
      exact hp
    · rw [hc.other x hx]
  have htypes := hall (·.inode.type) hc.type
  have hdir : ∀ x, (fs.inodes x).inode.type = .directory → fs'.inodes x = fs.inodes x := by
    intro x hx
    apply hc.other x
    rintro rfl
    rw [htype] at hx
    cases hx
  have hentries : ∀ d, fs'.entries d = fs.entries d := by
    intro d
    apply RamFs.entries_congr (htypes d)
    · exact fun hd => by rw [hdir d hd]
    · exact fun hd => by rw [hdir d hd]
    · intro data k _ _ _
      rw [← hc.dirs]
  refine ⟨?_, hentries, ?_, ?_, ?_⟩
  · apply h.of_same_entries ?_ (fun d hd => by rw [hdir d hd]) (hall (·.inode.linkCount) hc.linkCount)
      hentries
    constructor
    case freeList => rw [← hc.dirs]
    case used => rw [← hc.dirs]
    case type => exact htypes
    case self => exact hall (·.inode.fsPrivate) hc.self
    case nextFree => exact hall (·.nextFree) hc.nextFree
    case idle =>
      intro x hx
      rw [hc.other x fun heq => hx (heq ▸ hi)]
    case data => exact fun x hx => by rw [hdir x hx]
    case capacity => exact fun x hx => by rw [hdir x hx]
  all_goals rw [← hc.dirs]

namespace RamFs

/-! ## A larger region -/

def expanded (fs : RamFs) (i : InodePtr) (n : ℕ) : RamFs :=
  { fs with
    inodes := Function.update fs.inodes i { fs.inodes i with
      data := some fs.fileDataPoolUsed, capacity := n }
    fileDataPool := match (fs.inodes i).data with
      | none => fs.fileDataPool
      | some data => copyBytes fs.fileDataPool fs.fileDataPoolUsed
          (fs.bytesAt data (fs.inodes i).inode.size)
    fileDataPoolUsed := fs.fileDataPoolUsed + n }

theorem expandFile_cases (fs : RamFs) (i : InodePtr) {newSize : ℕ} (hnew : newSize < 2 ^ 63)
    (hused : fs.fileDataPoolUsed ≤ fileDataPoolSize) (hroom : (fs.inodes i).capacity < newSize) :
    fs.expandFile i newSize = (.error .outOfMemory, fs) ∨
    ∃ n, newSize ≤ n ∧ fs.fileDataPoolUsed + n ≤ fileDataPoolSize ∧
      fs.expandFile i newSize = (.ok (), fs.expanded i n) := by
  have hn : (newSize + 255) % 2 ^ 64 = newSize + 255 := Nat.mod_eq_of_lt (by omega)
  have hle : newSize ≤ (newSize + 255) / 256 * 256 := by omega
  have hlt : (newSize + 255) / 256 * 256 < 2 ^ 63 + 256 := by omega
  have hmul : ∃ k, (newSize + 255) / 256 * 256 = 16 * k := ⟨(newSize + 255) / 256 * 16, by omega⟩
  unfold expandFile allocateFileData
  simp only [if_neg (Nat.not_le.mpr hroom), hn]
  generalize (newSize + 255) / 256 * 256 = n at hle hlt hmul ⊢
  have haligned : (n + 15) % 2 ^ 64 / 16 * 16 = n := by
    omega
  have hsum : (fs.fileDataPoolUsed + n) % 2 ^ 64 = fs.fileDataPoolUsed + n := by
    unfold fileDataPoolSize at hused
    omega
  rw [haligned, hsum]
  by_cases hfull : fileDataPoolSize < fs.fileDataPoolUsed + n
  · left
    rw [if_pos hfull]
  right
  refine ⟨n, hle, Nat.le_of_not_lt hfull, ?_⟩
  rw [if_neg hfull]
  unfold expanded setInode
  cases (fs.inodes i).data with
  | none => rfl
  | some data => rfl

end RamFs

end SimpleKernel.Filesystem
