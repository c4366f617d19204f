import SimpleKernel.Verification.Vfs.Calls

/-! Removal by path. `Unlink` and `RmDir` look for the name in memory only: they fail for a file that
the file system knows and no other call has brought into memory. -/

namespace SimpleKernel.Filesystem

variable {σ : Type}

/-- A name that `Lookup` of the file system finds is not missed by its `Unlink` and `Rmdir`. -/
structure FileSystem.RemovesFound (ops : FileSystem σ) : Prop where
  unlink : ∀ {fs dir name i}, (ops.lookup fs dir name).1 = .ok i →
    (ops.unlink fs dir name).1 ≠ .error .fsFileNotFound
  rmdir : ∀ {fs dir name i}, (ops.lookup fs dir name).1 = .ok i →
    (ops.rmdir fs dir name).1 ≠ .error .fsFileNotFound

theorem RamFs.findInDirectory_of_lookup {fs : RamFs} {dir : InodePtr} {name : CString}
    {i : Option InodePtr} (h : fs.lookup (some dir) (some name) = .ok i) :
    ∃ d entry, (fs.inodes dir).inode.fsPrivate = some d ∧
      fs.findInDirectory (some d) name = some entry := by
  unfold RamFs.lookup at h
  cases hd : (fs.inodes dir).inode.fsPrivate with
  | none => simp [hd, RamFs.findInDirectory] at h
  | some d =>
    cases hentry : fs.findInDirectory (some d) name with
    | none => simp [hd, hentry] at h
    | some entry => exact ⟨d, entry, rfl, hentry⟩

theorem ramFs_removesFound : ramFs.RemovesFound where
  unlink h := by
    obtain ⟨d, entry, hd, hentry⟩ := RamFs.findInDirectory_of_lookup h
    simp only [ramFs, RamFs.unlink, hd, hentry, RamFs.removeFromDirectory]
    split <;> simp
  rmdir h := by
    obtain ⟨d, entry, hd, hentry⟩ := RamFs.findInDirectory_of_lookup h
    simp only [ramFs, RamFs.rmdir, hd, hentry, RamFs.removeFromDirectory]
    split
    · simp
    · split_ifs <;> simp

namespace Vfs

section

variable (ops : FileSystem σ) (v : Vfs σ) (path : CString)

/-- The file system finds the last name of the path in the directory before it, with the type. -/
def locates (type : FileType) : Bool :=
  match v.lookup ops (some (splitPath path).1) with
  | (.error _, _) => false
  | (.ok parent, v) => (v.dentries parent).inode.any fun dir =>
    match ops.lookup (v.fileSystems dir.fs) dir.ptr (splitPath path).2 with
    | (.ok (some i), state) => ops.type state i = type
    | _ => false

def siblings : ℕ → Option DentryPtr → List DentryPtr
  | n + 1, some d => d :: siblings n (v.dentries d).nextSibling
  | _, _ => []

def childList (parent : DentryPtr) : List DentryPtr :=
  v.siblings v.allocated.length (v.dentries parent).children

/-- The last name of the path is that of a child in memory of the directory before it. -/
def inMemory : Bool :=
  match v.lookup ops (some (splitPath path).1) with
  | (.error _, _) => false
  | (.ok parent, v) =>
    (v.childList parent).any fun child => (v.dentries child).name = (splitPath path).2

end

variable {ops : FileSystem σ} {v : Vfs σ} {path : CString} {type : FileType}

theorem findFrom_isSome (name : CString) (n : ℕ) (first : Option DentryPtr) :
    (v.findFrom name n first).isSome = (v.siblings n first).any fun d => (v.dentries d).name = name := by
  induction n generalizing first with
  | zero => cases first <;> rfl
  | succ n ih =>
    cases first with
    | none => rfl
    | some d =>
      rw [findFrom, siblings, List.any_cons]
      split
      · simp_all
      · simp_all

theorem removeEntry_finds {refuses : Vfs σ → Dentry → Option ErrorCode}
    {op : σ → InodePtr → CString → Expected Unit × σ}
    (hrefuses : ∀ v d, refuses v d ≠ some .fsFileNotFound)
    (hop : ∀ {fs dir name i}, (ops.lookup fs dir name).1 = .ok i →
      (op fs dir name).1 ≠ .error .fsFileNotFound)
    (hparent : (splitPath path).1.length < 512) (hname : (splitPath path).2.length < 256)
    (h : v.locates ops path type) :
    (removeEntry ops refuses op v (some path)).1 ≠ .error .fsFileNotFound ↔ v.inMemory ops path := by
  have hcut : splitCut path = splitPath path := by
    simp only [splitCut]
    rw [List.take_of_length_le (by omega), List.take_of_length_le (by omega)]
  unfold locates at h
  unfold removeEntry inMemory
  dsimp only
  rw [hcut]
  rcases hlookup : v.lookup ops (some (splitPath path).1) with ⟨e | parent, v₁⟩
  all_goals rw [hlookup] at h
  · cases h
  obtain ⟨dir, hdir, hfound⟩ := (Option.any_eq_true _ _).mp h
  simp only [hdir]
  have hsearch := findFrom_isSome (v := v₁) (splitPath path).2 v₁.allocated.length
    (v₁.dentries parent).children
  rw [childList, ← hsearch]
  change _ ↔ (v₁.findChild parent (splitPath path).2).isSome
  cases v₁.findChild parent (splitPath path).2 with
  | none => simp
  | some target =>
    refine iff_of_true ?_ rfl
    dsimp only
    split
    · rename_i e he
      exact fun heq => hrefuses v₁ (v₁.dentries target) (he.trans (congrArg some (by cases heq; rfl)))
    split
    · simp
    have hfinds : ∃ i, (ops.lookup (v₁.fileSystems dir.fs) dir.ptr (splitPath path).2).1 = .ok i := by
      split at hfound
      · rename_i i state hi
        exact ⟨some i, by rw [hi]⟩
      · cases hfound
    obtain ⟨i, hi⟩ := hfinds
    have hremoved := hop hi
    split
    · rename_i e state he
      rwa [he] at hremoved
    · simp

/-- On a file system whose removal finds what its `Lookup` finds, `Unlink` of a file and `RmDir` of a
directory that it finds do not fail with `kFsFileNotFound` if and only if the name is in memory. -/
theorem removal_finds_iff (h : ops.RemovesFound) (hparent : (splitPath path).1.length < 512)
    (hname : (splitPath path).2.length < 256) :
    (v.locates ops path .regular →
      ((v.unlink ops (some path)).1 ≠ .error .fsFileNotFound ↔ v.inMemory ops path)) ∧
    (v.locates ops path .directory →
      ((v.rmDir ops (some path)).1 ≠ .error .fsFileNotFound ↔ v.inMemory ops path)) := by
  refine ⟨removeEntry_finds ?_ h.unlink hparent hname, removeEntry_finds ?_ h.rmdir hparent hname⟩
  · intro v d
    split
    · simp
    · split <;> simp
  · intro v d
    split
    · simp
    · split <;> simp

/-- A file that was opened is found. -/
theorem removal_finds_iff_opened : ∃ v, (vfsSystem ramFs fun _ => {}).Reachable v ∧
    v.locates ramFs [47, 97] .regular ∧
    (v.unlink ramFs (some [47, 97])).1 ≠ .error .fsFileNotFound := by
  obtain ⟨v, hr, hlocates, hmemory⟩ := (vfsSystem ramFs fun _ => {}).exists_of_run (fun _ _ => True)
    [.init, .mount (some [47]) (some 0) none [some 0],
      .openFile (some [47, 97]) oCreate (some 7) [some 1]]
    (fun v => v.locates ramFs [47, 97] .regular ∧ v.inMemory ramFs [47, 97]) rfl (by decide +kernel)
  exact ⟨v, hr, hlocates,
    ((removal_finds_iff ramFs_removesFound (by decide) (by decide)).1 hlocates).mpr hmemory⟩

/-- A file is created, but there is no memory for its entry. `Unlink` does not find it. -/
theorem unlink_misses : ∃ v, (vfsSystem ramFs fun _ => {}).Reachable v ∧
    v.locates ramFs [47, 97] .regular ∧
    (v.unlink ramFs (some [47, 97])).1 = .error .fsFileNotFound :=
  (vfsSystem ramFs fun _ => {}).exists_of_run (fun _ _ => True)
    [.init, .mount (some [47]) (some 0) none [some 0],
      .openFile (some [47, 97]) oCreate (some 7) [none]]
    (fun v => v.locates ramFs [47, 97] .regular ∧
      (v.unlink ramFs (some [47, 97])).1 = .error .fsFileNotFound) rfl (by decide +kernel)

end Vfs

end SimpleKernel.Filesystem
