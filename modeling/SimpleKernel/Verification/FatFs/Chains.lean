import SimpleKernel.Verification.FatFs.Effects

/-! The path of an inode. It is put together without a separator between the names, so that it is
right for the names in the root directory only. -/

namespace SimpleKernel.Filesystem

open List Function

variable {δ φ ψ : Type} {lib : FatLibrary δ φ ψ} {volumeId : ℕ} {disk : δ}

/-! ## Chains of names -/

/-- The path that a chain of names stands for. -/
def chainPath (volumeId : ℕ) (names : List CString) : CString :=
  volumePath volumeId ++ [slash].intercalate names

/-- The names that led to each inode, from the root on. -/
abbrev Chains := InodePtr → Option (List CString)

def Chains.add (chains : Chains) (dir : InodePtr) (name : CString) :
    Expected InodePtr → Chains
  | .ok i => update chains i ((chains dir).map (· ++ [name]))
  | .error _ => chains

def Chains.record (lib : FatLibrary δ φ ψ) (s : FatSession δ φ ψ) (call : FatCall)
    (_ : FatSession δ φ ψ) (chains : Chains) : Chains :=
  match call with
  | .mount device =>
    match (s.fs.mount lib device).1 with
    | .ok i => update chains i (some [])
    | .error _ => chains
  | .unmount => if s.fs.mounted then fun _ => none else chains
  | .lookup dir name => chains.add dir name (s.fs.lookup lib dir name).1
  | .create dir name type => chains.add dir name (s.fs.create lib dir name type).1
  | .mkdir dir name => chains.add dir name (s.fs.mkdir lib dir name).1
  | _ => chains

def chainSystem (lib : FatLibrary δ φ ψ) (volumeId : ℕ) (disk : δ) :
    Transition (FatSession δ φ ψ × Chains) FatCall :=
  (fatSystem lib volumeId disk).recorded (fun _ => none) (Chains.record lib)

/-- The paths of two chains are what the chains stand for, so that chains of names without `/` do not
get the same path. -/
structure PathsSpecified (volumeId : ℕ) (names names' : List CString) (path path' : CString) :
    Prop where
  first : path = chainPath volumeId names
  second : path' = chainPath volumeId names'
  distinct : (∀ n ∈ names, slash ∉ n) → (∀ n ∈ names', slash ∉ n) → names ≠ names' → path ≠ path'

/-! ## The path in the buffer -/

theorem length_take_buffer (path : CString) : (path.take (pathBufSize - 1)).length < pathBufSize := by
  rw [length_take, pathBufSize]
  omega

theorem fullPath_take (path name : CString) :
    (fullPath (path.take (pathBufSize - 1)) name).take (pathBufSize - 1) =
      (path ++ name).take (pathBufSize - 1) := by
  simp only [fullPath, take_take, min_self]
  rw [take_append, take_take, min_self, take_append, take_take]
  have hlen := length_take_buffer path
  rw [length_take] at hlen ⊢
  congr 2
  omega

/-! ## Runs -/

/-- Every inode has the names of its chain in its path, one behind the other. -/
structure Chained (volumeId : ℕ) (s : FatSession δ φ ψ) (chains : Chains) : Prop where
  volume : s.fs.volumeId = volumeId
  inUse : ∀ i names, chains i = some names → (s.fs.inodes i).inUse = true
  path : ∀ i names, chains i = some names → (s.fs.inodes i).path =
    (volumePath volumeId ++ names.flatten).take (pathBufSize - 1)

variable {s s' : FatSession δ φ ψ} {chains : Chains} {i dir : InodePtr} {name path : CString}

namespace Chained

variable (h : Chained volumeId s chains)
include h

theorem kept (hk : s.fs.Kept s'.fs) : Chained volumeId s' chains where
  volume := hk.volumeId.trans h.volume
  inUse i names hi := (hk.inUse i).trans (h.inUse i names hi)
  path i names hi := (hk.path i).trans (h.path i names hi)

theorem returned {chain : Option (List CString)}
    (hn : s.fs.NewInode s'.fs i path) (hpath : ∀ names ∈ chain, path.take (pathBufSize - 1) =
      (volumePath volumeId ++ names.flatten).take (pathBufSize - 1)) :
    Chained volumeId s' (update chains i chain) where
  volume := hn.volumeId.trans h.volume
  inUse j names hj := by
    by_cases hji : j = i
    · rw [hji]
      exact hn.inUse
    rw [update_of_ne hji] at hj
    rw [hn.inodes_of_ne j hji]
    exact h.inUse j names hj
  path j names hj := by
    by_cases hji : j = i
    · rw [hji, update_self] at hj
      rw [hji, hn.path, hpath names hj]
    rw [update_of_ne hji] at hj
    rw [hn.inodes_of_ne j hji]
    exact h.path j names hj

theorem add {r : Expected InodePtr × FatFs δ φ ψ}
    (hr : s.fs.Returns (fullPath (s.fs.inodes dir).path name) r) :
    Chained volumeId { s with fs := r.2 } (chains.add dir name r.1) := by
  rcases hr with ⟨e, he, hsame⟩ | ⟨i, hi, hnew⟩
  · rw [he]
    exact h.kept hsame.kept
  rw [hi]
  refine h.returned hnew ?_
  intro names hnames
  obtain ⟨names, hdir, rfl⟩ := Option.map_eq_some_iff.mp hnames
  rw [h.path dir names hdir, fullPath_take]
  simp

theorem step {call : FatCall} (hhandled : s.fs.Handled) (hs : s.step lib call = some s') :
    Chained volumeId s' (Chains.record lib s call s' chains) := by
  cases call with
  | mount device =>
    cases hs
    simp only [Chains.record]
    rcases s.fs.mount_returns lib device with ⟨e, he, hsame⟩ | ⟨i, hi, hnew⟩
    · rw [he]
      exact h.kept hsame.kept
    rw [hi]
    refine h.returned hnew ?_
    rw [h.volume]
    simp
  | unmount =>
    obtain ⟨-, ⟨⟩⟩ := Option.ite_none_right_eq_some.mp hs
    simp only [Chains.record]
    split_ifs with hmounted
    · obtain ⟨-, hvolume⟩ := FatFs.unmount_handled lib hhandled
      exact ⟨hvolume.trans h.volume, (by simp), (by simp)⟩
    · simpa [FatFs.unmount, hmounted] using h
  | lookup dir name =>
    obtain ⟨-, ⟨⟩⟩ := Option.ite_none_right_eq_some.mp hs
    exact h.add (s.fs.lookup_returns lib dir name)
  | create dir name type =>
    obtain ⟨-, ⟨⟩⟩ := Option.ite_none_right_eq_some.mp hs
    exact h.add (s.fs.create_returns lib dir name type)
  | mkdir dir name =>
    obtain ⟨-, ⟨⟩⟩ := Option.ite_none_right_eq_some.mp hs
    exact h.add (s.fs.create_returns lib dir name .directory)
  | unlink dir name | rmdir dir name =>
    have hsame := s.fs.unlink_sameInodes lib dir name
    obtain ⟨-, ⟨⟩⟩ := Option.ite_none_right_eq_some.mp hs
    exact h.kept hsame.kept
  | openFile | read | write | seek | readDir | close =>
    obtain ⟨i, heffect⟩ := effect_of_file hhandled rfl hs
    exact h.kept heffect.kept

end Chained

theorem chained_of_reachable {p : FatSession δ φ ψ × Chains}
    (h : (chainSystem lib volumeId disk).Reachable p) : Chained volumeId p.1 p.2 := by
  refine And.right (h.recorded (P := fun s chains => s.fs.Handled ∧ Chained volumeId s chains) ?_ ?_)
  · rintro s rfl
    exact ⟨⟨(by simp), (by simp)⟩, rfl, (by simp), (by simp)⟩
  · exact fun s chains call s' hp _ hs => ⟨handled_step hp.1 hs, hp.2.step hp.1 hs⟩

/-! ## Paths and chains -/

theorem length_intercalate_slash (n : CString) (names : List CString) :
    ([slash].intercalate (n :: names)).length = (n :: names).flatten.length + names.length := by
  induction names generalizing n with
  | nil => simp [intercalate]
  | cons m names ih =>
    have hcons : [slash].intercalate (n :: m :: names) =
        n ++ slash :: [slash].intercalate (m :: names) := by
      simp [intercalate, intersperse]
    rw [hcons]
    simp only [length_append, length_cons, ih m, flatten_cons]
    omega

theorem flatten_eq_iff (n : CString) (names : List CString) :
    volumePath volumeId ++ (n :: names).flatten = chainPath volumeId (n :: names) ↔ names = [] := by
  rw [chainPath, append_cancel_left_eq]
  constructor
  · intro heq
    have hlen := congrArg length heq
    rw [length_intercalate_slash] at hlen
    apply eq_nil_of_length_eq_zero
    omega
  · rintro rfl
    simp [intercalate]

variable {disk' : δ}

/-- The paths of two chains of names that fit into the buffer are the ones that the chains stand for
if and only if both chains are a name in the root directory. -/
theorem paths_specified_iff {p q : FatSession δ φ ψ × Chains}
    (hp : (chainSystem lib volumeId disk).Reachable p)
    (hq : (chainSystem lib volumeId disk').Reachable q) {i j : InodePtr} {n m : CString}
    {names names' : List CString} (hi : p.2 i = some (n :: names)) (hj : q.2 j = some (m :: names'))
    (hfit : (volumePath volumeId ++ (n :: names).flatten).length < pathBufSize)
    (hfit' : (volumePath volumeId ++ (m :: names').flatten).length < pathBufSize) :
    PathsSpecified volumeId (n :: names) (m :: names') (p.1.fs.inodes i).path
      (q.1.fs.inodes j).path ↔ names = [] ∧ names' = [] := by
  have hpath := (chained_of_reachable hp).path i _ hi
  have hpath' := (chained_of_reachable hq).path j _ hj
  rw [take_of_length_le (Nat.le_sub_one_of_lt hfit)] at hpath
  rw [take_of_length_le (Nat.le_sub_one_of_lt hfit')] at hpath'
  rw [hpath, hpath']
  constructor
  · intro h
    exact ⟨(flatten_eq_iff n names).mp h.first, (flatten_eq_iff m names').mp h.second⟩
  · rintro ⟨rfl, rfl⟩
    refine ⟨(flatten_eq_iff n []).mpr rfl, (flatten_eq_iff m []).mpr rfl, ?_⟩
    intro _ _ hne heq
    apply hne
    simpa using heq

/-- The files `a` and `b` in the root directory. -/
theorem paths_specified_of_root : ∃ p, (chainSystem exampleLibrary 0 [1, 2, 3, 4]).Reachable p ∧
    p.2 1 = some [[97]] ∧ p.2 2 = some [[98]] ∧
    PathsSpecified 0 [[97]] [[98]] (p.1.fs.inodes 1).path (p.1.fs.inodes 2).path := by
  obtain ⟨p, hr, hi, hj⟩ := (chainSystem exampleLibrary 0 [1, 2, 3, 4]).exists_of_run
    (fun _ _ => True)
    [.mount (some 0), .create 0 [97] .regular, .lookup 0 [98]]
    (fun p => p.2 1 = some [[97]] ∧ p.2 2 = some [[98]])
    (s := (exampleSession, fun _ => none)) ⟨rfl, rfl⟩ (by decide +kernel)
  exact ⟨p, hr, hi, hj, (paths_specified_iff hr hr hi hj (by decide) (by decide)).mpr ⟨rfl, rfl⟩⟩

/-- The file `b` in the directory `a` gets the path `0:/ab`, like the file `ab` in the root. -/
theorem chains_share_path : ∃ p, (chainSystem exampleLibrary 0 [1, 2, 3, 4]).Reachable p ∧
    p.2 2 = some [[97], [98]] ∧ p.2 3 = some [[97, 98]] ∧
    (p.1.fs.inodes 2).path ≠ chainPath 0 [[97], [98]] ∧
    (p.1.fs.inodes 2).path = (p.1.fs.inodes 3).path ∧
    ¬ PathsSpecified 0 [[97], [98]] [[97, 98]] (p.1.fs.inodes 2).path (p.1.fs.inodes 3).path := by
  obtain ⟨p, hr, h₁, h₂, h₃, h₄⟩ := (chainSystem exampleLibrary 0 [1, 2, 3, 4]).exists_of_run
    (fun _ _ => True)
    [.mount (some 0), .mkdir 0 [97], .create 1 [98] .regular, .create 0 [97, 98] .regular]
    (fun p => p.2 2 = some [[97], [98]] ∧ p.2 3 = some [[97, 98]] ∧
      (p.1.fs.inodes 2).path ≠ chainPath 0 [[97], [98]] ∧
      (p.1.fs.inodes 2).path = (p.1.fs.inodes 3).path)
    (s := (exampleSession, fun _ => none)) ⟨rfl, rfl⟩ (by decide +kernel)
  exact ⟨p, hr, h₁, h₂, h₃, h₄, fun h => h₃ h.first⟩

end SimpleKernel.Filesystem
