import SimpleKernel.Model.Filesystem.Vfs

/-! A rule for invariants of the virtual file system: the calls are taken apart once into the changes
that they make at directory entries in the tree. -/

namespace SimpleKernel.Filesystem

variable {σ : Type} {ops : FileSystem σ} {v v' : Vfs σ} {path name : CString}

/-! ## Components -/

theorem length_copyPathComponent_le (path : CString) : (copyPathComponent path).length ≤ 255 := by
  rw [copyPathComponent, List.length_take]
  exact Nat.min_le_left _ _

theorem length_le_of_mem_componentsFrom {n : ℕ}
    (h : name ∈ componentsFrom n path) : name.length ≤ 255 := by
  induction n generalizing path with
  | zero => cases h
  | succ n ih =>
    rw [componentsFrom] at h
    split at h
    · cases h
    rcases List.mem_cons.mp h with rfl | h
    · exact length_copyPathComponent_le path
    · exact ih h

namespace Vfs

theorem length_le_of_mem_remaining {mountPath : CString}
    (h : name ∈ remaining mountPath path) : name.length ≤ 255 := by
  unfold remaining at h
  split at h
  · exact length_le_of_mem_componentsFrom (List.mem_of_mem_drop h)
  · exact length_le_of_mem_componentsFrom h

theorem length_le_of_splitChecked {parent : CString}
    (h : splitChecked path = some (parent, name)) : name.length ≤ 255 := by
  simp only [splitChecked] at h
  split at h
  · cases h
  rename_i hlen
  cases h
  omega

theorem length_splitCut_le (path : CString) : (splitCut path).2.length ≤ 255 := by
  simp only [splitCut, List.length_take]
  exact Nat.min_le_left _ _

theorem exists_of_isDirectory {i : Option InodeRef} (h : ¬(!v.isDirectory ops i) = true) :
    ∃ inode, i = some inode ∧ v.typeOf ops inode = .directory := by
  simp only [isDirectory, Bool.not_eq_true, Bool.not_eq_false'] at h
  obtain ⟨inode, hinode, htype⟩ := (Option.any_eq_true _ _).mp h
  exact ⟨inode, hinode, of_decide_eq_true htype⟩

/-! ## Changes -/

/-- The answer of a file system that is asked for a name in the directory at `d`. -/
inductive Asked (ops : FileSystem σ) (v : Vfs σ) (d : DentryPtr) (inode : InodeRef)
    (name : CString) : Expected (Option InodePtr) × σ → Prop
  | lookup (h : v.findChild d name = none) :
      Asked ops v d inode name (ops.lookup (v.fileSystems inode.fs) inode.ptr name)
  | create :
      Asked ops v d inode name (ops.create (v.fileSystems inode.fs) inode.ptr name .regular)
  | mkdir (h : v.findChild d name = none) :
      Asked ops v d inode name (ops.mkdir (v.fileSystems inode.fs) inode.ptr name)

/-- The answer of a file system that has to remove the name of `target`. -/
inductive Removing (ops : FileSystem σ) (v : Vfs σ) (target : DentryPtr) (inode : InodeRef)
    (name : CString) : Expected Unit × σ → Prop
  | unlink (i : InodeRef) (hi : (v.dentries target).inode = some i)
      (h : v.typeOf ops i ≠ .directory) :
      Removing ops v target inode name (ops.unlink (v.fileSystems inode.fs) inode.ptr name)
  | rmdir (i : InodeRef) (hi : (v.dentries target).inode = some i)
      (h : v.typeOf ops i = .directory) (hempty : (v.dentries target).children = none) :
      Removing ops v target inode name (ops.rmdir (v.fileSystems inode.fs) inode.ptr name)

/-- What has to be shown of an invariant, with the entries `Live` that a path can lead to. -/
structure Rule (ops : FileSystem σ) (Inv : Vfs σ → Prop) (Live : Vfs σ → DentryPtr → Prop) :
    Prop where
  root : ∀ {v d}, Inv v → v.rootDentry = some d → Live v d
  mountRoot : ∀ {v i mp}, Inv v → v.mountTable.mounts i = some mp → Live v mp.rootDentry
  parent : ∀ {v d p}, Inv v → Live v d → (v.dentries d).parent = some p → Live v p
  child : ∀ {v d name c}, Inv v → Live v d → v.findChild d name = some c → Live v c
  refuse : ∀ {v d inode name e state}, Inv v → Live v d → (v.dentries d).inode = some inode →
    v.typeOf ops inode = .directory → name.length ≤ 255 →
    Asked ops v d inode name (.error e, state) → Inv (v.setFs inode.fs state)
  add : ∀ {v d inode name new state c v'}, Inv v → Live v d → (v.dentries d).inode = some inode →
    v.typeOf ops inode = .directory → name.length ≤ 255 →
    Asked ops v d inode name (.ok new, state) →
    (v.setFs inode.fs state).addDentry d name (new.map fun i => ⟨inode.fs, i⟩) = (c, v') →
    Inv v' ∧ ∀ x, c = some x → Live v' x
  keep : ∀ {v d inode target name e state}, Inv v → Live v d →
    (v.dentries d).inode = some inode → name.length ≤ 255 → v.findChild d name = some target →
    Removing ops v target inode name (.error e, state) → Inv (v.setFs inode.fs state)
  drop : ∀ {v d inode target name state}, Inv v → Live v d →
    (v.dentries d).inode = some inode → name.length ≤ 255 → v.findChild d name = some target →
    Removing ops v target inode name (.ok (), state) →
    Inv ((v.setFs inode.fs state).dropDentry d target)

/-! ## Lookup -/

/-- The invariant holds after the call, and the entry it returns is in the tree. -/
def Keeps (Inv : Vfs σ → Prop) (Live : Vfs σ → DentryPtr → Prop)
    (r : Expected DentryPtr × Vfs σ) : Prop :=
  Inv r.2 ∧ ∀ d, r.1 = .ok d → Live r.2 d

theorem Keeps.error {Inv : Vfs σ → Prop} {Live : Vfs σ → DentryPtr → Prop} {e : ErrorCode}
    (h : Inv v) : Keeps Inv Live (.error e, v) :=
  ⟨h, fun _ h => by cases h⟩

namespace Rule

variable {Inv : Vfs σ → Prop} {Live : Vfs σ → DentryPtr → Prop}

variable (rule : Rule ops Inv Live)
include rule

theorem findOrAddChild {current : DentryPtr} {inode : InodeRef}
    {component : CString} (hinv : Inv v) (hlive : Live v current)
    (hinode : (v.dentries current).inode = some inode) (htype : v.typeOf ops inode = .directory)
    (hlen : component.length ≤ 255) :
    Keeps Inv Live (v.findOrAddChild ops current inode component) := by
  unfold Vfs.findOrAddChild
  split
  · rename_i child hfind
    refine ⟨hinv, ?_⟩
    rintro _ ⟨⟩
    exact rule.child hinv hlive hfind
  rename_i hfind
  split
  · have hasked : Asked ops v current inode component _ := .lookup hfind
    split
    · rename_i e state heq
      rw [heq] at hasked
      exact .error (rule.refuse hinv hlive hinode htype hlen hasked)
    rename_i result state heq
    rw [heq] at hasked
    split
    · rename_i v₁ hadd
      exact .error (rule.add hinv hlive hinode htype hlen hasked hadd).1
    rename_i child v₁ hadd
    obtain ⟨hinv₁, hlive₁⟩ := rule.add hinv hlive hinode htype hlen hasked hadd
    refine ⟨hinv₁, ?_⟩
    rintro _ ⟨⟩
    exact hlive₁ child rfl
  · exact .error hinv

theorem enter {child : DentryPtr} (mp : ℕ) (hinv : Inv v)
    (hlive : Live v child) : Live v (v.enter mp child).1 := by
  unfold Vfs.enter
  split
  · split
    · split
      · rename_i point hpoint
        split
        · exact rule.mountRoot hinv hpoint
        · exact hlive
      · exact hlive
    · exact hlive
  · exact hlive

theorem walk {names : List CString} (place : DentryPtr × ℕ)
    (hinv : Inv v) (hlive : Live v place.1) (hlen : ∀ name ∈ names, name.length ≤ 255) :
    Inv (walk ops names place v).2 ∧
      ∀ p, (Vfs.walk ops names place v).1 = .ok p → Live (Vfs.walk ops names place v).2 p.1 := by
  induction names generalizing place v with
  | nil =>
    refine ⟨hinv, ?_⟩
    rintro _ ⟨⟩
    exact hlive
  | cons component rest ih =>
    have hrest : ∀ name ∈ rest, name.length ≤ 255 := fun name h => hlen name (.tail _ h)
    obtain ⟨current, mp⟩ := place
    rw [Vfs.walk]
    split
    · exact ⟨hinv, fun _ h => by cases h⟩
    rename_i inode hinode
    split
    · exact ⟨hinv, fun _ h => by cases h⟩
    rename_i htype
    split
    · exact ih (current, mp) hinv hlive hrest
    split
    · apply ih _ hinv _ hrest
      cases hparent : (v.dentries current).parent with
      | none => exact hlive
      | some p => exact rule.parent hinv hlive hparent
    have hkeeps := rule.findOrAddChild hinv hlive hinode (not_not.mp htype)
      (hlen component (.head _))
    split
    · rename_i e v₁ heq
      rw [heq] at hkeeps
      exact ⟨hkeeps.1, fun _ h => by cases h⟩
    rename_i child v₁ heq
    rw [heq] at hkeeps
    exact ih _ hkeeps.1 (rule.enter mp hkeeps.1 (hkeeps.2 child rfl)) hrest

theorem lookup (path : Option CString) (hinv : Inv v) : Keeps Inv Live (v.lookup ops path) := by
  unfold Vfs.lookup Vfs.resolve
  split
  · exact .error hinv
  split
  · exact .error hinv
  split
  · exact .error hinv
  split
  · split
    · exact .error hinv
    rename_i root hroot
    refine ⟨hinv, ?_⟩
    rintro _ ⟨⟩
    exact rule.root hinv hroot
  split
  · exact .error hinv
  split
  · exact .error hinv
  rename_i path _ _ _ slot _ _ mp hmp
  obtain ⟨hinv', hlive'⟩ := rule.walk (mp.rootDentry, slot) hinv
    (rule.mountRoot hinv hmp) fun name h => length_le_of_mem_remaining h
  refine ⟨hinv', ?_⟩
  intro d hd
  cases hwalk : (Vfs.walk ops (remaining mp.mountPath path) (mp.rootDentry, slot) v).1 with
  | error e => simp [hwalk, Except.map] at hd
  | ok place =>
    simp only [Prod.map, hwalk, Except.map, Except.ok.injEq] at hd
    subst hd
    exact hlive' place hwalk

/-! ## The other calls -/

theorem makeEntry {checks : Bool}
    {op : σ → InodePtr → CString → Expected (Option InodePtr) × σ} (path : CString)
    (hop : ∀ v d inode name, ¬(checks && (v.findChild d name).isSome) = true →
      Asked ops v d inode name (op (v.fileSystems inode.fs) inode.ptr name))
    (hinv : Inv v) : Keeps Inv Live (makeEntry ops checks op v path) := by
  unfold Vfs.makeEntry
  split
  · exact .error hinv
  rename_i parentPath name hsplit
  have hkeeps := rule.lookup (some parentPath) hinv
  split
  · rename_i e v₁ heq
    rw [heq] at hkeeps
    exact .error hkeeps.1
  rename_i parent v₁ heq
  rw [heq] at hkeeps
  obtain ⟨hinv₁, hlive₁⟩ := hkeeps
  split
  · exact .error hinv₁
  rename_i inode hinode
  split
  · exact .error hinv₁
  rename_i htype
  split
  · exact .error hinv₁
  rename_i hfind
  split
  · exact .error hinv₁
  have hasked := hop v₁ parent inode name hfind
  have hlen := length_le_of_splitChecked hsplit
  have hlive := hlive₁ parent rfl
  split
  · rename_i e state hanswer
    rw [hanswer] at hasked
    exact .error (rule.refuse hinv₁ hlive hinode (not_not.mp htype) hlen hasked)
  rename_i new state hanswer
  rw [hanswer] at hasked
  split
  · rename_i v₂ hadd
    exact .error (rule.add hinv₁ hlive hinode (not_not.mp htype) hlen hasked hadd).1
  rename_i d v₂ hadd
  obtain ⟨hinv₂, hlive₂⟩ :=
    rule.add hinv₁ hlive hinode (not_not.mp htype) hlen hasked hadd
  refine ⟨hinv₂, ?_⟩
  rintro _ ⟨⟩
  exact hlive₂ d rfl

theorem createFile (path : CString) (hinv : Inv v) : Keeps Inv Live (v.createFile ops path) :=
  rule.makeEntry path (fun _ _ _ _ _ => .create) hinv

theorem mkDir (path : Option CString) (hinv : Inv v) : Inv (v.mkDir ops path).2 := by
  cases path with
  | none => exact hinv
  | some path =>
    refine (rule.makeEntry path (fun v d inode name h => ?_) hinv).1
    exact .mkdir (Option.not_isSome_iff_eq_none.mp h)

theorem removeEntry {refuses : Vfs σ → Dentry → Option ErrorCode}
    {op : σ → InodePtr → CString → Expected Unit × σ} (path : Option CString)
    (hop : ∀ v target inode name, refuses v (v.dentries target) = none →
      Removing ops v target inode name (op (v.fileSystems inode.fs) inode.ptr name))
    (hinv : Inv v) : Inv (removeEntry ops refuses op v path).2 := by
  unfold Vfs.removeEntry
  split
  · exact hinv
  rename_i path
  have hkeeps := rule.lookup (some (splitCut path).1) hinv
  have hlen := length_splitCut_le path
  split
  · rename_i e v₁ heq
    rw [heq] at hkeeps
    exact hkeeps.1
  rename_i parent v₁ heq
  rw [heq] at hkeeps
  obtain ⟨hinv₁, hlive₁⟩ := hkeeps
  split
  · exact hinv₁
  rename_i inode hinode
  split
  · exact hinv₁
  rename_i target hfind
  split
  · exact hinv₁
  rename_i hrefuses
  split
  · exact hinv₁
  have hremoving := hop v₁ target inode (splitCut path).2 hrefuses
  split
  · rename_i e state hanswer
    rw [hanswer] at hremoving
    exact rule.keep hinv₁ (hlive₁ parent rfl) hinode hlen hfind hremoving
  rename_i state hanswer
  rw [hanswer] at hremoving
  exact rule.drop hinv₁ (hlive₁ parent rfl) hinode hlen hfind hremoving

theorem unlink (path : Option CString) (hinv : Inv v) : Inv (v.unlink ops path).2 := by
  refine rule.removeEntry path (fun v target inode name h => ?_) hinv
  split at h
  · cases h
  rename_i i hi
  split at h
  · cases h
  · rename_i htype
    exact .unlink i hi htype

theorem rmDir (path : Option CString) (hinv : Inv v) : Inv (v.rmDir ops path).2 := by
  refine rule.removeEntry path (fun v target inode name h => ?_) hinv
  split at h
  · cases h
  rename_i hdir
  obtain ⟨i, hi, htype⟩ := exists_of_isDirectory hdir
  split at h
  · cases h
  · rename_i hempty
    exact .rmdir i hi htype (not_not.mp hempty)

theorem openFile (path : Option CString) (flags : BitVec 32) (file : Option FilePtr) (hinv : Inv v)
    (hopen : ∀ v₁ d, Inv v₁ → Live v₁ d →
      v.lookup ops path = (.ok d, v₁) ∨ (∃ v₀ p, Vfs.createFile ops v₀ p = (.ok d, v₁)) →
      Inv (v₁.openDentry ops d flags file).2) : Inv (v.openFile ops path flags file).2 := by
  unfold Vfs.openFile
  split
  · exact hinv
  split
  · exact hinv
  rename_i path
  split
  · exact hinv
  have hkeeps := rule.lookup (some path) hinv
  split
  · rename_i d v₁ heq
    rw [heq] at hkeeps
    exact hopen v₁ d hkeeps.1 (hkeeps.2 d rfl) (.inl heq)
  rename_i e v₁ heq
  rw [heq] at hkeeps
  split
  · exact hkeeps.1
  have hcreated := rule.createFile path hkeeps.1
  split
  · rename_i e v₂ hcreate
    rw [hcreate] at hcreated
    exact hcreated.1
  rename_i d v₂ hcreate
  rw [hcreate] at hcreated
  exact hopen v₂ d hcreated.1 (hcreated.2 d rfl) (.inr ⟨v₁, path, hcreate⟩)

end Rule

end Vfs

end SimpleKernel.Filesystem
