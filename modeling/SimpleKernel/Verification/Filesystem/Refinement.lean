import SimpleKernel.Verification.Filesystem.Sessions

/-! The directories of a mounted file system are one map from directories and names to inodes, and
the calls are lookups and updates of that map. -/

namespace SimpleKernel.Filesystem

open List

variable {fs fs' : RamFs} {free free' : List InodePtr} {d i : InodePtr} {name : CString}
  {e : RamDirEntry} {call : Call} {answer : Expected (Option InodePtr)}

/-! ## The abstract map -/

/-- The inodes that the names are bound to, and the inodes that are directories. -/
structure Tree where
  bind : InodePtr → CString → Option InodePtr
  dirs : Set InodePtr

namespace Tree

@[ext] theorem ext' {T T' : Tree} (hbind : ∀ d name, T.bind d name = T'.bind d name)
    (hdirs : ∀ d, d ∈ T.dirs ↔ d ∈ T'.dirs) : T = T' := by
  obtain ⟨bind, dirs⟩ := T
  obtain ⟨bind', dirs'⟩ := T'
  obtain rfl : bind = bind' := funext₂ hbind
  obtain rfl : dirs = dirs' := Set.ext hdirs
  rfl

def insert (T : Tree) (d : InodePtr) (name : CString) (i : InodePtr) (type : FileType) : Tree where
  bind x n := if x = d ∧ n = name then some i else T.bind x n
  dirs := { x | x ∈ T.dirs ∨ x = i ∧ type = .directory }

def erase (T : Tree) (d : InodePtr) (name : CString) : Tree where
  bind x n := if x = d ∧ n = name then none else T.bind x n
  dirs := T.dirs

/-- What a call may answer, and what it makes of the map. Only the calls that create have a choice:
of the inode, and of failing in a directory that is `full`. -/
inductive Step (full : InodePtr → Prop) (T : Tree) : Call → Expected (Option InodePtr) → Tree → Prop
    where
  | null {call : Call} (null : call.dir = none ∨ call.name = none) :
      Step full T call (.error .invalidArgument) T
  | found {d : InodePtr} {name : CString} {i : InodePtr} (bound : T.bind d name = some i) :
      Step full T (.lookup (some d) (some name)) (.ok (some i)) T
  | notFound {call : Call} {d : InodePtr} {name : CString} (dir : call.dir = some d)
      (named : call.name = some name) (creates : call.creates = none)
      (unbound : T.bind d name = none) : Step full T call (.error .fsFileNotFound) T
  | invalidType {call : Call} {type : FileType} (creates : call.creates = some type)
      (invalid : type ≠ .regular ∧ type ≠ .directory) : Step full T call (.error .invalidArgument) T
  | createInFile {call : Call} {d : InodePtr} {type : FileType} (dir : call.dir = some d)
      (creates : call.creates = some type) (file : d ∉ T.dirs) :
      Step full T call (.error .fsNotADirectory) T
  | createBound {call : Call} {d : InodePtr} {name : CString} {type : FileType} {i : InodePtr}
      (dir : call.dir = some d) (named : call.name = some name)
      (creates : call.creates = some type) (bound : T.bind d name = some i) :
      Step full T call (.error .fsFileExists) T
  | createFull {call : Call} {d : InodePtr} {type : FileType} (dir : call.dir = some d)
      (creates : call.creates = some type) (noRoom : full d) : Step full T call (.error .outOfMemory) T
  | created {call : Call} {d : InodePtr} {name : CString} {type : FileType} {i : InodePtr}
      (dir : call.dir = some d) (named : call.name = some name)
      (creates : call.creates = some type) (directory : d ∈ T.dirs)
      (unbound : T.bind d name = none) (fresh : ∀ x n, T.bind x n ≠ some i) (new : i ∉ T.dirs) :
      Step full T call (.ok (some i)) (T.insert d name i type)
  | unlinkDirectory {d : InodePtr} {name : CString} {i : InodePtr}
      (bound : T.bind d name = some i) (directory : i ∈ T.dirs) :
      Step full T (.unlink (some d) (some name)) (.error .fsIsADirectory) T
  | unlinked {d : InodePtr} {name : CString} {i : InodePtr} (bound : T.bind d name = some i)
      (file : i ∉ T.dirs) : Step full T (.unlink (some d) (some name)) (.ok none) (T.erase d name)
  | rmdirFile {d : InodePtr} {name : CString} {i : InodePtr} (bound : T.bind d name = some i)
      (file : i ∉ T.dirs) : Step full T (.rmdir (some d) (some name)) (.error .fsNotADirectory) T
  | rmdirNotEmpty {d : InodePtr} {name : CString} {i : InodePtr} (bound : T.bind d name = some i)
      (directory : i ∈ T.dirs) (notEmpty : ∃ n j, T.bind i n = some j) :
      Step full T (.rmdir (some d) (some name)) (.error .fsNotEmpty) T
  | rmdir {d : InodePtr} {name : CString} {i : InodePtr} (bound : T.bind d name = some i)
      (directory : i ∈ T.dirs) (empty : ∀ n, T.bind i n = none) :
      Step full T (.rmdir (some d) (some name)) (.ok none) (T.erase d name)

end Tree

/-! ## Unique names -/

/-- The name is not longer than the callers allow. -/
def Call.Short (call : Call) : Prop := ∀ name ∈ call.name, name.length ≤ 255

instance (call : Call) : Decidable call.Short :=
  inferInstanceAs (Decidable (∀ name ∈ call.name, name.length ≤ 255))

def Operation.Short (op : Operation) : Prop := ∀ call, op = .call call → call.Short

instance (op : Operation) : Decidable op.Short :=
  match op with
  | .call call => decidable_of_iff call.Short
      ⟨fun h _ heq => by cases heq; exact h, fun h => h call rfl⟩
  | .mount _ | .unmount | .openFile _ | .read .. | .write .. | .seek .. => .isTrue nofun

def UniqueNames (fs : RamFs) : Prop := ∀ d, ((fs.entries d).map (·.name)).Nodup

theorem uniqueNames_of_data_none (h : ∀ i, (fs.inodes i).data = none) : UniqueNames fs := by
  intro d
  rw [RamFs.entries_of_data_none (h d)]
  exact nodup_nil

theorem UniqueNames.of_entries (hu : UniqueNames fs) (h : ∀ d, fs'.entries d = fs.entries d) :
    UniqueNames fs' := by
  intro d
  rw [h]
  exact hu d

theorem UniqueNames.removed (hu : UniqueNames fs)
    (hr : Removed fs fs' free d e) : UniqueNames fs' := by
  intro x
  by_cases hx : x = d
  · subst hx
    have hnodup := (hr.entries_self.map (·.name)).nodup_iff.mp (hu x)
    exact (nodup_cons.mp hnodup).2
  · rw [hr.entries_of_ne x hx]
    exact hu x

theorem Effect.uniqueNames
    (he : Effect fs free call answer fs' free') (hshort : call.Short) (hu : UniqueNames fs) :
    UniqueNames fs' := by
  cases he with
  | null | found | notFound | invalidType | isADirectory | notADirectory | notEmpty => exact hu
  | createFailed _ _ _ _ unchanged => exact hu.of_entries unchanged.entries
  | created _ named _ _ created =>
    intro x
    rw [created.entries, take_of_length_le (hshort _ named)]
    split
    · rw [map_append, nodup_append]
      refine ⟨hu _, nodup_singleton _, ?_⟩
      intro a ha b hb
      obtain ⟨e, he, rfl⟩ := mem_map.mp ha
      rw [map_singleton, mem_singleton] at hb
      rw [hb]
      exact created.fresh e he
    · exact hu x
  | unlinked _ _ _ _ removed => exact hu.removed removed
  | rmdir _ _ _ _ _ removed => exact hu.removed removed

theorem UniqueNames.of_change {s s' : Session} (hv : s.Valid free) (hu : UniqueNames s.fs)
    {op : Operation} (hshort : op.Short) (hc : s.Change free op s' free') : UniqueNames s'.fs := by
  cases hc with
  | mounted _ mounted => exact uniqueNames_of_data_none mounted.data
  | unmounted _ _ data => exact uniqueNames_of_data_none data
  | called _ _ effect _ _ => exact effect.uniqueNames (hshort _ rfl) hu
  | kept _ => exact hu
  | written known type changes _ => exact hu.of_entries (hv.written known type changes).2.1

/-! ## The map of the file system -/

/-- The map of the entries, and the directories among the inodes that are not free. -/
def RamFs.tree (fs : RamFs) : Tree where
  bind d name := ((fs.entries d).find? fun e => e.name = name).bind (·.inode)
  dirs := { d | InUse fs.freeInodes d ∧ (fs.inodes d).inode.type = .directory }

theorem WellFormed.mem_dirs (h : WellFormed fs free) :
    d ∈ fs.tree.dirs ↔ InUse free d ∧ (fs.inodes d).inode.type = .directory := by
  change InUse fs.freeInodes d ∧ _ ↔ _
  rw [h.freeInodes]

theorem bind_eq_some (hu : UniqueNames fs) :
    fs.tree.bind d name = some i ↔ ∃ e ∈ fs.entries d, e.name = name ∧ e.inode = some i := by
  change ((fs.entries d).find? fun e => e.name = name).bind (·.inode) = some i ↔ _
  rw [Option.bind_eq_some_iff]
  constructor
  · rintro ⟨e, he, hi⟩
    obtain ⟨hmem, hname⟩ := (Keyed.find?_eq_some_iff (hu d)).mp he
    exact ⟨e, hmem, hname, hi⟩
  · rintro ⟨e, hmem, hname, hi⟩
    exact ⟨e, (Keyed.find?_eq_some_iff (hu d)).mpr ⟨hmem, hname⟩, hi⟩

theorem bind_of_mem (hu : UniqueNames fs) (hmem : e ∈ fs.entries d)
    (hinode : e.inode = some i) : fs.tree.bind d e.name = some i :=
  (bind_eq_some hu).mpr ⟨e, hmem, rfl, hinode⟩

theorem WellFormed.bind_eq_none (h : WellFormed fs free) (hu : UniqueNames fs) :
    fs.tree.bind d name = none ↔ ∀ e ∈ fs.entries d, e.name ≠ name := by
  constructor
  · intro hnone e he hname
    obtain ⟨i, hi, _⟩ := h.bound d e he
    rw [← hname, bind_of_mem hu he hi] at hnone
    cases hnone
  · intro hall
    apply Option.eq_none_iff_forall_not_mem.mpr
    intro i hi
    obtain ⟨e, he, hname, _⟩ := (bind_eq_some hu).mp hi
    exact hall e he hname

theorem WellFormed.mem_dirs_of_mem (h : WellFormed fs free) (hmem : e ∈ fs.entries d)
    (hinode : e.inode = some i) : i ∈ fs.tree.dirs ↔ (fs.inodes i).inode.type = .directory := by
  rw [h.mem_dirs]
  exact and_iff_right (h.inUse_of_mem hmem hinode)

theorem tree_of_unchanged (h : WellFormed fs free) (hu : Unchanged fs fs' free) :
    fs'.tree = fs.tree := by
  apply Tree.ext'
  · intro d name
    change ((fs'.entries d).find? _).bind _ = _
    rw [hu.entries]
    rfl
  · intro d
    rw [hu.wellFormed.mem_dirs, h.mem_dirs]
    exact and_congr_right fun huse => by rw [hu.files.type d huse]

theorem tree_of_created {t : FileType} (h : WellFormed fs (i :: free)) (hshort : name.length ≤ 255)
    (hc : Created fs fs' free d name t i) : fs'.tree = fs.tree.insert d name i t := by
  have hfresh : i ∉ free := (nodup_cons.mp h.nodup).1
  apply Tree.ext'
  · intro x n
    change ((fs'.entries x).find? _).bind _ = if x = d ∧ n = name then _ else _
    rw [hc.entries, take_of_length_le hshort]
    by_cases hx : x = d
    · subst hx
      have hconcat := Keyed.find?_concat (k := n) (a := (⟨name, some i⟩ : RamDirEntry)) hc.fresh
      rw [if_pos rfl, hconcat]
      by_cases hn : n = name
      · rw [if_pos hn, if_pos ⟨rfl, hn⟩]
        rfl
      · rw [if_neg hn, if_neg fun hand => hn hand.2]
        rfl
    · rw [if_neg hx, if_neg fun hand => hx hand.1]
      rfl
  · intro x
    rw [hc.wellFormed.mem_dirs, hc.type]
    change _ ↔ x ∈ fs.tree.dirs ∨ x = i ∧ t = .directory
    rw [h.mem_dirs, inUse_cons]
    by_cases hx : x = i
    · subst hx
      have huse : InUse free x := ⟨h.lt x mem_cons_self, hfresh⟩
      simp [huse]
    · simp [hx]

theorem tree_of_removed (h : WellFormed fs free) (hu : UniqueNames fs)
    (hr : Removed fs fs' free d e) : fs'.tree = fs.tree.erase d e.name := by
  apply Tree.ext'
  · intro x n
    change ((fs'.entries x).find? _).bind _ = if x = d ∧ n = e.name then _ else _
    by_cases hx : x = d
    · subst hx
      rw [Keyed.find?_of_perm_cons (hu x) hr.entries_self]
      by_cases hn : n = e.name
      · rw [if_pos hn, if_pos ⟨rfl, hn⟩]
        rfl
      · rw [if_neg hn, if_neg fun hand => hn hand.2]
        rfl
    · rw [hr.entries_of_ne x hx, if_neg fun hand => hx hand.1]
      rfl
  · intro x
    rw [hr.wellFormed.mem_dirs, hr.files.type x trivial]
    exact h.mem_dirs.symm

/-! ## Refinement -/

theorem Effect.tree_step
    (he : Effect fs free call answer fs' free') (h : WellFormed fs free) (hu : UniqueNames fs)
    (hshort : call.Short) (hdir : ∀ d ∈ call.dir, InUse free d) :
    Tree.Step fs.Full fs.tree call answer fs'.tree := by
  cases he with
  | null null => exact .null null
  | found mem inode => exact .found (bind_of_mem hu mem inode)
  | notFound dir named creates unbound =>
    exact .notFound dir named creates ((h.bind_eq_none hu).mpr unbound)
  | invalidType creates invalid => exact .invalidType creates invalid
  | createFailed dir named creates reason unchanged =>
    rw [tree_of_unchanged h unchanged]
    obtain ⟨rfl, htype⟩ | ⟨rfl, e, hmem, hname⟩ | ⟨rfl, hfull⟩ := reason
    · exact .createInFile dir creates fun hd => htype (h.mem_dirs.mp hd).2
    · obtain ⟨i, hi, _⟩ := h.bound _ e hmem
      exact .createBound dir named creates (hname ▸ bind_of_mem hu hmem hi)
    · exact .createFull dir creates hfull
  | created dir named creates taken created =>
    subst taken
    rw [tree_of_created h (hshort _ named) created]
    apply Tree.Step.created dir named creates
    case directory => exact h.mem_dirs.mpr ⟨hdir _ dir, created.directory⟩
    case unbound => exact (h.bind_eq_none hu).mpr created.fresh
    case fresh =>
      intro x n hbound
      obtain ⟨e, hmem, _, hinode⟩ := (bind_eq_some hu).mp hbound
      exact h.unbound_of_free mem_cons_self x e hmem hinode
    case new =>
      intro hmem
      exact (inUse_cons.mp (h.mem_dirs.mp hmem).1).1 rfl
  | isADirectory mem inode _ type =>
    exact .unlinkDirectory (bind_of_mem hu mem inode) ((h.mem_dirs_of_mem mem inode).mpr type)
  | unlinked mem inode _ type removed =>
    rw [tree_of_removed h hu removed]
    exact .unlinked (bind_of_mem hu mem inode) fun hd => type ((h.mem_dirs_of_mem mem inode).mp hd)
  | notADirectory mem inode _ type =>
    exact .rmdirFile (bind_of_mem hu mem inode) fun hd => type ((h.mem_dirs_of_mem mem inode).mp hd)
  | notEmpty mem inode _ type entries =>
    obtain ⟨e, he⟩ := exists_mem_of_ne_nil _ entries
    obtain ⟨j, hj, _⟩ := h.bound _ e he
    exact .rmdirNotEmpty (bind_of_mem hu mem inode) ((h.mem_dirs_of_mem mem inode).mpr type)
      ⟨e.name, j, bind_of_mem hu he hj⟩
  | rmdir mem inode _ type entries removed =>
    rw [tree_of_removed h hu removed]
    apply Tree.Step.rmdir (bind_of_mem hu mem inode) ((h.mem_dirs_of_mem mem inode).mpr type)
    intro n
    rw [(h.bind_eq_none hu), entries]
    exact nofun

theorem Effect.unchanged_of_error {e : ErrorCode}
    (he : Effect fs free call (.error e) fs' free') (h : WellFormed fs free) :
    free' = free ∧ Unchanged fs fs' free := by
  cases he with
  | null | notFound | invalidType | isADirectory | notADirectory | notEmpty =>
    exact ⟨rfl, h.unchanged⟩
  | createFailed _ _ _ _ unchanged => exact ⟨rfl, unchanged⟩

/-- In every state of a run with short names, the names of each directory are unique and any call is
a step of the map; if it fails, then the directories, the free inodes and their number stay. -/
theorem directories_refine_map {s : Session}
    (h : sessionSystem.ReachableBy (fun _ op => op.Short) s) :
    (∀ d, ((s.fs.entries d).map (·.name)).Nodup) ∧
    ∀ call : Call, s.fs.mounted = true → call.Short → (∀ d ∈ call.dir, d ∈ s.inodes) →
      Tree.Step s.fs.Full s.fs.tree call (call.exec s.fs).1 (call.exec s.fs).2.tree ∧
      ∀ e, (call.exec s.fs).1 = .error e →
        (∀ d, (call.exec s.fs).2.entries d = s.fs.entries d) ∧
        (call.exec s.fs).2.freeInodes = s.fs.freeInodes ∧
        (call.exec s.fs).2.usedInodes = s.fs.usedInodes := by
  obtain ⟨free, hv, hu⟩ := invariant_of_change (P := fun s _ => UniqueNames s.fs)
    (uniqueNames_of_data_none fun _ => rfl) (fun hv hu hok hc => hu.of_change hv hok hc) h
  refine ⟨hu, ?_⟩
  intro call hm hshort hdir
  have hw := hv.wellFormed hm
  have huse : ∀ d ∈ call.dir, InUse free d := fun d hd => (hv.inUse d (hdir d hd)).2
  obtain ⟨free', he⟩ := hw.effect huse
  refine ⟨he.tree_step hw hu hshort huse, ?_⟩
  intro e herror
  rw [herror] at he
  obtain ⟨rfl, hunchanged⟩ := he.unchanged_of_error hw
  refine ⟨hunchanged.entries, ?_, hunchanged.usedInodes⟩
  rw [hunchanged.wellFormed.freeInodes, hw.freeInodes]

theorem directories_refine_map_notEmpty : ∃ s,
    sessionSystem.ReachableBy (fun _ op => op.Short) s ∧ s.fs.mounted = true ∧
      s.inodes = [2, 1, 0] ∧
      Tree.Step s.fs.Full s.fs.tree (.rmdir (some 0) (some [97])) (.error .fsNotEmpty)
        ((Call.rmdir (some 0) (some [97])).exec s.fs).2.tree := by
  obtain ⟨s, hr, hm, hinodes, hanswer⟩ :=
    sessionSystem.exists_of_run (fun _ op => op.Short)
    [.mount none, .call (.mkdir (some 0) (some [97])),
      .call (.create (some 1) (some [98]) .regular)]
    (fun s => s.fs.mounted ∧ s.inodes = [2, 1, 0] ∧
      ((Call.rmdir (some 0) (some [97])).exec s.fs).1 = .error .fsNotEmpty)
    rfl (by decide +kernel)
  have hstep := ((directories_refine_map hr).2 (.rmdir (some 0) (some [97])) hm (by decide)
    (by simp [Call.dir, hinodes])).1
  rw [hanswer] at hstep
  exact ⟨s, hr, hm, hinodes, hstep⟩

end SimpleKernel.Filesystem
