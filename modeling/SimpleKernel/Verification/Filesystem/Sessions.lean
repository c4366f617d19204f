import SimpleKernel.Verification.Filesystem.Files

/-! The directories are well formed in every state in which the file system is mounted. -/

namespace SimpleKernel.Filesystem

open List Function

variable {fs fs' : RamFs} {free : List InodePtr} {i : InodePtr} {k : ℕ} {s : Session}

/-! ## Mounting -/

def behindRoot : List InodePtr := (range (maxInodes - 1)).map (· + 1)

theorem range_maxInodes : range maxInodes = 0 :: behindRoot := range_succ_eq_map

theorem inUse_behindRoot : InUse behindRoot k ↔ k = 0 := by
  unfold InUse behindRoot maxInodes
  rw [mem_map]
  constructor
  · rintro ⟨hlt, hnot⟩
    by_contra hk
    have hpos : 0 < k := Nat.pos_of_ne_zero hk
    exact hnot ⟨k - 1, mem_range.mpr (Nat.sub_lt_sub_right hpos hlt), Nat.sub_add_cancel hpos⟩
  · rintro rfl
    refine ⟨by decide, ?_⟩
    rintro ⟨k, _, hk⟩
    exact absurd hk (Nat.succ_ne_zero k)

/-- The file system has just been mounted. -/
structure Mounted (fs fs' : RamFs) : Prop where
  wellFormed : WellFormed fs' behindRoot
  mounted : fs'.mounted = true
  rootInode : fs'.rootInode = some 0
  usedInodes : fs'.usedInodes = 1
  data : ∀ i, (fs'.inodes i).data = none
  type : (fs'.inodes 0).inode.type = .directory
  fileDataPoolUsed : fs'.fileDataPoolUsed = fs.fileDataPoolUsed

namespace RamFs

theorem linkInodes_chain (n : ℕ) (h : FreeChain fs.inodes fs.freeList free)
    (hge : ∀ i ∈ free, n ≤ i) :
    FreeChain (linkInodes n fs).inodes (linkInodes n fs).freeList (range n ++ free) := by
  induction n generalizing fs free with
  | zero => exact h
  | succ n ih =>
    rw [linkInodes, range_succ, append_assoc, singleton_append]
    apply ih
    · refine ⟨rfl, ?_⟩
      rw [setInode_self]
      apply h.congr
      intro i hi
      rw [setInode_of_ne fs (Nat.ne_of_gt (hge i hi))]
    · intro i hi
      obtain rfl | hi := mem_cons.mp hi
      · exact Nat.le_refl i
      · exact Nat.le_of_succ_le (hge i hi)

theorem linkInodes_data (n : ℕ) (fs : RamFs) (i : InodePtr) :
    ((linkInodes n fs).inodes i).data = (fs.inodes i).data := by
  induction n generalizing fs with
  | zero => rfl
  | succ n ih =>
    rw [linkInodes, ih]
    by_cases hi : i = n
    · rw [hi, setInode_self]
    · rw [setInode_of_ne fs hi]

theorem linkInodes_used (n : ℕ) (fs : RamFs) :
    (linkInodes n fs).fileDataPoolUsed = fs.fileDataPoolUsed := by
  induction n generalizing fs with
  | zero => rfl
  | succ n ih => exact ih _

theorem wellFormed_linkInodes (hdata : ∀ i, (fs.inodes i).data = none) (hfree : fs.freeList = none)
    {n : ℕ} (hn : n = maxInodes) : WellFormed (linkInodes n fs) (range n) := by
  have hempty : FreeChain fs.inodes fs.freeList [] := hfree
  have hchain := linkInodes_chain n hempty nofun
  rw [append_nil] at hchain
  have hnone : ∀ i, ((linkInodes n fs).inodes i).data = none := by
    intro i
    rw [linkInodes_data]
    exact hdata i
  have hentries : ∀ d, (linkInodes n fs).entries d = [] := fun d =>
    entries_of_data_none (hnone d)
  have hunused : ∀ i, ¬ InUse (range n) i := fun i hi =>
    hi.2 (mem_range.mpr (hn ▸ hi.1))
  constructor
  case chain => exact hchain
  case nodup => exact nodup_range
  case lt => exact fun i hi => hn ▸ mem_range.mp hi
  case idle => exact fun i _ => hnone i
  case self => exact fun i hi => absurd hi (hunused i)
  case type => exact fun i hi => absurd hi (hunused i)
  case aligned => exact fun i hi => absurd hi (hunused i)
  case room => exact fun i hi => absurd hi (hunused i)
  case empty => exact fun i hi => absurd hi (hunused i)
  case inside => exact fun d _ ha => absurd ha.inUse (hunused d)
  case apart => exact fun d _ _ _ _ ha => absurd ha.inUse (hunused d)
  case distinct =>
    intro d
    rw [hentries]
    exact nodup_nil
  case bound =>
    intro d
    rw [hentries]
    nofun
  case once =>
    intro d d'
    rw [hentries]
    nofun

def withRoot (fs : RamFs) : RamFs :=
  { fs with
    inodes := update fs.inodes 0
      { inode := { ino := 0, type := .directory, size := 0, permissions := 0o755, linkCount := 1,
                   fsPrivate := some 0 }
        data := none, capacity := 0, childCount := 0, nextFree := none }
    freeList := (fs.inodes 0).nextFree
    rootInode := some 0
    usedInodes := 1
    mounted := true }

theorem withRoot_of_ne (fs : RamFs) (h : i ≠ 0) : fs.withRoot.inodes i = fs.inodes i :=
  update_of_ne h ..

theorem wellFormed_withRoot (h : WellFormed fs (0 :: free)) : WellFormed fs.withRoot free := by
  have hroot := nodup_cons.mp h.nodup
  have hchanges : ChangesInode fs fs.withRoot 0 := by
    constructor
    case other => exact fun x hx => withRoot_of_ne fs hx
    case pool => rfl
    case used => rfl
    case data => exact h.idle 0 fun huse => (inUse_cons.mp huse).1 rfl
    case data' => rfl
  apply h.changesInode hchanges
  case hunbound => exact h.unbound_of_free mem_cons_self
  case hchain =>
    apply h.chain.2.congr
    intro x hx
    have hx0 : x ≠ 0 := fun heq => hroot.1 (heq ▸ hx)
    rw [withRoot_of_ne fs hx0]
  case hnodup => exact hroot.2
  case hlt => exact fun x hx => h.lt x (mem_cons_of_mem 0 hx)
  case huse =>
    intro x hx
    rw [inUse_cons]
    exact (and_iff_right hx).symm
  case hself => exact fun _ => rfl
  case htype => exact fun _ => .inr rfl
  case hempty => exact ⟨rfl, rfl⟩

theorem mount_cases (fs : RamFs) (device : Option ℕ)
    (hdata : fs.mounted = false → ∀ i, (fs.inodes i).data = none) :
    (∃ e, fs.mount device = (.error e, fs)) ∨
    ∃ fs', fs.mount device = (.ok 0, fs') ∧ fs.mounted = false ∧ Mounted fs fs' := by
  unfold mount
  by_cases hm : fs.mounted = true
  · left
    rw [if_pos hm]
    exact ⟨_, rfl⟩
  by_cases hdevice : device = none
  · right
    have hm' : fs.mounted = false := Bool.eq_false_iff.mpr hm
    rw [if_neg hm, if_neg (not_not.mpr hdevice)]
    have hlinked := @wellFormed_linkInodes { fs with freeList := none } (hdata hm') rfl _ rfl
    have hused := linkInodes_used maxInodes { fs with freeList := none }
    have hnone := fun i => linkInodes_data maxInodes { fs with freeList := none } i
    rw [range_maxInodes] at hlinked
    generalize linkInodes maxInodes { fs with freeList := none } = linked at hlinked hused hnone ⊢
    rw [allocateInode_of_free hlinked.chain.1]
    simp only [setInode, update_self, update_idem]
    refine ⟨linked.withRoot, rfl, hm', ?_⟩
    constructor
    case wellFormed => exact wellFormed_withRoot hlinked
    case mounted => rfl
    case rootInode => rfl
    case usedInodes => rfl
    case data =>
      intro i
      by_cases hi : i = 0
      · rw [hi]
        rfl
      · rw [withRoot_of_ne linked hi, hnone]
        exact hdata hm' i
    case type => rfl
    case fileDataPoolUsed => exact hused
  · left
    rw [if_neg hm, if_pos hdevice]
    exact ⟨_, rfl⟩

theorem unmount_cases (h : fs.mounted = true → WellFormed fs free) :
    (fs.mounted = false ∧ ∃ e, fs.unmount = (.error e, fs)) ∨
    ∃ fs', fs.unmount = (.ok (), fs') ∧ fs'.mounted = false ∧ fs'.fileDataPoolUsed = 0 ∧
      ∀ i, (fs'.inodes i).data = none := by
  unfold unmount
  cases hm : fs.mounted with
  | false => exact .inl ⟨rfl, _, rfl⟩
  | true =>
    right
    rw [hm] at h
    refine ⟨_, rfl, rfl, rfl, ?_⟩
    intro i
    dsimp only
    split_ifs with hkept
    · rfl
    by_cases huse : InUse free i
    · have htype := (h rfl).type i huse
      have hi : i < maxInodes := huse.1
      cases hdata : (fs.inodes i).data with
      | none => rfl
      | some data =>
        exfalso
        apply hkept
        obtain htype | htype := htype <;> simp [hi, htype, hdata]
    · exact (h rfl).idle i huse

end RamFs

/-! ## The invariant of the sessions -/

/-- The inodes that have been returned are in use, and the files are ones of them. -/
structure Session.Valid (s : Session) (free : List InodePtr) : Prop where
  wellFormed : s.fs.mounted = true → WellFormed s.fs free
  inUse : ∀ i ∈ s.inodes, s.fs.mounted = true ∧ InUse free i
  files : ∀ file ∈ s.files, ∃ i ∈ s.inodes, file.inode = some i
  unmounted : s.fs.mounted = false → ∀ i, (s.fs.inodes i).data = none

namespace Effect

variable {call : Call} {answer : Expected (Option InodePtr)} {free' : List InodePtr}

variable (he : Effect fs free call answer fs' free')
include he

theorem wellFormed (h : WellFormed fs free) : WellFormed fs' free' := by
  cases he with
  | null | found | notFound | invalidType | isADirectory | notADirectory | notEmpty => exact h
  | createFailed _ _ _ _ unchanged => exact unchanged.wellFormed
  | created _ _ _ _ created => exact created.wellFormed
  | unlinked _ _ _ _ removed => exact removed.wellFormed
  | rmdir _ _ _ _ _ removed => exact removed.wellFormed

theorem files : SameFiles fs fs' (InUse free) := by
  cases he with
  | null | found | notFound | invalidType | isADirectory | notADirectory | notEmpty =>
    exact .rfl fs _
  | createFailed _ _ _ _ unchanged => exact unchanged.files
  | created _ _ _ taken created => exact taken ▸ created.files
  | unlinked _ _ _ _ removed | rmdir _ _ _ _ _ removed =>
    exact removed.files.mono fun _ _ => trivial

theorem inUse (h : WellFormed fs free) :
    (∀ i, InUse free i → InUse free' i) ∧ ∀ i, answer = .ok (some i) → InUse free' i := by
  cases he with
  | null | notFound | invalidType | isADirectory | notADirectory | notEmpty | createFailed
    | unlinked | rmdir => exact ⟨fun _ hi => hi, nofun⟩
  | found mem inode =>
    refine ⟨fun _ hi => hi, ?_⟩
    intro i hi
    cases hi
    exact h.inUse_of_mem mem inode
  | created _ _ _ taken _ =>
    subst taken
    refine ⟨fun i hi => (inUse_cons.mp hi).2, ?_⟩
    intro i hi
    cases hi
    exact ⟨h.lt _ mem_cons_self, (nodup_cons.mp h.nodup).1⟩

end Effect

/-- What an operation makes of the session and of the free inodes. `kept` is every operation that
leaves the file system as it is: one that fails, or one that only reads or moves a file. -/
inductive Session.Change (s : Session) (free : List InodePtr) :
    Operation → Session → List InodePtr → Prop where
  | mounted {device : Option ℕ} {fs' : RamFs} (unmounted : s.fs.mounted = false)
      (mounted : Mounted s.fs fs') :
      Change s free (.mount device) { fs := fs', inodes := [0], files := [] } behindRoot
  | unmounted {fs' : RamFs} (unmounted : fs'.mounted = false)
      (used : fs'.fileDataPoolUsed = 0) (data : ∀ i, (fs'.inodes i).data = none) :
      Change s free .unmount { fs := fs', inodes := [], files := [] } free
  | called {call : Call} {free' : List InodePtr} (mounted : s.fs.mounted = true)
      (dir : ∀ d ∈ call.dir, InUse free d)
      (effect : Effect s.fs free call (call.exec s.fs).1 (call.exec s.fs).2 free')
      {inodes : List InodePtr} (returned : ∀ i ∈ inodes, i ∈ s.inodes ∨
        (call.exec s.fs).1 = .ok (some i)) (known : ∀ i ∈ s.inodes, i ∈ inodes) :
      Change s free (.call call) { s with fs := (call.exec s.fs).2, inodes } free'
  | kept {op : Operation} {files : List File}
      (known : ∀ file ∈ files, ∃ i ∈ s.inodes, file.inode = some i) :
      Change s free op { s with files } free
  | written {k : ℕ} {buf : Option (List UInt8)} {fs' : RamFs} {files : List File} {i : InodePtr}
      (mem : i ∈ s.inodes) (type : (s.fs.inodes i).inode.type = .regular)
      (changes : ChangesFile s.fs fs' i)
      (known : ∀ file ∈ files, ∃ i ∈ s.inodes, file.inode = some i) :
      Change s free (.write k buf) { s with fs := fs', files } free

namespace Session.Valid

variable {s s' : Session} {op : Operation}

section

variable (h : s.Valid free)
include h

theorem mount {device : Option ℕ} (hs : s.step (.mount device) = some s') :
    ∃ free', s.Change free (.mount device) s' free' := by
  obtain ⟨e, heq⟩ | ⟨fs', heq, hm, hmounted⟩ := s.fs.mount_cases device h.unmounted
  · simp only [Session.step, heq, Option.some.injEq] at hs
    subst hs
    exact ⟨free, .kept h.files⟩
  simp only [Session.step, heq, Option.some.injEq] at hs
  subst hs
  exact ⟨behindRoot, .mounted hm hmounted⟩

theorem unmount (hs : s.step .unmount = some s') : ∃ free', s.Change free .unmount s' free' := by
  obtain ⟨_, e, heq⟩ | ⟨fs', heq, hm, hused, hdata⟩ := RamFs.unmount_cases h.wellFormed
  · simp only [Session.step, heq, Option.some.injEq] at hs
    subst hs
    exact ⟨free, .kept h.files⟩
  simp only [Session.step, heq, Option.some.injEq] at hs
  subst hs
  exact ⟨free, .unmounted hm hused hdata⟩

theorem call {call : Call} (hs : s.step (.call call) = some s') :
    ∃ free', s.Change free (.call call) s' free' := by
  obtain ⟨hdir, hs⟩ := Option.ite_none_right_eq_some.mp hs
  cases hm : s.fs.mounted with
  | false =>
    have hnull : call.dir = none ∨ call.name = none := by
      left
      apply Option.eq_none_iff_forall_not_mem.mpr
      intro d hd
      have hmounted := (h.inUse d (hdir d hd)).1
      rw [hm] at hmounted
      cases hmounted
    rw [Call.exec_null s.fs hnull] at hs
    cases hs
    exact ⟨free, .kept h.files⟩
  | true =>
    have huse : ∀ d ∈ call.dir, InUse free d := fun d hd => (h.inUse d (hdir d hd)).2
    obtain ⟨free', he⟩ := (h.wellFormed hm).effect huse
    refine ⟨free', ?_⟩
    have hchange := fun inodes => @Change.called s free call free' hm huse he inodes
    split at hs
    · rename_i i fs' heq
      cases hs
      rw [heq] at hchange
      apply hchange (i :: s.inodes)
      · intro j hj
        obtain rfl | hj := mem_cons.mp hj
        · exact .inr rfl
        · exact .inl hj
      · exact fun _ => mem_cons_of_mem i
    rename_i answer fs' _ heq
    cases hs
    rw [heq] at hchange
    exact hchange s.inodes (fun _ hi => .inl hi) fun _ hi => hi

theorem files_set {file file' : File} (hfile : s.files[k]? = some file)
    (hinode : file'.inode = file.inode) :
    ∀ f ∈ s.files.set k file', ∃ i ∈ s.inodes, f.inode = some i := by
  intro f hf
  obtain hf | rfl := mem_or_eq_of_mem_set hf
  · exact h.files f hf
  · rw [hinode]
    exact h.files file (mem_of_getElem? hfile)

theorem write {buf : Option (List UInt8)}
    (hs : s.step (.write k buf) = some s') : s.Change free (.write k buf) s' free := by
  obtain ⟨file, hfile, rfl⟩ := Option.map_eq_some_iff.mp hs
  obtain ⟨i, hi, hinode⟩ := h.files file (mem_of_getElem? hfile)
  obtain ⟨hm, huse⟩ := h.inUse i hi
  have hself : ∀ j ∈ file.inode, (s.fs.inodes j).inode.fsPrivate = some j := by
    intro j hj
    rw [hinode] at hj
    cases hj
    exact (h.wellFormed hm).self i huse
  obtain ⟨hkept, hcases⟩ := RamFs.changesFile_write hself buf
  have hfiles := h.files_set hfile hkept
  generalize s.fs.write file buf = result at hkept hcases hfiles ⊢
  obtain ⟨r, fs', file'⟩ := result
  obtain rfl | ⟨j, hj, htype, hchanges⟩ := hcases
  · exact .kept hfiles
  rw [hinode] at hj
  cases hj
  exact .written hi htype hchanges hfiles

theorem change (hs : s.step op = some s') : ∃ free', s.Change free op s' free' := by
  cases op with
  | mount device => exact h.mount hs
  | unmount => exact h.unmount hs
  | call call => exact h.call hs
  | openFile inode =>
    obtain ⟨hmem, ⟨⟩⟩ := Option.ite_none_right_eq_some.mp hs
    refine ⟨free, .kept ?_⟩
    intro file hfile
    obtain hfile | hfile := mem_append.mp hfile
    · exact h.files file hfile
    · rw [mem_singleton.mp hfile]
      exact ⟨inode, hmem, rfl⟩
  | read k buf count =>
    obtain ⟨file, hfile, rfl⟩ := Option.map_eq_some_iff.mp hs
    exact ⟨free, .kept (h.files_set hfile (RamFs.read_inode s.fs file buf count))⟩
  | write k buf => exact ⟨free, h.write hs⟩
  | seek k offset whence =>
    obtain ⟨file, hfile, rfl⟩ := Option.map_eq_some_iff.mp hs
    exact ⟨free, .kept (h.files_set hfile (RamFs.seek_inode s.fs file offset whence))⟩

theorem written (hi : i ∈ s.inodes)
    (htype : (s.fs.inodes i).inode.type = .regular) (hc : ChangesFile s.fs fs' i) :
    WellFormed fs' free ∧ (∀ d, fs'.entries d = s.fs.entries d) ∧
      fs'.usedInodes = s.fs.usedInodes ∧ fs'.rootInode = s.fs.rootInode ∧
      fs'.mounted = s.fs.mounted := by
  obtain ⟨hm, huse⟩ := h.inUse i hi
  exact (h.wellFormed hm).changesFile hc huse htype

theorem of_change {free' : List InodePtr} (hc : s.Change free op s' free') : s'.Valid free' := by
  cases hc with
  | mounted _ mounted =>
    refine ⟨fun _ => mounted.wellFormed, ?_, nofun, ?_⟩
    · intro i hi
      rw [mem_singleton] at hi
      exact ⟨mounted.mounted, inUse_behindRoot.mpr hi⟩
    · intro hnot
      rw [mounted.mounted] at hnot
      cases hnot
  | unmounted unmounted used data =>
    refine ⟨?_, nofun, nofun, fun _ => data⟩
    intro hm
    rw [unmounted] at hm
    cases hm
  | called mounted dir effect returned known =>
    obtain ⟨hkept, hnew⟩ := effect.inUse (h.wellFormed mounted)
    have hmounted := effect.files.mounted.trans mounted
    refine ⟨fun _ => effect.wellFormed (h.wellFormed mounted), ?_, ?_, ?_⟩
    · intro i hi
      refine ⟨hmounted, ?_⟩
      obtain hold | hanswer := returned i hi
      · exact hkept i (h.inUse i hold).2
      · exact hnew i hanswer
    · intro file hfile
      obtain ⟨i, hi, heq⟩ := h.files file hfile
      exact ⟨i, known i hi, heq⟩
    · intro hm
      rw [hmounted] at hm
      cases hm
  | kept known => exact ⟨h.wellFormed, h.inUse, known, h.unmounted⟩
  | written mem type changes known =>
    obtain ⟨hw, _, _, _, hmounted⟩ := h.written mem type changes
    have hm := (h.inUse _ mem).1
    refine ⟨fun _ => hw, ?_, known, ?_⟩
    · intro x hx
      exact ⟨hmounted.trans hm, (h.inUse x hx).2⟩
    · intro hm'
      rw [hmounted, hm] at hm'
      cases hm'

end

theorem init : Session.Valid {} [] := ⟨nofun, nofun, nofun, fun _ _ => rfl⟩

end Session.Valid

theorem invariant_of_change {P : Session → List InodePtr → Prop} {ok : Session → Operation → Prop}
    (hinit : P {} [])
    (hstep : ∀ {s s' free free' op}, s.Valid free → P s free → ok s op →
      s.Change free op s' free' → P s' free')
    (h : sessionSystem.ReachableBy ok s) : ∃ free, s.Valid free ∧ P s free := by
  apply h.invariant (P := fun s => ∃ free, s.Valid free ∧ P s free)
  · rintro s rfl
    exact ⟨[], Session.Valid.init, hinit⟩
  · rintro s op s' ⟨free, hv, hp⟩ hok hs
    obtain ⟨free', hc⟩ := hv.change hs
    exact ⟨free', hv.of_change hc, hstep hv hp hok hc⟩

theorem valid_of_reachable (h : sessionSystem.Reachable s) : ∃ free, s.Valid free := by
  obtain ⟨free, hv, _⟩ := invariant_of_change (P := fun _ _ => True) trivial
    (fun _ _ _ _ => trivial) h
  exact ⟨free, hv⟩

end SimpleKernel.Filesystem
