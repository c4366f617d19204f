import SimpleKernel.Verification.Filesystem.Sessions
import Mathlib.Data.Set.Card

/-! The inodes in use are the ones that can be reached from the root, as long as nothing is removed:
the inode of a removed entry is never put back on the free list. -/

namespace SimpleKernel.Filesystem

open List

variable {fs fs' : RamFs} {free free' : List InodePtr} {d i : InodePtr} {s s' : Session}
  {inodes : List InodePtr} {files : List File} {name : CString} {dir : Option InodePtr}

/-- The root, and the inodes of the entries of directories that are linked. -/
inductive Linked (fs : RamFs) : InodePtr → Prop where
  | root {i : InodePtr} (root : fs.rootInode = some i) : Linked fs i
  | entry {d i : InodePtr} {e : RamDirEntry} (dir : Linked fs d) (mem : e ∈ fs.entries d)
      (inode : e.inode = some i) : Linked fs i

/-- The inodes that are not free are the linked ones, and `used_inodes_` is their number. -/
structure Accounted (fs : RamFs) : Prop where
  inUse : ∀ i, InUse fs.freeInodes i ↔ Linked fs i
  used : fs.usedInodes = { i | Linked fs i }.ncard

/-- The operation takes no entry away: what it unlinks is a directory, and what it removes as a
directory is a file or has entries. -/
def Operation.Keeps (s : Session) : Operation → Prop
  | .call (.unlink dir name) => ∀ i, s.fs.lookup dir name = .ok (some i) →
      (s.fs.inodes i).inode.type = .directory
  | .call (.rmdir dir name) => ∀ i, s.fs.lookup dir name = .ok (some i) →
      (s.fs.inodes i).inode.type = .directory → (s.fs.inodes i).childCount ≠ 0
  | _ => True

theorem Linked.mono (h : Linked fs i) (hroot : fs'.rootInode = fs.rootInode)
    (hentries : ∀ d, ∀ e ∈ fs.entries d, e ∈ fs'.entries d) : Linked fs' i := by
  induction h with
  | root root => exact .root (hroot.trans root)
  | entry _ mem inode ih => exact .entry ih (hentries _ _ mem) inode

theorem Linked.inUse (h : Linked fs i) (hw : WellFormed fs free)
    (hroot : ∀ r ∈ fs.rootInode, InUse free r) : InUse free i := by
  cases h with
  | root root => exact hroot i root
  | entry _ mem inode => exact hw.inUse_of_mem mem inode

theorem WellFormed.ncard_inUse (h : WellFormed fs free) :
    { i | InUse free i }.ncard + free.length = maxInodes := by
  have hset : { i | InUse free i } = ↑(Finset.range maxInodes \ free.toFinset) := by
    ext i
    simp [InUse]
  have hsub : free.toFinset ⊆ Finset.range maxInodes := by
    intro i hi
    exact Finset.mem_range.mpr (h.lt i (mem_toFinset.mp hi))
  rw [hset, Set.ncard_coe_finset, Finset.card_sdiff_of_subset hsub, Finset.card_range,
    toFinset_card_of_nodup h.nodup]
  have hle := Finset.card_le_card hsub
  rw [Finset.card_range, toFinset_card_of_nodup h.nodup] at hle
  exact Nat.sub_add_cancel hle

/-- The part of the accounting that the steps keep. -/
structure Session.Counted (s : Session) (free : List InodePtr) : Prop where
  root : ∃ r, s.fs.rootInode = some r ∧ InUse free r
  unbound : ∀ d, ∀ e ∈ s.fs.entries d, e.inode ≠ s.fs.rootInode
  used : s.fs.usedInodes + free.length = maxInodes
  linked : ∀ i, InUse free i → Linked s.fs i

theorem Session.Counted.accounted (h : s.Counted free) (hw : WellFormed s.fs free) :
    Accounted s.fs := by
  have hiff : ∀ i, InUse free i ↔ Linked s.fs i := by
    intro i
    refine ⟨h.linked i, fun hl => hl.inUse hw ?_⟩
    obtain ⟨r, hr, huse⟩ := h.root
    intro r' hr'
    rw [hr] at hr'
    cases hr'
    exact huse
  constructor
  case inUse =>
    rw [hw.freeInodes]
    exact hiff
  case used =>
    have hset : { i | Linked s.fs i } = { i | InUse free i } := by
      ext i
      exact (hiff i).symm
    have hcard := hw.ncard_inUse
    have hused := h.used
    rw [hset]
    omega

theorem Session.Counted.of_entries (h : s.Counted free) (hroot : fs'.rootInode = s.fs.rootInode)
    (hentries : ∀ d, fs'.entries d = s.fs.entries d) (hused : fs'.usedInodes = s.fs.usedInodes) :
    Session.Counted ⟨fs', inodes, files⟩ free := by
  constructor
  case root =>
    obtain ⟨r, hr, huse⟩ := h.root
    exact ⟨r, hroot.trans hr, huse⟩
  case unbound =>
    intro d
    rw [hentries, hroot]
    exact h.unbound d
  case used =>
    have hold := h.used
    rw [hused]
    exact hold
  case linked =>
    intro i hi
    apply (h.linked i hi).mono hroot
    intro d e he
    rw [hentries]
    exact he

theorem Session.Counted.created (h : s.Counted (i :: free)) (hd : InUse (i :: free) d)
    {t : FileType} (hc : Created s.fs fs' free d name t i) :
    Session.Counted ⟨fs', inodes, files⟩ free := by
  have hmono : ∀ x, Linked s.fs x → Linked fs' x := by
    intro x hx
    apply hx.mono hc.files.rootInode
    intro y e he
    rw [hc.entries]
    split_ifs with hy
    · exact mem_append_left _ (hy ▸ he)
    · exact he
  constructor
  case root =>
    obtain ⟨r, hr, huse⟩ := h.root
    exact ⟨r, hc.files.rootInode.trans hr, (inUse_cons.mp huse).2⟩
  case unbound =>
    intro x e he
    rw [hc.files.rootInode]
    rw [hc.entries] at he
    split at he
    · obtain he | he := mem_append.mp he
      · exact h.unbound d e he
      obtain ⟨r, hr, huse⟩ := h.root
      rw [mem_singleton.mp he, hr]
      intro heq
      cases heq
      exact (inUse_cons.mp huse).1 rfl
    · exact h.unbound x e he
  case used =>
    have hold := h.used
    rw [hc.usedInodes]
    rw [length_cons] at hold
    omega
  case linked =>
    intro x hx
    by_cases hxi : x = i
    · subst hxi
      refine .entry (hmono d (h.linked d hd)) (e := ⟨name.take 255, some x⟩) ?_ rfl
      rw [hc.entries, if_pos rfl]
      exact mem_append_right _ mem_cons_self
    · exact hmono x (h.linked x (inUse_cons.mpr ⟨hxi, hx⟩))

theorem Session.Counted.mounted {fs₀ : RamFs} (hm : Mounted fs₀ fs') :
    Session.Counted ⟨fs', [0], files⟩ behindRoot := by
  constructor
  case root => exact ⟨0, hm.rootInode, inUse_behindRoot.mpr rfl⟩
  case unbound =>
    intro d
    rw [RamFs.entries_of_data_none (hm.data d)]
    exact nofun
  case used =>
    rw [hm.usedInodes]
    simp [behindRoot, maxInodes]
  case linked =>
    intro i hi
    rw [inUse_behindRoot.mp hi]
    exact .root hm.rootInode

theorem Session.Counted.of_change (hv : s.Valid free) (h : s.fs.mounted = true → s.Counted free)
    {op : Operation} (hkeeps : op.Keeps s) (hc : s.Change free op s' free') :
    s'.fs.mounted = true → s'.Counted free' := by
  intro hm'
  cases hc with
  | mounted _ mounted => exact .mounted mounted
  | unmounted unmounted _ _ =>
    rw [unmounted] at hm'
    cases hm'
  | called mounted dir effect _ _ =>
    have hcounted := h mounted
    generalize hfs : (Call.exec s.fs _).2 = fs' at effect hm' ⊢
    generalize hanswer : (Call.exec s.fs _).1 = answer at effect
    cases effect with
    | null | found | notFound | invalidType | isADirectory | notADirectory | notEmpty =>
      exact hcounted.of_entries rfl (fun _ => rfl) rfl
    | createFailed _ _ _ _ unchanged =>
      exact hcounted.of_entries unchanged.files.rootInode unchanged.entries unchanged.usedInodes
    | created hdir _ _ taken created =>
      subst taken
      exact hcounted.created (dir _ hdir) created
    | unlinked _ _ found type _ => exact absurd (hkeeps _ found) type
    | rmdir mem inode found type entries _ =>
      have hw := hv.wellFormed mounted
      have hempty := hw.entries_eq_nil_iff (hw.inUse_of_mem mem inode) type
      exact absurd (hempty.mp entries) (hkeeps _ found type)
  | kept _ => exact (h hm').of_entries rfl (fun _ => rfl) rfl
  | written mem type changes _ =>
    obtain ⟨_, hentries, hused, hroot, _⟩ := hv.written mem type changes
    exact (h (hv.inUse _ mem).1).of_entries hroot hentries hused

/-! ## Removing an entry -/

theorem Session.Counted.not_accounted (h : s.Counted free) (hw : WellFormed s.fs free)
    {e : RamDirEntry} (hmem : e ∈ s.fs.entries d) (hr : Removed s.fs fs' free d e) :
    ¬ Accounted fs' := by
  intro hacc
  obtain ⟨i, hi, huse, _⟩ := hw.bound d e hmem
  have hlinked : Linked fs' i := by
    apply (hacc.inUse i).mp
    rw [hr.wellFormed.freeInodes]
    exact huse
  cases hlinked with
  | root root =>
    rw [hr.files.rootInode, ← hi] at root
    exact h.unbound d e hmem root.symm
  | entry _ mem inode => exact hr.unbound _ _ mem (inode.trans hi.symm)

theorem Session.step_call {call : Call} (hs : s.step (.call call) = some s') :
    (∀ d ∈ call.dir, d ∈ s.inodes) ∧ s'.fs = (call.exec s.fs).2 := by
  simp only [Session.step] at hs
  split at hs
  · rename_i hdir
    refine ⟨hdir, ?_⟩
    split at hs
    · rename_i heq
      cases hs
      rw [heq]
    rename_i heq
    cases hs
    rw [heq]
  · cases hs

theorem Operation.keeps_of_lookup {call : Call}
    (h : ∀ i, s.fs.lookup call.dir call.name ≠ .ok (some i)) : (Operation.call call).Keeps s := by
  cases call with
  | lookup | create | mkdir => trivial
  | unlink | rmdir => exact fun i hi => absurd hi (h i)

theorem Operation.keeps_of_creates {call : Call} {t : FileType} (h : call.creates = some t) :
    (Operation.call call).Keeps s := by
  cases call with
  | create | mkdir => trivial
  | lookup | unlink | rmdir => cases h

theorem Session.Counted.keeps (h : s.Counted free) (hv : s.Valid free) (hm : s.fs.mounted = true)
    {call : Call} (hs : s.step (.call call) = some s') (hacc : Accounted s'.fs) :
    (Operation.call call).Keeps s := by
  have hw := hv.wellFormed hm
  obtain ⟨hdir, hfs⟩ := Session.step_call hs
  have huse : ∀ d ∈ call.dir, InUse free d := fun d hd => (hv.inUse d (hdir d hd)).2
  obtain ⟨free', he⟩ := hw.effect huse
  rw [hfs] at hacc
  generalize (call.exec s.fs).2 = fs' at he hacc
  generalize (call.exec s.fs).1 = answer at he
  cases he with
  | null null =>
    apply Operation.keeps_of_lookup
    intro i hfound
    have hnull := congrArg Prod.fst (@Call.exec_null (.lookup call.dir call.name) s.fs null)
    rw [Call.exec, hfound] at hnull
    cases hnull
  | notFound dir named _ unbound =>
    apply Operation.keeps_of_lookup
    intro i hfound
    rw [dir, named] at hfound
    obtain ⟨hnone, _⟩ | ⟨e, _, hmem, hname, _⟩ := hw.lookup_cases (huse _ dir) _
    · rw [hfound] at hnone
      cases hnone
    · exact unbound e hmem hname
  | found => trivial
  | invalidType creates _ => exact Operation.keeps_of_creates creates
  | createFailed _ _ creates _ _ => exact Operation.keeps_of_creates creates
  | created _ _ creates _ _ => exact Operation.keeps_of_creates creates
  | isADirectory _ _ found type =>
    intro i hfound
    rw [found] at hfound
    cases hfound
    exact type
  | notADirectory _ _ found type =>
    intro i hfound htype
    rw [found] at hfound
    cases hfound
    exact absurd htype type
  | notEmpty mem inode found _ entries =>
    intro i hfound htype hcount
    rw [found] at hfound
    cases hfound
    exact entries ((hw.entries_eq_nil_iff (hw.inUse_of_mem mem inode) htype).mpr hcount)
  | unlinked mem _ _ _ removed | rmdir mem _ _ _ _ removed =>
    exact absurd hacc (h.not_accounted hw mem removed)

/-! ## The accounting -/

/-- As long as no entry is taken away, the inodes that are not free are the linked ones and are
counted; the operation that takes the first one away loses its inode. -/
theorem inodes_accounted (h : sessionSystem.ReachableBy (fun s op => op.Keeps s) s)
    (hm : s.fs.mounted = true) :
    Accounted s.fs ∧ ∀ op s', s.step op = some s' → s'.fs.mounted = true →
      (Accounted s'.fs ↔ op.Keeps s) := by
  obtain ⟨free, hv, hcounted⟩ := invariant_of_change
    (P := fun s free => s.fs.mounted = true → s.Counted free) nofun
    (fun hv h hok hc => Session.Counted.of_change hv h hok hc) h
  refine ⟨(hcounted hm).accounted (hv.wellFormed hm), ?_⟩
  intro op s' hs hm'
  constructor
  · intro hacc
    cases op with
    | mount | unmount | openFile | read | write | seek => trivial
    | call call => exact (hcounted hm).keeps hv hm hs hacc
  · intro hkeeps
    obtain ⟨free', hc⟩ := hv.change hs
    exact (Session.Counted.of_change hv hcounted hkeeps hc hm').accounted
      ((hv.of_change hc).wellFormed hm')

theorem inodes_accounted_two : ∃ s, sessionSystem.ReachableBy (fun s op => op.Keeps s) s ∧
    s.fs.mounted = true ∧ s.fs.usedInodes = 2 ∧ Accounted s.fs := by
  obtain ⟨s, hr, hp⟩ := sessionSystem.exists_of_run
    (fun _ op => op = .mount none ∨ op = .call (.create (some 0) (some [97]) .regular))
    [.mount none, .call (.create (some 0) (some [97]) .regular)]
    (fun s => s.fs.mounted ∧ s.fs.usedInodes = 2) rfl (by decide +kernel)
  have hkeeps : sessionSystem.ReachableBy (fun s op => op.Keeps s) s := by
    apply hr.mono
    intro s op hop
    obtain rfl | rfl := hop
    · trivial
    · trivial
  exact ⟨s, hkeeps, hp.1, hp.2, (inodes_accounted hkeeps hp.1).1⟩

/-- A file is created and unlinked: its inode is neither free nor linked. -/
theorem unlinked_inode_lost :
    ¬ ∀ s, sessionSystem.Reachable s → s.fs.mounted = true → Accounted s.fs := by
  intro hall
  obtain ⟨s, hr, hm, hroot, hknown, hempty⟩ :=
    sessionSystem.exists_of_run (fun _ _ => True)
    [.mount none, .call (.create (some 0) (some [97]) .regular),
      .call (.unlink (some 0) (some [97]))]
    (fun s => s.fs.mounted ∧ s.fs.rootInode = some 0 ∧ 1 ∈ s.inodes ∧ s.fs.entries 0 = [])
    rfl (by decide +kernel)
  obtain ⟨free, hv⟩ := valid_of_reachable hr
  have hlinked : ∀ i, Linked s.fs i → i = 0 := by
    intro i hi
    induction hi with
    | root root =>
      rw [hroot] at root
      cases root
      rfl
    | entry _ mem _ ih =>
      rw [ih, hempty] at mem
      cases mem
  have huse : InUse s.fs.freeInodes 1 := by
    rw [(hv.wellFormed hm).freeInodes]
    exact (hv.inUse 1 hknown).2
  have hone := hlinked 1 (((hall s hr hm).inUse 1).mp huse)
  cases hone

end SimpleKernel.Filesystem
