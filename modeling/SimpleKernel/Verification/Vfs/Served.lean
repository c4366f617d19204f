import SimpleKernel.Model.Filesystem.Vfs
import SimpleKernel.Verification.Filesystem.Refinement

/-! The file system in memory, as the virtual file system sees it: either it is not mounted, or its
calls are steps of the map of its directories. -/

namespace SimpleKernel.Filesystem

variable {fs fs' : RamFs} {free : List InodePtr} {d d' i : InodePtr} {name name' : CString}

namespace RamFs

/-- The file system is mounted, and all that it does can be said with its map. -/
structure Served (fs : RamFs) : Prop where
  mounted : fs.mounted = true
  wellFormed : ∃ free, WellFormed fs free ∧ InUse free 0
  names : UniqueNames fs
  type : (fs.inodes 0).inode.type = .directory
  root : ∀ d name, fs.tree.bind d name ≠ some 0

/-- The file system is not mounted and has nothing in its memory. -/
structure Idle (fs : RamFs) : Prop where
  mounted : fs.mounted = false
  data : ∀ i, (fs.inodes i).data = none

def Present (fs : RamFs) (i : InodePtr) : Prop := i = 0 ∨ ∃ d name, fs.tree.bind d name = some i

/-! ## The map -/

theorem directory_of_bind (h : fs.tree.bind d name = some i) :
    (fs.inodes d).inode.type = .directory := by
  by_contra htype
  have hnone : fs.tree.bind d name = none := by
    change ((fs.entries d).find? _).bind _ = none
    rw [entries_of_not_directory htype]
    rfl
  rw [hnone] at h
  cases h

namespace Served

variable (h : Served fs)
include h

theorem bind_inj (hi : fs.tree.bind d name = some i)
    (hi' : fs.tree.bind d' name' = some i) : d = d' ∧ name = name' := by
  obtain ⟨free, hwf, -⟩ := h.wellFormed
  obtain ⟨e, hmem, rfl, hinode⟩ := (bind_eq_some h.names).mp hi
  obtain ⟨e', hmem', rfl, hinode'⟩ := (bind_eq_some h.names).mp hi'
  obtain ⟨hd, he⟩ := hwf.once d d' e hmem e' hmem' (hinode.trans hinode'.symm)
  exact ⟨hd, by rw [he]⟩

theorem inUse (hwf : WellFormed fs free) (hroot : InUse free 0)
    (hi : fs.Present i) : InUse free i := by
  rcases hi with rfl | ⟨d, name, hbind⟩
  · exact hroot
  obtain ⟨e, hmem, -, hinode⟩ := (bind_eq_some h.names).mp hbind
  exact hwf.inUse_of_mem hmem hinode

theorem mem_dirs (hi : fs.Present i) :
    i ∈ fs.tree.dirs ↔ (fs.inodes i).inode.type = .directory := by
  obtain ⟨free, hwf, hroot⟩ := h.wellFormed
  rw [hwf.mem_dirs]
  exact and_iff_right (h.inUse hwf hroot hi)

/-! ## Calls -/

theorem step {call : Call} (hdir : call.dir = some d) (hd : fs.Present d) (hshort : call.Short) :
    Tree.Step fs.Full fs.tree call (call.exec fs).1 (call.exec fs).2.tree ∧ Served (call.exec fs).2 := by
  obtain ⟨free, hwf, hroot⟩ := h.wellFormed
  have huse : ∀ x ∈ call.dir, InUse free x := by
    intro x hx
    rw [hdir] at hx
    cases hx
    exact h.inUse hwf hroot hd
  obtain ⟨free', he⟩ := hwf.effect huse
  have hstep := he.tree_step hwf h.names hshort huse
  refine ⟨hstep, ?_⟩
  constructor
  case mounted => exact he.files.mounted.trans h.mounted
  case wellFormed => exact ⟨free', he.wellFormed hwf, (he.inUse hwf).1 0 hroot⟩
  case names => exact he.uniqueNames hshort h.names
  case type => exact (he.files.type 0 hroot).trans h.type
  case root =>
    intro x n hbind
    have hzero : (0 : InodePtr) ∈ fs.tree.dirs := (h.mem_dirs (.inl rfl)).mpr h.type
    generalize (call.exec fs).2.tree = T at hstep hbind
    generalize (call.exec fs).1 = answer at hstep
    cases hstep with
    | created _ _ _ _ _ _ new =>
      rw [Tree.insert] at hbind
      dsimp only at hbind
      split at hbind
      · cases hbind
        exact new hzero
      · exact h.root x n hbind
    | unlinked | rmdir =>
      rw [Tree.erase] at hbind
      dsimp only at hbind
      split at hbind
      · cases hbind
      · exact h.root x n hbind
    | _ => exact h.root x n hbind

theorem lookup_iff (hd : fs.Present d) :
    fs.lookup (some d) (some name) = .ok (some i) ↔ fs.tree.bind d name = some i := by
  obtain ⟨free, hwf, hroot⟩ := h.wellFormed
  obtain ⟨hnone, hall⟩ | ⟨e, j, hmem, hname, hinode, hok⟩ :=
    hwf.lookup_cases (h.inUse hwf hroot hd) name
  · rw [hnone, (hwf.bind_eq_none h.names).mpr hall]
    simp
  · rw [hok, (bind_eq_some h.names).mpr ⟨e, hmem, hname, hinode⟩, Except.ok.injEq]

/-! ## Mounting -/

theorem mount_eq (device : Option ℕ) : fs.mount device = (.error .fsAlreadyMounted, fs) := by
  rw [RamFs.mount, if_pos h.mounted]

theorem unmount : ∃ fs', fs.unmount = (.ok (), fs') ∧ Idle fs' := by
  obtain ⟨free, hwf, -⟩ := h.wellFormed
  obtain ⟨hm, -⟩ | ⟨fs', heq, hm, -, hdata⟩ := unmount_cases (fun _ => hwf)
  · rw [h.mounted] at hm
    cases hm
  · exact ⟨fs', heq, hm, hdata⟩

end Served

theorem Idle.mount (h : Idle fs) (device : Option ℕ) :
    (∃ e, fs.mount device = (.error e, fs)) ∨
      ∃ fs', fs.mount device = (.ok 0, fs') ∧ Served fs' := by
  obtain herror | ⟨fs', heq, -, hm⟩ := fs.mount_cases device fun _ => h.data
  · exact .inl herror
  have hnames := uniqueNames_of_data_none hm.data
  refine .inr ⟨fs', heq, hm.mounted, ⟨behindRoot, hm.wellFormed, inUse_behindRoot.mpr rfl⟩, hnames,
    hm.type, ?_⟩
  intro d name hbind
  obtain ⟨e, hmem, -⟩ := (bind_eq_some hnames).mp hbind
  rw [entries_of_data_none (hm.data d)] at hmem
  cases hmem

end RamFs

end SimpleKernel.Filesystem
