import SimpleKernel.Verification.Vfs.Dentries
import SimpleKernel.Verification.Vfs.MountTable

/-! A `Mount` that fails undoes what the file system has done, unless the root that it gets is not a
directory. -/

namespace SimpleKernel.Filesystem

open Function

variable {σ : Type}

/-- The file system together with a counter of the successful `Mount`s that no `Unmount` has
followed. -/
def FileSystem.counted (ops : FileSystem σ) : FileSystem (σ × ℕ) where
  mount s device :=
    let (result, state) := ops.mount s.1 device
    (result, state, s.2 + result.toBool.toNat)
  unmount s := (ops.unmount s.1).map id (·, s.2 - 1)
  type s := ops.type s.1
  hasOps s := ops.hasOps s.1
  lookup s dir name := (ops.lookup s.1 dir name).map id (·, s.2)
  create s dir name type := (ops.create s.1 dir name type).map id (·, s.2)
  mkdir s dir name := (ops.mkdir s.1 dir name).map id (·, s.2)
  unlink s dir name := (ops.unlink s.1 dir name).map id (·, s.2)
  rmdir s dir name := (ops.rmdir s.1 dir name).map id (·, s.2)
  openFile s i flags := (ops.openFile s.1 i flags).map id (·, s.2)
  closeFile s i := (ops.closeFile s.1 i).map id (·, s.2)

namespace Vfs

section

variable (ops : FileSystem σ) (path : Option CString) (fs : Option FsPtr) (device : Option ℕ)

/-- If `Mount` fails, the mount table and the root are as before, and every successful `Mount` of a
file system has been followed by an `Unmount`. -/
def MountsCleanly (v : Vfs (σ × ℕ)) : Prop :=
  ∀ e v', v.mount ops.counted path fs device = (.error e, v') →
    SameMounts v v' ∧ ∀ f, (v'.fileSystems f).2 = (v.fileSystems f).2

/-- The file system is not asked to mount, or it refuses, or its root is a directory. -/
def getsDirectory (v : Vfs σ) : Bool :=
  match path, fs with
  | some path, some fs =>
    maxMounts ≤ v.mountTable.mountCount || path.head? ≠ some slash ||
      (v.mountTable.findPath v.mountTable.mountCount path).isSome ||
      match ops.mount (v.fileSystems fs) device with
      | (.error _, _) => true
      | (.ok root, state) => root.any fun i => ops.type state i = .directory
  | _, _ => true

end

variable {ops : FileSystem σ} {fs : FsPtr}

theorem typeOf_setFs (v : Vfs σ) (s : σ) (i : InodePtr) :
    (v.setFs fs s).typeOf ops ⟨fs, i⟩ = ops.type s i := by
  simp [typeOf, setFs]

theorem mountRoot_error {v v' : Vfs σ} {s : σ} {path : CString} {device : Option ℕ}
    {root : InodePtr} {e : ErrorCode} (hdir : ops.type s root = .directory)
    (h : (v.setFs fs s).mountRoot ops path fs device root = (.error e, v')) :
    SameMounts v v' ∧ v'.fileSystems = update v.fileSystems fs (ops.unmount s).2 := by
  rw [mountRoot, typeOf_setFs, if_neg (not_not.mpr hdir)] at h
  rcases (v.setFs fs s).allocDentry_cases with ⟨supply, heq⟩ | ⟨d, supply, -, heq⟩
  · rw [heq] at h
    cases h
    exact ⟨⟨rfl, rfl⟩, by simp [setFs]⟩
  rw [heq] at h
  simp only [fillSlot] at h
  split at h
  · cases h
    exact ⟨⟨rfl, rfl⟩, by simp [setFs, setDentry, freeDentry]⟩
  · split at h <;> cases h

theorem counter_update_iff {v : Vfs (σ × ℕ)} {s : σ × ℕ} :
    (∀ f, (update v.fileSystems fs s f).2 = (v.fileSystems f).2) ↔ s.2 = (v.fileSystems fs).2 := by
  rw [forall_update_iff v.fileSystems fun f t => t.2 = (v.fileSystems f).2]
  exact and_iff_left fun _ _ => rfl

/-- A failed `Mount` has no effect exactly if the file system does not answer with a root that is
not a directory. -/
theorem mountsCleanly_iff (ops : FileSystem σ) (path : Option CString) (fs : Option FsPtr)
    (device : Option ℕ) (v : Vfs (σ × ℕ)) :
    MountsCleanly ops path fs device v ↔ getsDirectory ops.counted path fs device v = true := by
  have hrefl := SameMounts.refl v
  unfold MountsCleanly mount getsDirectory
  rcases path with _ | path
  · simp [hrefl]
  rcases fs with _ | fs
  · simp [hrefl]
  dsimp only
  by_cases hfull : maxMounts ≤ v.mountTable.mountCount
  · simp [hfull, hrefl]
  by_cases hslash : path.head? = some slash
  swap
  · simp [hfull, hslash, hrefl]
  by_cases hfind : (v.mountTable.findPath v.mountTable.mountCount path).isSome
  · simp [hfull, hslash, hfind, hrefl]
  have hset : ∀ s, SameMounts v (v.setFs fs s) := fun s => ⟨rfl, rfl⟩
  have hfs : ∀ s, (v.setFs fs s).fileSystems = update v.fileSystems fs s := fun _ => rfl
  have hcount : (ops.counted.mount (v.fileSystems fs) device).2.2 = (v.fileSystems fs).2 +
    (ops.counted.mount (v.fileSystems fs) device).1.toBool.toNat := rfl
  generalize ops.counted.mount (v.fileSystems fs) device = result at hcount ⊢
  rcases result with ⟨e | root, state⟩
  · replace hcount : state.2 = (v.fileSystems fs).2 := hcount
    simp [hfull, hslash, hfind, hset, hfs, counter_update_iff, hcount]
  replace hcount : state.2 = (v.fileSystems fs).2 + 1 := hcount
  cases root with
  | none => simp [hfull, hslash, hfind, hset, hfs, counter_update_iff, hcount]
  | some i =>
    by_cases hdir : ops.counted.type state i = .directory
    · suffices hclean : ∀ e v',
          (v.setFs fs state).mountRoot ops.counted path fs device i = (.error e, v') →
          SameMounts v v' ∧ ∀ f, (v'.fileSystems f).2 = (v.fileSystems f).2 by
        simpa [hfull, hslash, hfind, hdir] using hclean
      intro e v' h
      obtain ⟨hsame, hfs⟩ := mountRoot_error hdir h
      rw [hfs, counter_update_iff]
      exact ⟨hsame, Nat.sub_eq_of_eq_add hcount⟩
    · simp [hfull, hslash, hfind, hdir, hset, hfs, counter_update_iff, hcount, mountRoot,
        typeOf_setFs]

/-- A file system that mounts without a root is left mounted. -/
theorem rootless_left_mounted : ∃ (ops : FileSystem RamFs) (v v' : Vfs (RamFs × ℕ)),
    v.mount ops.counted (some [slash]) (some 0) none = (.error .fsCorrupted, v') ∧
      (v.fileSystems 0).2 = 0 ∧ (v'.fileSystems 0).2 = 1 :=
  ⟨{ ramFs with mount := fun s _ => (.ok none, s) }, { fileSystems := fun _ => ({}, 0) }, _, rfl, rfl,
    rfl⟩

end Vfs

end SimpleKernel.Filesystem
