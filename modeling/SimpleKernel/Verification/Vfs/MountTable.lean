import Mathlib.Data.Finset.Card
import SimpleKernel.Verification.Vfs.Calls

/-! The mount table. `Mount` compares a path with the mount paths of the first `mount_count_` slots,
so the table stays consistent if none of the later ones has that path. -/

namespace SimpleKernel.Filesystem

open List Function

variable {σ : Type} {ops : FileSystem σ} {v v' : Vfs σ}

/-! ## What the table says -/

def MountTable.activeSlots (t : MountTable) : Finset ℕ :=
  (Finset.range maxMounts).filter fun i => (t.mounts i).isSome

/-- No two mount points have the same path, `mount_count_` is their number, and `root_mount_` is
the one on `/`, whose root is that of the virtual file system. -/
structure Vfs.MountsConsistent (v : Vfs σ) : Prop where
  unique : ∀ i j mp mp', v.mountTable.mounts i = some mp → v.mountTable.mounts j = some mp' →
    mp.mountPath = mp'.mountPath → i = j
  count : v.mountTable.mountCount = v.mountTable.activeSlots.card
  root : v.mountTable.rootMount ≠ none ↔
    ∃ i mp, v.mountTable.mounts i = some mp ∧ mp.mountPath = [slash]
  rootDentry : ∀ i, v.mountTable.rootMount = some i → ∃ mp, v.mountTable.mounts i = some mp ∧
    mp.mountPath = [slash] ∧ v.rootDentry = some mp.rootDentry

/-- A path to mount on is not the one of a slot behind the first `mount_count_`. -/
def VfsCall.comparesAll (v : Vfs σ) : VfsCall → Bool
  | .mount (some path) _ _ _ => (range maxMounts).all fun i =>
    i < v.mountTable.mountCount || !(v.mountTable.mounts i).any fun mp => mp.mountPath = path
  | _ => true

/-! ## Searches -/

namespace MountTable

variable {t : MountTable} {i n : ℕ} {path : CString} {mp : MountPoint}

theorem ne_of_findPath_eq_none (h : t.findPath n path = none) (hi : i < n)
    (hmp : t.mounts i = some mp) : mp.mountPath ≠ path := by
  intro hpath
  have hnone := find?_eq_none.mp h i (mem_range.mpr hi)
  rw [hmp] at hnone
  exact hnone (decide_eq_true hpath)

theorem freeSlot_eq_some (h : t.freeSlot = some i) : i < maxMounts ∧ t.mounts i = none := by
  have hnone := find?_some h
  exact ⟨mem_range.mp (mem_of_find?_eq_some h), Option.isNone_iff_eq_none.mp hnone⟩

theorem mem_activeSlots : i ∈ t.activeSlots ↔ i < maxMounts ∧ ∃ mp, t.mounts i = some mp := by
  rw [activeSlots, Finset.mem_filter, Finset.mem_range, Option.isSome_iff_exists]

end MountTable

/-! ## Mount and Unmount -/

namespace Vfs

/-- The parts of the state that only `Mount` and `Unmount` change. -/
structure SameMounts (v v' : Vfs σ) : Prop where
  table : v'.mountTable = v.mountTable
  root : v'.rootDentry = v.rootDentry

theorem SameMounts.refl (v : Vfs σ) : SameMounts v v := ⟨rfl, rfl⟩

theorem SameMounts.trans {v'' : Vfs σ} (h : SameMounts v v') (h' : SameMounts v' v'') :
    SameMounts v v'' :=
  ⟨h'.table.trans h.table, h'.root.trans h.root⟩

theorem allocDentry_sameMounts (v : Vfs σ) : SameMounts v v.allocDentry.2 := by
  unfold allocDentry
  split
  · exact .refl v
  · exact ⟨rfl, rfl⟩
  split
  all_goals exact ⟨rfl, rfl⟩

/-- The mount point has been put into a free slot. -/
structure Filled (v v' : Vfs σ) (mp : MountPoint) (slot : ℕ) : Prop where
  free : v.mountTable.freeSlot = some slot
  mounts : v'.mountTable.mounts = update v.mountTable.mounts slot (some mp)
  count : v'.mountTable.mountCount = v.mountTable.mountCount + 1
  root : v'.mountTable.rootMount =
    if mp.mountPath = [slash] then some slot else v.mountTable.rootMount
  rootDentry : v'.rootDentry = if mp.mountPath = [slash] then some mp.rootDentry else v.rootDentry

/-- The mount point has been taken out of its slot. -/
structure Cleared (v v' : Vfs σ) (mp : MountPoint) (slot : ℕ) : Prop where
  point : v.mountTable.mounts slot = some mp
  mounts : v'.mountTable.mounts = update v.mountTable.mounts slot none
  count : v'.mountTable.mountCount = v.mountTable.mountCount - 1
  root : v'.mountTable.rootMount =
    if v.mountTable.rootMount = some slot then none else v.mountTable.rootMount
  rootDentry : v'.rootDentry = if v.mountTable.rootMount = some slot then none else v.rootDentry

namespace Filled

variable {mp : MountPoint} {slot : ℕ} {mp' : MountPoint}

variable (h : Filled v v' mp slot)
include h

theorem mounts_self : v'.mountTable.mounts slot = some mp := by
  rw [h.mounts, update_self]

theorem mounts_of_some {i : ℕ}
    (hi : v.mountTable.mounts i = some mp') : v'.mountTable.mounts i = some mp' := by
  obtain ⟨-, hnone⟩ := MountTable.freeSlot_eq_some h.free
  have hslot : i ≠ slot := by
    rintro rfl
    rw [hnone] at hi
    cases hi
  rw [h.mounts, update_of_ne hslot, hi]

theorem cases {i : ℕ} (hi : v'.mountTable.mounts i = some mp') :
    i = slot ∧ mp' = mp ∨ v.mountTable.mounts i = some mp' := by
  rw [h.mounts] at hi
  by_cases hslot : i = slot
  · rw [hslot, update_self] at hi
    exact .inl ⟨hslot, (Option.some.inj hi).symm⟩
  · rw [update_of_ne hslot] at hi
    exact .inr hi

end Filled

variable {mp : MountPoint} {slot : ℕ} {call : VfsCall}

theorem Cleared.mounts_iff {mp' : MountPoint} {i : ℕ} (h : Cleared v v' mp slot) :
    v'.mountTable.mounts i = some mp' ↔ i ≠ slot ∧ v.mountTable.mounts i = some mp' := by
  rw [h.mounts]
  by_cases hslot : i = slot
  · simp [hslot]
  · simp [hslot]

theorem SameMounts.filled {v₁ : Vfs σ} (h : SameMounts v v₁)
    (hf : Filled v₁ v' mp slot) : Filled v v' mp slot := by
  obtain ⟨free, mounts, count, root, rootDentry⟩ := hf
  rw [h.table] at free mounts count root
  rw [h.root] at rootDentry
  exact ⟨free, mounts, count, root, rootDentry⟩

theorem fillSlot_cases (ops : FileSystem σ) (v : Vfs σ) (mp : MountPoint) :
    SameMounts v (v.fillSlot ops mp).2 ∨ ∃ slot, Filled v (v.fillSlot ops mp).2 mp slot := by
  unfold fillSlot
  cases hfree : v.mountTable.freeSlot with
  | none => exact .inl ⟨rfl, rfl⟩
  | some slot =>
    right
    refine ⟨slot, ?_⟩
    by_cases hroot : mp.mountPath = [slash]
    · simp only [if_pos hroot]
      exact ⟨hfree, rfl, rfl, (if_pos hroot).symm, (if_pos hroot).symm⟩
    · simp only [if_neg hroot]
      exact ⟨hfree, rfl, rfl, (if_neg hroot).symm, (if_neg hroot).symm⟩

theorem mountRoot_cases (v : Vfs σ) (path : CString) (fs : FsPtr) (device : Option ℕ)
    (root : InodePtr) : SameMounts v (v.mountRoot ops path fs device root).2 ∨
      ∃ mp slot, mp.mountPath = path ∧ Filled v (v.mountRoot ops path fs device root).2 mp slot := by
  have halloc := v.allocDentry_sameMounts
  unfold mountRoot
  split
  · exact .inl (.refl v)
  split
  · rename_i v₁ heq
    rw [heq] at halloc
    exact .inl ⟨halloc.table, halloc.root⟩
  rename_i d v₁ heq
  rw [heq] at halloc
  have hset : ∀ f, SameMounts v (v₁.setDentry d f) := fun _ => ⟨halloc.table, halloc.root⟩
  refine (fillSlot_cases ops _ _).imp (hset _).trans ?_
  rintro ⟨slot, hfilled⟩
  exact ⟨_, slot, rfl, (hset _).filled hfilled⟩

section

variable (ops v) (parent : DentryPtr) (path : Option CString)

theorem mount_cases (fs : Option FsPtr) (device : Option ℕ) :
    SameMounts v (v.mount ops path fs device).2 ∨
      ∃ mp slot, path = some mp.mountPath ∧
        v.mountTable.findPath v.mountTable.mountCount mp.mountPath = none ∧
        Filled v (v.mount ops path fs device).2 mp slot := by
  unfold mount
  split
  · rename_i path fs
    split
    · exact .inl (.refl v)
    split
    · exact .inl (.refl v)
    split_ifs with hfresh
    · exact .inl (.refl v)
    split
    · exact .inl ⟨rfl, rfl⟩
    · exact .inl ⟨rfl, rfl⟩
    rename_i root state hmount
    have hset : SameMounts v (v.setFs fs state) := ⟨rfl, rfl⟩
    rcases (v.setFs fs state).mountRoot_cases path fs device root with
      hsame | ⟨mp, slot, rfl, hfilled⟩
    · exact .inl (hset.trans hsame)
    · exact .inr ⟨mp, slot, rfl, by simpa using hfresh, hset.filled hfilled⟩
  · exact .inl (.refl v)

theorem clearSlot_cleared (h : v.mountTable.mounts slot = some mp) :
    Cleared v (v.clearSlot slot mp) mp slot := by
  by_cases hroot : v.mountTable.rootMount = some slot
  · refine ⟨h, ?_, ?_, ?_, ?_⟩ <;> simp [clearSlot, freeDentry, hroot]
  · refine ⟨h, ?_, ?_, ?_, ?_⟩ <;> simp [clearSlot, freeDentry, hroot]

theorem unmount_cases :
    SameMounts v (v.unmount ops path).2 ∨
      ∃ mp slot, Cleared v (v.unmount ops path).2 mp slot := by
  unfold unmount
  split
  · exact .inl (.refl v)
  split
  · exact .inl (.refl v)
  rename_i slot _
  split
  · exact .inl (.refl v)
  rename_i mp hmp
  split
  · exact .inl ⟨rfl, rfl⟩
  rename_i state _
  exact .inr ⟨mp, slot, { clearSlot_cleared (v.setFs mp.filesystem state) hmp with }⟩

/-! ## The other calls -/

theorem addDentry_sameMounts (name : CString)
    (inode : Option InodeRef) : SameMounts v (v.addDentry parent name inode).2 := by
  have halloc := v.allocDentry_sameMounts
  unfold addDentry
  split
  · rename_i v₁ heq
    rw [heq] at halloc
    exact halloc
  rename_i d v₁ heq
  rw [heq] at halloc
  exact ⟨halloc.table, halloc.root⟩

theorem removeFrom_sameMounts (child : DentryPtr) (n : ℕ) (link : Link) (v : Vfs σ) :
    SameMounts v (removeFrom child n link v) := by
  induction n generalizing link with
  | zero => exact .refl v
  | succ n ih =>
    rw [removeFrom]
    split
    · exact .refl v
    split
    · cases link <;> exact ⟨rfl, rfl⟩
    · exact ih _

theorem dropDentry_sameMounts (target : DentryPtr) : SameMounts v (v.dropDentry parent target) := by
  have hremove : SameMounts v (v.removeChild parent target) := removeFrom_sameMounts _ _ _ v
  simp only [dropDentry]
  split
  all_goals exact ⟨hremove.table, hremove.root⟩

end

theorem sameMounts_rule (v : Vfs σ) : Rule ops (SameMounts v) fun _ _ => True where
  root _ _ := trivial
  mountRoot _ _ := trivial
  parent _ _ _ := trivial
  child _ _ _ := trivial
  refuse h _ _ _ _ _ := ⟨h.table, h.root⟩
  add {v₁ d inode name new state c v₂} h _ _ _ _ _ hadd := by
    have hsame := (v₁.setFs inode.fs state).addDentry_sameMounts d name
      (new.map fun i => ⟨inode.fs, i⟩)
    rw [hadd] at hsame
    exact ⟨⟨hsame.table.trans h.table, hsame.root.trans h.root⟩, fun _ _ => trivial⟩
  keep h _ _ _ _ _ := ⟨h.table, h.root⟩
  drop {v₁ d inode target name state} h _ _ _ _ _ := by
    have hsame := (v₁.setFs inode.fs state).dropDentry_sameMounts d target
    exact ⟨hsame.table.trans h.table, hsame.root.trans h.root⟩

theorem openDentry_sameMounts (v : Vfs σ) (d : DentryPtr) (flags : BitVec 32)
    (file : Option FilePtr) : SameMounts v (v.openDentry ops d flags file).2 := by
  unfold openDentry
  split
  · exact .refl v
  split
  · exact .refl v
  split
  · exact .refl v
  split
  · exact .refl v
  split
  all_goals exact ⟨rfl, rfl⟩

theorem close_sameMounts (v : Vfs σ) (file : OpenFile) : SameMounts v (v.close ops file).2 := by
  unfold close
  split
  · exact ⟨rfl, rfl⟩
  dsimp only
  split
  all_goals exact ⟨rfl, rfl⟩

/-! ## Every step -/

/-- The table is consistent and nothing is mounted behind its end. -/
structure Tabled (v : Vfs σ) : Prop extends MountsConsistent v where
  bound : ∀ i mp, v.mountTable.mounts i = some mp → i < maxMounts

theorem Tabled.of_same (h : Tabled v) (hsame : SameMounts v v') : Tabled v' := by
  obtain ⟨⟨unique, count, root, rootDentry⟩, bound⟩ := h
  rw [← hsame.table] at unique count root rootDentry bound
  rw [← hsame.root] at rootDentry
  exact ⟨⟨unique, count, root, rootDentry⟩, bound⟩

theorem Filled.activeSlots (h : Filled v v' mp slot) :
    v'.mountTable.activeSlots = insert slot v.mountTable.activeSlots := by
  obtain ⟨hlt, -⟩ := MountTable.freeSlot_eq_some h.free
  ext i
  rw [Finset.mem_insert, MountTable.mem_activeSlots, MountTable.mem_activeSlots, h.mounts]
  by_cases hi : i = slot
  · subst hi
    simp [hlt]
  · simp [hi]

theorem Cleared.activeSlots (h : Cleared v v' mp slot) :
    v'.mountTable.activeSlots = v.mountTable.activeSlots.erase slot := by
  ext i
  rw [Finset.mem_erase, MountTable.mem_activeSlots, MountTable.mem_activeSlots, h.mounts]
  by_cases hi : i = slot
  · simp [hi]
  · simp [hi]

theorem Tabled.filled (h : Tabled v) (hf : Filled v v' mp slot)
    (hnew : ∀ i mp', v.mountTable.mounts i = some mp' → mp'.mountPath ≠ mp.mountPath) :
    Tabled v' := by
  obtain ⟨hlt, hnone⟩ := MountTable.freeSlot_eq_some hf.free
  refine ⟨⟨?_, ?_, ?_, ?_⟩, ?_⟩
  · intro i j mpi mpj hi hj hpath
    rcases hf.cases hi with ⟨rfl, rfl⟩ | hi <;> rcases hf.cases hj with ⟨rfl, rfl⟩ | hj
    · rfl
    · exact absurd hpath.symm (hnew j mpj hj)
    · exact absurd hpath (hnew i mpi hi)
    · exact h.unique i j mpi mpj hi hj hpath
  · have hfresh : slot ∉ v.mountTable.activeSlots := by
      rw [MountTable.mem_activeSlots, hnone]
      simp
    rw [hf.activeSlots, Finset.card_insert_of_notMem hfresh, hf.count, h.count]
  · rw [hf.root]
    split_ifs with hroot
    · simp only [ne_eq, reduceCtorEq, not_false_eq_true, true_iff]
      exact ⟨slot, mp, hf.mounts_self, hroot⟩
    rw [h.root]
    constructor
    · rintro ⟨i, mp', hi, hpath⟩
      exact ⟨i, mp', hf.mounts_of_some hi, hpath⟩
    · rintro ⟨i, mp', hi, hpath⟩
      rcases hf.cases hi with ⟨rfl, rfl⟩ | hi
      · exact absurd hpath hroot
      · exact ⟨i, mp', hi, hpath⟩
  · intro i hi
    rw [hf.root] at hi
    rw [hf.rootDentry]
    split_ifs at hi with hroot
    · cases hi
      rw [if_pos hroot]
      exact ⟨mp, hf.mounts_self, hroot, rfl⟩
    rw [if_neg hroot]
    obtain ⟨mp', hmp', hpath, hdentry⟩ := h.rootDentry i hi
    exact ⟨mp', hf.mounts_of_some hmp', hpath, hdentry⟩
  · intro i mp' hi
    rcases hf.cases hi with ⟨rfl, -⟩ | hi
    · exact hlt
    · exact h.bound i mp' hi

theorem Tabled.cleared (h : Tabled v) (hc : Cleared v v' mp slot) : Tabled v' := by
  have hmem : slot ∈ v.mountTable.activeSlots :=
    MountTable.mem_activeSlots.mpr ⟨h.bound slot mp hc.point, mp, hc.point⟩
  refine ⟨⟨?_, ?_, ?_, ?_⟩, ?_⟩
  · intro i j mpi mpj hi hj hpath
    exact h.unique i j mpi mpj (hc.mounts_iff.mp hi).2 (hc.mounts_iff.mp hj).2 hpath
  · rw [hc.activeSlots, Finset.card_erase_of_mem hmem, hc.count, h.count]
  · rw [hc.root]
    split_ifs with hroot
    · obtain ⟨mp', hmp', hpath', -⟩ := h.rootDentry slot hroot
      simp only [ne_eq, not_true_eq_false, false_iff]
      rintro ⟨i, mpi, hi, hpath⟩
      obtain ⟨hne, hi⟩ := hc.mounts_iff.mp hi
      exact hne (h.unique i slot mpi mp' hi hmp' (hpath.trans hpath'.symm))
    rw [h.root]
    constructor
    · intro hsome
      obtain ⟨r, hr⟩ := Option.ne_none_iff_exists'.mp (h.root.mpr hsome)
      obtain ⟨mp', hmp', hpath', -⟩ := h.rootDentry r hr
      have hne : r ≠ slot := by
        rintro rfl
        exact hroot hr
      exact ⟨r, mp', hc.mounts_iff.mpr ⟨hne, hmp'⟩, hpath'⟩
    · rintro ⟨i, mpi, hi, hpath⟩
      exact ⟨i, mpi, (hc.mounts_iff.mp hi).2, hpath⟩
  · intro i hi
    rw [hc.root] at hi
    split at hi
    · cases hi
    rename_i hroot
    rw [hc.rootDentry, if_neg hroot]
    obtain ⟨mp', hmp', hpath, hdentry⟩ := h.rootDentry i hi
    have hne : i ≠ slot := by
      rintro rfl
      exact hroot hi
    exact ⟨mp', hc.mounts_iff.mpr ⟨hne, hmp'⟩, hpath, hdentry⟩
  · intro i mp' hi
    exact h.bound i mp' (hc.mounts_iff.mp hi).2

theorem sameMounts_of_step (h : v.step ops call = some v')
    (hmount : ∀ path fs device supply, call ≠ .mount path fs device supply)
    (hunmount : ∀ path, call ≠ .unmount path) : SameMounts v v' := by
  have hsupply : ∀ supply, SameMounts v { v with supply } := fun _ => ⟨rfl, rfl⟩
  cases call with
  | init =>
    cases h
    exact ⟨rfl, rfl⟩
  | mount path fs device supply => exact absurd rfl (hmount path fs device supply)
  | unmount path => exact absurd rfl (hunmount path)
  | lookup path supply =>
    cases h
    exact (v.sameMounts_rule.lookup path (hsupply supply)).1
  | openFile path flags file supply =>
    cases h
    refine v.sameMounts_rule.openFile path flags file (hsupply supply) ?_
    intro v₁ d hsame _ _
    exact hsame.trans (v₁.openDentry_sameMounts d flags file)
  | close file =>
    obtain ⟨f, -, rfl⟩ := Option.map_eq_some_iff.mp h
    exact v.close_sameMounts f
  | mkDir path supply =>
    cases h
    exact v.sameMounts_rule.mkDir path (hsupply supply)
  | unlink path supply =>
    cases h
    exact v.sameMounts_rule.unlink path (hsupply supply)
  | rmDir path supply =>
    cases h
    exact v.sameMounts_rule.rmDir path (hsupply supply)

theorem ne_of_comparesAll {fs : Option FsPtr} {device : Option ℕ}
    {supply : List (Option DentryPtr)} (h : Tabled v)
    (hall : VfsCall.comparesAll v (.mount (some mp.mountPath) fs device supply) = true)
    (hfirst : v.mountTable.findPath v.mountTable.mountCount mp.mountPath = none) :
    ∀ i mp', v.mountTable.mounts i = some mp' → mp'.mountPath ≠ mp.mountPath := by
  intro i mp' hi
  have hany := all_eq_true.mp hall i (mem_range.mpr (h.bound i mp' hi))
  rcases Bool.or_eq_true_iff.mp hany with hlt | hother
  · exact MountTable.ne_of_findPath_eq_none hfirst (of_decide_eq_true hlt) hi
  · rw [hi] at hother
    simpa using hother

theorem Tabled.step (h : Tabled v) (hall : call.comparesAll v = true)
    (hs : v.step ops call = some v') : Tabled v' := by
  cases call with
  | mount path fs device supply =>
    cases hs
    have h' : Tabled { v with supply } := h.of_same ⟨rfl, rfl⟩
    rcases mount_cases ops { v with supply } path fs device with
      hsame | ⟨mp, slot, rfl, hfirst, hfilled⟩
    · exact h'.of_same hsame
    · have hnew := ne_of_comparesAll h hall hfirst
      exact h'.filled hfilled hnew
  | unmount path =>
    cases hs
    rcases unmount_cases ops v path with hsame | ⟨mp, slot, hcleared⟩
    · exact h.of_same hsame
    · exact h.cleared hcleared
  | _ => exact h.of_same (sameMounts_of_step hs (by simp) (by simp))

end Vfs

/-- The mount table is consistent if no path to mount on is the one of a slot that `Mount` does not
compare. -/
theorem mounts_consistent (fileSystems : FsPtr → σ)
    (h : (vfsSystem ops fileSystems).ReachableBy (fun v call => call.comparesAll v = true) v) :
    v.MountsConsistent := by
  suffices hinv : v.Tabled from hinv.toMountsConsistent
  refine h.invariant ?_ fun _ _ _ hinv hall hs => hinv.step hall hs
  rintro _ rfl
  refine ⟨⟨?_, ?_, ?_, ?_⟩, ?_⟩
  · intro i j mp mp' hi
    cases hi
  · rfl
  · constructor
    · exact fun hne => absurd rfl hne
    · rintro ⟨i, mp, hi, -⟩
      cases hi
  · intro i hi
    cases hi
  · intro i mp hi
    cases hi

/-- Two file systems, one on `/` and one on `/a`, of which the second is unmounted again. -/
theorem mounts_consistent_two : ∃ v : Vfs RamFs,
    (vfsSystem ramFs fun _ => {}).ReachableBy (fun v call => call.comparesAll v = true) v ∧
      v.rootDentry = some 1 ∧ v.MountsConsistent := by
  obtain ⟨v, hr, hp⟩ := (vfsSystem ramFs fun _ => {}).exists_of_run
    (fun v call => call.comparesAll v = true)
    [.mount (some [47, 97]) (some 0) none [some 0], .mount (some [47]) (some 1) none [some 1],
      .unmount (some [47, 97])]
    (fun v => v.rootDentry = some 1) rfl (by decide +kernel)
  exact ⟨v, hr, hp, mounts_consistent _ hr⟩

/-- After `/a` is unmounted, the slot of `/` is behind the ones that are compared: `/` is mounted
twice. -/
theorem root_mounted_twice : ¬ ∀ v : Vfs RamFs,
    (vfsSystem ramFs fun _ => {}).Reachable v → v.MountsConsistent := by
  intro hall
  obtain ⟨v, hr, ⟨mp₀, hmp₀, hpath₀⟩, mp₁, hmp₁, hpath₁⟩ :=
    (vfsSystem ramFs fun _ => {}).exists_of_run (fun _ _ => True)
    [.mount (some [47, 97]) (some 0) none [some 0], .mount (some [47]) (some 1) none [some 1],
      .unmount (some [47, 97]), .mount (some [47]) (some 0) none [some 2]]
    (fun v => (∃ mp ∈ v.mountTable.mounts 0, mp.mountPath = [47]) ∧
      ∃ mp ∈ v.mountTable.mounts 1, mp.mountPath = [47]) rfl (by decide +kernel)
  have heq := hpath₀.trans hpath₁.symm
  exact absurd ((hall v hr).unique 0 1 mp₀ mp₁ hmp₀ hmp₁ heq) (by decide)

end SimpleKernel.Filesystem
