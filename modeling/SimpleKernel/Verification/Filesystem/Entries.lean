import SimpleKernel.Verification.Filesystem.Inodes

/-! An entry is put behind the others, in a larger array if there is no room, and the last entry
takes the place of a removed one. -/

namespace SimpleKernel.Filesystem

open List Function

variable {fs fs' : RamFs} {free : List InodePtr} {i d : InodePtr} {name : CString}

/-! ## A further entry -/

namespace RamFs

def grown (fs : RamFs) (d : InodePtr) (n : ℕ) : RamFs :=
  { fs with
    inodes := update fs.inodes d { fs.inodes d with
      data := some fs.dirDataPoolUsed, capacity := n * sizeofRamDirEntry }
    dirDataPool := match (fs.inodes d).data with
      | none => fs.dirDataPool
      | some data => copyEntries fs.dirDataPool fs.dirDataPoolUsed data (fs.inodes d).childCount
    dirDataPoolUsed := fs.dirDataPoolUsed + n * sizeofRamDirEntry }

theorem growDirectory_cases (h : fs.growDirectory d = some fs') :
    ((fs.inodes d).childCount < (fs.inodes d).capacity / sizeofRamDirEntry ∧ fs' = fs) ∨
    ∃ n, (fs.inodes d).capacity / sizeofRamDirEntry < n ∧
      (fs.inodes d).capacity / sizeofRamDirEntry ≤ (fs.inodes d).childCount ∧
      fs' = fs.grown d n := by
  unfold growDirectory at h
  by_cases hfull : (fs.inodes d).capacity / sizeofRamDirEntry ≤ (fs.inodes d).childCount
  · right
    simp only [if_pos hfull] at h
    generalize hn : (if (fs.inodes d).capacity / sizeofRamDirEntry = 0 then 16
      else (fs.inodes d).capacity / sizeofRamDirEntry * 2) = n at h
    refine ⟨n, ?_, hfull, ?_⟩
    · split at hn <;> omega
    · have haligned : (n * sizeofRamDirEntry + alignofRamDirEntry - 1) / alignofRamDirEntry *
          alignofRamDirEntry = n * sizeofRamDirEntry := by
        unfold sizeofRamDirEntry alignofRamDirEntry
        omega
      simp only [allocateDirEntries, haligned] at h
      split at h
      · cases h
      rename_i halloc
      obtain ⟨-, ⟨⟩⟩ := Option.ite_none_left_eq_some.mp halloc
      cases h
      unfold grown setInode
      cases (fs.inodes d).data with
      | none => rfl
      | some data => rfl
  · left
    simp only [if_neg hfull, Option.some.injEq] at h
    exact ⟨Nat.lt_of_not_le hfull, h.symm⟩

section

variable (fs d) (pool : ℕ → RamDirEntry) (dst src n : ℕ)

theorem copyEntries_of_lt {pos : ℕ} (hpos : pos < dst) :
    copyEntries pool dst src n pos = pool pos := by
  induction n with
  | zero => rfl
  | succ n ih =>
    rw [copyEntries, update_of_ne, ih]
    unfold entryAt
    omega

theorem copyEntries_entryAt {n k : ℕ} (hk : k < n) :
    copyEntries pool dst src n (entryAt dst k) = pool (entryAt src k) := by
  induction n with
  | zero => exact absurd hk (Nat.not_lt_zero k)
  | succ n ih =>
    rw [copyEntries]
    by_cases hkn : k = n
    · rw [hkn, update_self]
    rw [update_of_ne, ih (by omega)]
    unfold entryAt sizeofRamDirEntry
    omega

theorem grown_self : (fs.grown d n).inodes d = { fs.inodes d with
    data := some fs.dirDataPoolUsed, capacity := n * sizeofRamDirEntry } := update_self ..

theorem grown_of_ne {x : InodePtr} (hx : x ≠ d) : (fs.grown d n).inodes x = fs.inodes x :=
  update_of_ne hx ..

theorem grown_inode (x : InodePtr) : ((fs.grown d n).inodes x).inode = (fs.inodes x).inode := by
  by_cases hx : x = d
  · rw [hx, grown_self]
  · rw [grown_of_ne fs d n hx]

theorem grown_dirDataPool_of_lt {pos : ℕ}
    (hpos : pos < fs.dirDataPoolUsed) : (fs.grown d n).dirDataPool pos = fs.dirDataPool pos := by
  unfold grown
  cases (fs.inodes d).data with
  | none => rfl
  | some data => exact copyEntries_of_lt _ _ _ _ hpos

end

theorem grown_dirDataPool_entryAt {data k : ℕ} (hdata : (fs.inodes d).data = some data) (n : ℕ)
    (hk : k < (fs.inodes d).childCount) :
    (fs.grown d n).dirDataPool (entryAt fs.dirDataPoolUsed k) = fs.dirDataPool (entryAt data k) := by
  simp only [grown, hdata]
  exact copyEntries_entryAt _ _ _ hk

end RamFs

namespace WellFormed

theorem entryAt_lt (h : WellFormed fs free) {data k : ℕ} (ha : ArrayAt fs free d data)
    (hk : k < (fs.inodes d).childCount) : entryAt data k < fs.dirDataPoolUsed := by
  have hinside := h.inside d data ha
  have hroom := h.room d ha.inUse ha.type
  unfold entryAt
  unfold sizeofRamDirEntry at *
  omega

section

variable (h : WellFormed fs free) (hd : InUse free d) (htype : (fs.inodes d).inode.type = .directory)
include h hd htype

theorem childCount_of_data_none (hdata : (fs.inodes d).data = none) :
    (fs.inodes d).childCount = 0 := by
  have hroom := h.room d hd htype
  rw [h.empty d hd htype hdata] at hroom
  unfold sizeofRamDirEntry at hroom
  omega

theorem grown_entries (n : ℕ) (x : InodePtr) : (fs.grown d n).entries x = fs.entries x := by
  by_cases hx : x = d
  · subst hx
    have hnew := RamFs.grown_self fs x n
    have htype' : ((fs.grown x n).inodes x).inode.type = .directory := by
      rw [hnew]
      exact htype
    rw [RamFs.entries_eq htype' (by rw [hnew]), hnew]
    cases hdata : (fs.inodes x).data with
    | none => rw [RamFs.entries_of_data_none hdata, h.childCount_of_data_none hd htype hdata]; rfl
    | some data =>
      rw [RamFs.entries_eq htype hdata]
      apply map_congr_left
      intro k hk
      exact RamFs.grown_dirDataPool_entryAt hdata n (mem_range.mp hk)
  · have hsame := RamFs.grown_of_ne fs d n hx
    apply RamFs.entries_congr
    · rw [hsame]
    · exact fun _ => by rw [hsame]
    · exact fun _ => by rw [hsame]
    · intro data k hdir hdata hk
      have ha : ArrayAt fs free x data := ⟨h.inUse_of_data hdata, hdir, hdata⟩
      exact RamFs.grown_dirDataPool_of_lt fs d n (h.entryAt_lt ha hk)

theorem grown {n : ℕ}
    (hn : (fs.inodes d).capacity / sizeofRamDirEntry < n) : WellFormed (fs.grown d n) free := by
  have hentries := h.grown_entries hd htype n
  have hroom := h.room d hd htype
  have hinode := RamFs.grown_inode fs d n
  have hnew := RamFs.grown_self fs d n
  have hother := fun x => @RamFs.grown_of_ne fs d n x
  have hused : (fs.grown d n).dirDataPoolUsed = fs.dirDataPoolUsed + n * sizeofRamDirEntry := rfl
  have harray : ∀ x data, x ≠ d → ArrayAt (fs.grown d n) free x data → ArrayAt fs free x data := by
    intro x data hx ha
    have hsame := hother x hx
    exact ⟨ha.inUse, hsame ▸ ha.type, hsame ▸ ha.data⟩
  have hstart : ∀ data, ArrayAt (fs.grown d n) free d data → data = fs.dirDataPoolUsed := by
    intro data ha
    have hdata := ha.data
    rw [hnew] at hdata
    exact (Option.some.inj hdata).symm
  constructor
  case chain =>
    apply h.chain.congr
    intro x hx
    rw [hother x fun heq => hd.2 (heq ▸ hx)]
  case nodup => exact h.nodup
  case lt => exact h.lt
  case idle =>
    intro x hx
    rw [hother x fun heq => hx (heq ▸ hd)]
    exact h.idle x hx
  case self =>
    intro x hx
    rw [hinode]
    exact h.self x hx
  case type =>
    intro x hx
    rw [hinode]
    exact h.type x hx
  case aligned =>
    intro x hx hdir
    by_cases hxd : x = d
    · rw [hxd, hnew]
      exact Nat.dvd_mul_left _ _
    · rw [hother x hxd] at hdir ⊢
      exact h.aligned x hx hdir
  case room =>
    intro x hx hdir
    by_cases hxd : x = d
    · rw [hxd, hnew]
      dsimp only
      unfold sizeofRamDirEntry at *
      omega
    · rw [hother x hxd] at hdir ⊢
      exact h.room x hx hdir
  case empty =>
    intro x hx hdir hdata
    by_cases hxd : x = d
    · rw [hxd, hnew] at hdata
      cases hdata
    · rw [hother x hxd] at hdir hdata ⊢
      exact h.empty x hx hdir hdata
  case inside =>
    intro x data ha
    by_cases hxd : x = d
    · subst hxd
      rw [hstart data ha, hnew, hused]
    · have hinside := h.inside x data (harray x data hxd ha)
      rw [hother x hxd, hused]
      omega
  case apart =>
    intro x x' data data' hne ha ha'
    by_cases hxd : x = d
    · subst hxd
      have hx'd := hne.symm
      right
      rw [hstart data ha, hother x' hx'd]
      exact h.inside x' data' (harray x' data' hx'd ha')
    by_cases hx'd : x' = d
    · subst hx'd
      left
      rw [hstart data' ha', hother x hxd]
      exact h.inside x data (harray x data hxd ha)
    · rw [hother x hxd, hother x' hx'd]
      exact h.apart x x' data data' hne (harray x data hxd ha) (harray x' data' hx'd ha')
  case distinct =>
    intro x
    rw [hentries]
    exact h.distinct x
  case bound =>
    intro x e he
    rw [hentries] at he
    obtain ⟨y, hy, huse, hlink⟩ := h.bound x e he
    refine ⟨y, hy, huse, ?_⟩
    rw [hinode]
    exact hlink
  case once =>
    intro x x' e he e' he'
    rw [hentries] at he he'
    exact h.once x x' e he e' he'

theorem growDirectory (hgrow : fs.growDirectory d = some fs') :
    WellFormed fs' free ∧ (∀ x, fs'.entries x = fs.entries x) ∧
      (∀ x, (fs'.inodes x).inode = (fs.inodes x).inode) ∧
      (fs'.inodes d).childCount * sizeofRamDirEntry < (fs'.inodes d).capacity ∧
      fs'.usedInodes = fs.usedInodes := by
  obtain ⟨hroom, rfl⟩ | ⟨n, hn, hfull, rfl⟩ := RamFs.growDirectory_cases hgrow
  · refine ⟨h, fun _ => rfl, fun _ => rfl, ?_, rfl⟩
    unfold sizeofRamDirEntry at *
    omega
  refine ⟨h.grown hd htype hn, h.grown_entries hd htype n, RamFs.grown_inode fs d n, ?_, rfl⟩
  have hroom := h.room d hd htype
  rw [RamFs.grown_self]
  dsimp only
  unfold sizeofRamDirEntry at *
  omega

end

end WellFormed

theorem sameFiles_growDirectory (P : InodePtr → Prop)
    (htype : (fs.inodes d).inode.type = .directory) (hgrow : fs.growDirectory d = some fs') :
    SameFiles fs fs' P := by
  obtain ⟨_, rfl⟩ | ⟨n, _, _, rfl⟩ := RamFs.growDirectory_cases hgrow
  · exact .rfl fs' P
  constructor
  case mounted => rfl
  case rootInode => rfl
  case pool => rfl
  case used => rfl
  case type => exact fun x _ => by rw [RamFs.grown_inode]
  case size => exact fun x _ => by rw [RamFs.grown_inode]
  case data =>
    intro x _ hr
    have hx : x ≠ d := by
      rintro rfl
      rw [htype] at hr
      cases hr
    rw [RamFs.grown_of_ne fs d n hx]
    exact ⟨rfl, rfl⟩

theorem sameFiles_appendEntry (fs : RamFs) (P : InodePtr → Prop) (d : InodePtr) (name : CString)
    (i : InodePtr) : SameFiles fs (fs.appendEntry d name i) P := by
  unfold RamFs.appendEntry
  apply ((SameFiles.setEntry fs P _ _).trans (SameFiles.setInode _ P d _ ..)).trans
    (SameFiles.setInode _ P i _ ..) <;> exact fun _ => rfl

theorem sameArrays_appendEntry (fs : RamFs) (free : List InodePtr) (d : InodePtr) (name : CString)
    (i : InodePtr) : SameArrays fs (fs.appendEntry d name i) free := by
  unfold RamFs.appendEntry
  apply ((sameArrays_setEntry fs free _ _).trans (sameArrays_setInode _ free d _ ..)).trans
    (sameArrays_setInode _ free i _ ..) <;> exact fun _ => rfl

namespace RamFs

theorem appendEntry_childCount (x : InodePtr) : ((fs.appendEntry d name i).inodes x).childCount =
    if x = d then (fs.inodes d).childCount + 1 else (fs.inodes x).childCount := by
  unfold appendEntry
  refine (setInode_congr _ i _ (·.childCount) ?_ x).trans ?_
  · exact fun _ => rfl
  by_cases hx : x = d
  · rw [if_pos hx, hx, setInode_self]
    rfl
  · rw [if_neg hx, setInode_of_ne _ hx]
    rfl

theorem appendEntry_linkCount (x : InodePtr) :
    ((fs.appendEntry d name i).inodes x).inode.linkCount =
      if x = i then ((fs.inodes i).inode.linkCount + 1) % 2 ^ 32
      else (fs.inodes x).inode.linkCount := by
  have hcount := setInode_congr
    (fs.setEntry (entryAt ((fs.inodes d).data.getD 0) (fs.inodes d).childCount)
      ⟨name.take 255, some i⟩) d (fun r => { r with childCount := r.childCount + 1 })
    (·.inode.linkCount) fun _ => rfl
  unfold appendEntry
  by_cases hx : x = i
  · rw [if_pos hx, hx, setInode_self]
    rw [hcount]
    rfl
  · rw [if_neg hx, setInode_of_ne _ hx]
    exact hcount x

theorem appendEntry_dirDataPool {data : ℕ} (hdata : (fs.inodes d).data = some data) :
    (fs.appendEntry d name i).dirDataPool =
      update fs.dirDataPool (entryAt data (fs.inodes d).childCount) ⟨name.take 255, some i⟩ := by
  simp [appendEntry, setInode, setEntry, hdata]

end RamFs

namespace WellFormed

variable (h : WellFormed fs free) (hd : InUse free d) (htype : (fs.inodes d).inode.type = .directory)
  (hroom : (fs.inodes d).childCount * sizeofRamDirEntry < (fs.inodes d).capacity)
include h hd htype hroom

theorem arrayAt_of_room : ∃ data, ArrayAt fs free d data := by
  cases hdata : (fs.inodes d).data with
  | none =>
    rw [h.empty d hd htype hdata] at hroom
    exact absurd hroom (Nat.not_lt_zero _)
  | some data => exact ⟨data, hd, htype, hdata⟩

theorem appendEntry_entries (hne : i ≠ d) (x : InodePtr) : (fs.appendEntry d name i).entries x =
      if x = d then fs.entries d ++ [⟨name.take 255, some i⟩] else fs.entries x := by
  obtain ⟨data, ha⟩ := h.arrayAt_of_room hd htype hroom
  have hs := sameArrays_appendEntry fs free d name i
  by_cases hx : x = d
  · subst hx
    have htype' := (hs.type x).trans htype
    have hdata' := (hs.data x htype).trans ha.data
    rw [if_pos rfl, RamFs.entries_eq htype' hdata', RamFs.entries_eq htype ha.data,
      RamFs.appendEntry_childCount, if_pos rfl, RamFs.appendEntry_dirDataPool ha.data,
      range_succ, map_append, map_singleton, update_self]
    congr 1
    apply map_congr_left
    intro k hk
    have hlt := mem_range.mp hk
    rw [update_of_ne]
    unfold entryAt sizeofRamDirEntry
    omega
  · rw [if_neg hx]
    apply RamFs.entries_congr (hs.type x) (hs.data x)
    · intro _
      rw [RamFs.appendEntry_childCount, if_neg hx]
    · intro data' k hdir hdata' hk
      have ha' : ArrayAt fs free x data' := ⟨h.inUse_of_data hdata', hdir, hdata'⟩
      have hpos := h.entryAt_ne (fun heq => hx heq.symm) ha ha' hroom hk
      rw [RamFs.appendEntry_dirDataPool ha.data, update_of_ne hpos]

theorem appendEntry (hne : i ≠ d) (hi : InUse free i) (hlink : (fs.inodes i).inode.linkCount = 1)
    (hunbound : ∀ x, ∀ e ∈ fs.entries x, e.inode ≠ some i) :
    WellFormed (fs.appendEntry d name i) free := by
  have hentries := @appendEntry_entries fs free i d name h hd htype hroom hne
  have hmem : ∀ x, ∀ e ∈ (fs.appendEntry d name i).entries x,
      e ∈ fs.entries x ∨ x = d ∧ e = ⟨name.take 255, some i⟩ := by
    intro x e he
    rw [hentries] at he
    by_cases hx : x = d
    · rw [if_pos hx, mem_append, mem_singleton] at he
      exact he.imp (fun hmem => hx ▸ hmem) fun heq => ⟨hx, heq⟩
    · rw [if_neg hx] at he
      exact .inl he
  apply h.of_entries (sameArrays_appendEntry fs free d name i)
  · intro x hx hdir
    rw [RamFs.appendEntry_childCount]
    by_cases hxd : x = d
    · have haligned := h.aligned d hd htype
      rw [if_pos hxd, hxd]
      unfold sizeofRamDirEntry at *
      omega
    · rw [if_neg hxd]
      exact h.room x hx hdir
  · intro x
    rw [hentries]
    by_cases hxd : x = d
    · rw [if_pos hxd, map_append, nodup_append]
      refine ⟨h.distinct d, nodup_singleton _, ?_⟩
      intro a ha b hb
      obtain ⟨e, he, rfl⟩ := mem_map.mp ha
      rw [map_singleton, mem_singleton] at hb
      rw [hb]
      exact hunbound d e he
    · rw [if_neg hxd]
      exact h.distinct x
  · intro x e he
    obtain he | ⟨_, rfl⟩ := hmem x e he
    · obtain ⟨j, hj, huse, hl⟩ := h.bound x e he
      have hji : j ≠ i := fun heq => hunbound x e he (heq ▸ hj)
      refine ⟨j, hj, huse, ?_⟩
      rw [RamFs.appendEntry_linkCount, if_neg hji]
      exact hl
    · refine ⟨i, rfl, hi, ?_⟩
      rw [RamFs.appendEntry_linkCount, if_pos rfl]
      omega
  · intro x x' e he e' he' hee
    obtain hold | ⟨hx, hnew⟩ := hmem x e he
    · obtain hold' | ⟨_, hnew'⟩ := hmem x' e' he'
      · exact h.once x x' e hold e' hold' hee
      · rw [hnew'] at hee
        exact absurd hee (hunbound x e hold)
    obtain hold' | ⟨hx', hnew'⟩ := hmem x' e' he'
    · rw [hnew] at hee
      exact absurd hee.symm (hunbound x' e' hold')
    · exact ⟨hx.trans hx'.symm, hnew.trans hnew'.symm⟩

end WellFormed

/-! ## Removing an entry -/

def dropLink (r : RamInode) : RamInode :=
  { r with inode := { r.inode with linkCount := (2 ^ 32 - 1 + r.inode.linkCount) % 2 ^ 32 } }

namespace RamFs

def removed (fs : RamFs) (d : InodePtr) (data k : ℕ) (i : InodePtr) : RamFs :=
  let last := fs.dirDataPool (entryAt data ((fs.inodes d).childCount - 1))
  ((fs.setInode i dropLink).setEntry (entryAt data k) last).setInode d fun r =>
    { r with childCount := r.childCount - 1 }

theorem removeFromDirectory_eq {data k : ℕ}
    (hfind : fs.findInDirectory (some d) name = some (entryAt data k))
    (hdata : (fs.inodes d).data = some data)
    (hinode : (fs.dirDataPool (entryAt data k)).inode = some i) :
    fs.removeFromDirectory (some d) name = (.ok (), fs.removed d data k i) := by
  unfold removeFromDirectory removed
  rw [hfind]
  dsimp only
  rw [hinode]
  have hdrop : (fun r : RamInode => ({ r with inode := { r.inode with
      linkCount := (2 ^ 32 - 1 + r.inode.linkCount) % 2 ^ 32 } } : RamInode)) = dropLink := rfl
  rw [hdrop]
  have hdata' := setInode_congr fs i dropLink (·.data) (fun _ => rfl) d
  have hcount' := setInode_congr fs i dropLink (·.childCount) (fun _ => rfl) d
  rw [hdata', hcount', hdata, Option.getD_some, setInode_dirDataPool]
  by_cases hlast : entryAt data k = entryAt data ((fs.inodes d).childCount - 1)
  · rw [if_neg (not_not.mpr hlast), ← hlast]
    simp [setEntry, setInode]
  · rw [if_pos hlast]

theorem removed_childCount (data k : ℕ) (x : InodePtr) :
    ((fs.removed d data k i).inodes x).childCount =
      if x = d then (fs.inodes d).childCount - 1 else (fs.inodes x).childCount := by
  have hlink := setInode_congr fs i dropLink (·.childCount) fun _ => rfl
  unfold removed
  by_cases hx : x = d
  · rw [if_pos hx, hx, setInode_self]
    rw [← hlink]
    rfl
  · rw [if_neg hx, setInode_of_ne _ hx]
    exact hlink x

theorem removed_linkCount (data k : ℕ) (x : InodePtr) :
    ((fs.removed d data k i).inodes x).inode.linkCount =
      if x = i then (dropLink (fs.inodes i)).inode.linkCount
      else (fs.inodes x).inode.linkCount := by
  unfold removed
  refine (setInode_congr _ d _ (·.inode.linkCount) ?_ x).trans ?_
  · exact fun _ => rfl
  rw [setEntry_inodes]
  by_cases hx : x = i
  · rw [if_pos hx, hx, setInode_self]
  · rw [if_neg hx, setInode_of_ne _ hx]

theorem removed_dirDataPool (data k : ℕ) : (fs.removed d data k i).dirDataPool =
    update fs.dirDataPool (entryAt data k)
      (fs.dirDataPool (entryAt data ((fs.inodes d).childCount - 1))) := rfl

end RamFs

theorem sameFiles_removed (fs : RamFs) (P : InodePtr → Prop) (d : InodePtr) (data k : ℕ)
    (i : InodePtr) : SameFiles fs (fs.removed d data k i) P := by
  unfold RamFs.removed
  apply ((SameFiles.setInode fs P i _ ..).trans (SameFiles.setEntry _ P _ _)).trans
    (SameFiles.setInode _ P d _ ..) <;> exact fun _ => rfl

theorem sameArrays_removed (fs : RamFs) (free : List InodePtr) (d : InodePtr) (data k : ℕ)
    (i : InodePtr) : SameArrays fs (fs.removed d data k i) free := by
  unfold RamFs.removed
  apply ((sameArrays_setInode fs free i _ ..).trans (sameArrays_setEntry _ free _ _)).trans
    (sameArrays_setInode _ free d _ ..) <;> exact fun _ => rfl

namespace WellFormed

variable {data k : ℕ} {e : RamDirEntry}

theorem removed_entries_self (ha : ArrayAt fs free d data) (hk : k < (fs.inodes d).childCount) :
    (fs.entries d).Perm (fs.dirDataPool (entryAt data k) :: (fs.removed d data k i).entries d) := by
  have hs := sameArrays_removed fs free d data k i
  have hdata' := (hs.data d ha.type).trans ha.data
  obtain ⟨n, hn⟩ : ∃ n, (fs.inodes d).childCount = n + 1 := ⟨_, (Nat.succ_pred_eq_of_pos (by omega)).symm⟩
  rw [RamFs.entries_eq ha.type ha.data, RamFs.entries_eq ((hs.type d).trans ha.type) hdata',
    RamFs.removed_childCount, if_pos rfl, RamFs.removed_dirDataPool, hn, Nat.add_sub_cancel]
  have hkn : k ≤ n := by omega
  refine (Keyed.map_range_perm (fun j => fs.dirDataPool (entryAt data j)) hkn).trans ?_
  have hmap : (range n).map (fun j => if j = k then fs.dirDataPool (entryAt data n)
        else fs.dirDataPool (entryAt data j)) = (range n).map fun j =>
      update fs.dirDataPool (entryAt data k) (fs.dirDataPool (entryAt data n))
        (entryAt data j) := by
    apply map_congr_left
    intro j _
    by_cases hjk : j = k
    · rw [if_pos hjk, hjk, update_self]
    rw [if_neg hjk, update_of_ne]
    unfold entryAt sizeofRamDirEntry
    omega
  rw [hmap]

theorem removed_entries_of_ne (h : WellFormed fs free) (ha : ArrayAt fs free d data)
    (hk : k < (fs.inodes d).childCount) {x : InodePtr} (hx : x ≠ d) :
    (fs.removed d data k i).entries x = fs.entries x := by
  have hs := sameArrays_removed fs free d data k i
  apply RamFs.entries_congr (hs.type x) (hs.data x)
  · intro _
    rw [RamFs.removed_childCount, if_neg hx]
  · intro data' j hdir hdata' hj
    have ha' : ArrayAt fs free x data' := ⟨h.inUse_of_data hdata', hdir, hdata'⟩
    have hroom := h.room d ha.inUse ha.type
    have hpos : entryAt data' j ≠ entryAt data k := by
      apply h.entryAt_ne (fun heq => hx heq.symm) ha ha' ?_ hj
      unfold sizeofRamDirEntry at *
      omega
    rw [RamFs.removed_dirDataPool, update_of_ne hpos]

section

variable (h : WellFormed fs free) (ha : ArrayAt fs free d data) (hk : k < (fs.inodes d).childCount)
  (hinode : (fs.dirDataPool (entryAt data k)).inode = some i)
include h ha hk hinode

theorem mem_removed_entries
    (x : InodePtr) (he : e ∈ (fs.removed d data k i).entries x) :
    e ∈ fs.entries x ∧ e.inode ≠ some i := by
  have hperm := removed_entries_self (i := i) ha hk
  by_cases hx : x = d
  · subst hx
    have he' : e ∈ fs.entries x := hperm.mem_iff.mpr (mem_cons_of_mem _ he)
    refine ⟨he', fun hei => ?_⟩
    have hnodup := (hperm.map (·.inode)).nodup_iff.mp (h.distinct x)
    rw [map_cons, nodup_cons, hinode, ← hei] at hnodup
    exact hnodup.1 (mem_map_of_mem he)
  · rw [h.removed_entries_of_ne ha hk hx] at he
    refine ⟨he, fun hei => hx ?_⟩
    exact (h.once d x _ (ha.mem_entries hk) e he (hinode.trans hei.symm)).1.symm

theorem removed : WellFormed (fs.removed d data k i) free := by
  have hmem := fun x e => @mem_removed_entries fs free i d data k e h ha hk hinode x
  apply h.of_entries (sameArrays_removed fs free d data k i)
  · intro x hx hdir
    have hroom := h.room x hx hdir
    rw [RamFs.removed_childCount]
    by_cases hxd : x = d
    · subst hxd
      rw [if_pos rfl]
      exact (Nat.mul_le_mul_right _ (Nat.sub_le _ _)).trans hroom
    · rw [if_neg hxd]
      exact hroom
  · intro x
    by_cases hxd : x = d
    · subst hxd
      have hnodup := ((removed_entries_self (i := i) ha hk).map (·.inode)).nodup_iff.mp (h.distinct x)
      exact (nodup_cons.mp hnodup).2
    · rw [h.removed_entries_of_ne ha hk hxd]
      exact h.distinct x
  · intro x e he
    obtain ⟨hold, hne⟩ := hmem x e he
    obtain ⟨j, hj, huse, hlink⟩ := h.bound x e hold
    have hji : j ≠ i := fun heq => hne (heq ▸ hj)
    refine ⟨j, hj, huse, ?_⟩
    rw [RamFs.removed_linkCount, if_neg hji]
    exact hlink
  · intro x x' e he e' he'
    exact h.once x x' e (hmem x e he).1 e' (hmem x' e' he').1

theorem freeUnlinked_removed :
    (fs.removed d data k i).freeUnlinked (entryAt data k) = fs.removed d data k i := by
  have hentry : ∀ j < (fs.inodes d).childCount,
      ∃ y, (fs.dirDataPool (entryAt data j)).inode = some y ∧ (fs.inodes y).inode.linkCount = 2 := by
    intro j hj
    obtain ⟨y, hy, _, hlink⟩ := h.bound d _ (ha.mem_entries hj)
    exact ⟨y, hy, hlink⟩
  obtain ⟨y, hy, hlink⟩ := hentry ((fs.inodes d).childCount - 1) (by omega)
  obtain ⟨_, hi, hlinki⟩ := hentry k hk
  rw [hinode] at hi
  cases hi
  have hlink' : ((fs.removed d data k i).inodes y).inode.linkCount ≠ 0 := by
    rw [RamFs.removed_linkCount]
    by_cases hyi : y = i
    · rw [if_pos hyi]
      dsimp [dropLink]
      rw [hlinki]
      decide
    · rw [if_neg hyi, hlink]
      decide
  unfold RamFs.freeUnlinked
  rw [RamFs.removed_dirDataPool, update_self, hy]
  exact if_neg hlink'

end

end WellFormed

end SimpleKernel.Filesystem
