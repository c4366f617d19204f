import SimpleKernel.Shared.WriteLog
import SimpleKernel.Verification.Filesystem.Sessions

/-! The files are byte arrays of their own: their regions in the pool do not overlap, and the bytes
of a file are the ones that were written to it last. -/

namespace SimpleKernel.Filesystem

open List WriteLog

variable {fs fs' : RamFs} {free free' : List InodePtr} {i j : InodePtr}
  {log : List (Write InodePtr UInt8)} {bytes : List UInt8} {offset : ℕ} {pos : ℕ} {file : File}

/-! ## Copied bytes -/

theorem copyBytes_add (pool : ℕ → UInt8) (dst : ℕ) (bytes : List UInt8) (k : ℕ) :
    copyBytes pool dst bytes (dst + k) = bytes.getD k (pool (dst + k)) := by
  unfold copyBytes
  rw [if_pos (Nat.le_add_right dst k), Nat.add_sub_cancel_left]

theorem copyBytes_of_outside (pool : ℕ → UInt8) {dst : ℕ} (bytes : List UInt8)
    (h : pos < dst ∨ dst + bytes.length ≤ pos) : copyBytes pool dst bytes pos = pool pos := by
  obtain h | h := h
  · exact if_neg (Nat.not_le.mpr h)
  obtain ⟨k, rfl⟩ := Nat.exists_eq_add_of_le (Nat.le_of_add_right_le h)
  have hlen : bytes.length ≤ k := by omega
  rw [copyBytes_add, getD_eq_getElem?_getD, getElem?_eq_none hlen, Option.getD_none]

namespace RamFs

theorem bytesAt_length (fs : RamFs) (src count : ℕ) : (fs.bytesAt src count).length = count := by
  rw [bytesAt, length_map, length_range]

theorem bytesAt_getElem? (fs : RamFs) (src : ℕ) {count k : ℕ} (hk : k < count) :
    (fs.bytesAt src count)[k]? = some (fs.fileDataPool (src + k)) := by
  rw [bytesAt, getElem?_map, getElem?_range hk, Option.map_some]

def contents (fs : RamFs) (i : InodePtr) : List UInt8 :=
  fs.bytesAt ((fs.inodes i).data.getD 0) (fs.inodes i).inode.size

end RamFs

/-! ## Regions -/

/-- The inode is one of a file. -/
structure IsFile (fs : RamFs) (free : List InodePtr) (i : InodePtr) : Prop where
  inUse : InUse free i
  type : (fs.inodes i).inode.type = .regular

/-- The files have regions of their own in the pool, with the bytes that were written to them. -/
structure Stored (fs : RamFs) (free : List InodePtr) (log : List (Write InodePtr UInt8)) :
    Prop where
  logged : ∀ w ∈ log, IsFile fs free w.key
  room : ∀ i, IsFile fs free i → (fs.inodes i).inode.size ≤ (fs.inodes i).capacity
  empty : ∀ i, IsFile fs free i → (fs.inodes i).data = none → (fs.inodes i).capacity = 0
  inside : ∀ i a, IsFile fs free i → (fs.inodes i).data = some a →
    a + (fs.inodes i).capacity ≤ fs.fileDataPoolUsed
  apart : ∀ i j a b, i ≠ j → IsFile fs free i → IsFile fs free j → (fs.inodes i).data = some a →
    (fs.inodes j).data = some b → a + (fs.inodes i).capacity ≤ b ∨ b + (fs.inodes j).capacity ≤ a
  size : ∀ i, IsFile fs free i → (fs.inodes i).inode.size = extent log i
  bytes : ∀ i a pos b, IsFile fs free i → (fs.inodes i).data = some a →
    latest log i pos = some b → fs.fileDataPool (a + pos) = b

namespace Stored

variable (h : Stored fs free log)
include h

theorem of_sameFiles (hs : SameFiles fs fs' (InUse free)) (huse : ∀ i, InUse free i → InUse free' i)
    (hnew : ∀ i, InUse free' i → InUse free i ∨ ¬ InUse free i ∧
      ((fs'.inodes i).inode.type = .regular → (fs'.inodes i).inode.size = 0 ∧
        (fs'.inodes i).data = none ∧ (fs'.inodes i).capacity = 0)) : Stored fs' free' log := by
  have hold : ∀ i, IsFile fs' free' i → (IsFile fs free i ∧
      (fs'.inodes i).inode.size = (fs.inodes i).inode.size ∧
      (fs'.inodes i).data = (fs.inodes i).data ∧
      (fs'.inodes i).capacity = (fs.inodes i).capacity) ∨ ¬ InUse free i ∧
      (fs'.inodes i).inode.size = 0 ∧ (fs'.inodes i).data = none ∧
      (fs'.inodes i).capacity = 0 := by
    intro i hi
    obtain huse | ⟨hfree, hempty⟩ := hnew i hi.inUse
    · have htype := (hs.type i huse).symm.trans hi.type
      exact .inl ⟨⟨huse, htype⟩, hs.size i huse, hs.data i huse htype⟩
    · exact .inr ⟨hfree, hempty hi.type⟩
  have hsome : ∀ i a, IsFile fs' free' i → (fs'.inodes i).data = some a → IsFile fs free i ∧
      (fs.inodes i).data = some a ∧ (fs'.inodes i).capacity = (fs.inodes i).capacity := by
    intro i a hi ha
    obtain ⟨hi, _, hdata, hcapacity⟩ | ⟨_, _, hnone, _⟩ := hold i hi
    · exact ⟨hi, hdata.symm.trans ha, hcapacity⟩
    · rw [hnone] at ha
      cases ha
  constructor
  case logged =>
    intro w hw
    have hi := h.logged w hw
    exact ⟨huse w.key hi.inUse, (hs.type w.key hi.inUse).trans hi.type⟩
  case room =>
    intro i hi
    obtain ⟨hi, hsize, _, hcapacity⟩ | ⟨_, hsize, _⟩ := hold i hi
    · rw [hsize, hcapacity]
      exact h.room i hi
    · rw [hsize]
      exact Nat.zero_le _
  case empty =>
    intro i hi hdata
    obtain ⟨hi, _, hdata', hcapacity⟩ | ⟨_, _, _, hcapacity⟩ := hold i hi
    · rw [hcapacity]
      exact h.empty i hi (hdata'.symm.trans hdata)
    · exact hcapacity
  case inside =>
    intro i a hi ha
    obtain ⟨hi, ha, hcapacity⟩ := hsome i a hi ha
    rw [hcapacity, hs.used]
    exact h.inside i a hi ha
  case apart =>
    intro i j a b hne hi hj ha hb
    obtain ⟨hi, ha, hcapacity⟩ := hsome i a hi ha
    obtain ⟨hj, hb, hcapacity'⟩ := hsome j b hj hb
    rw [hcapacity, hcapacity']
    exact h.apart i j a b hne hi hj ha hb
  case size =>
    intro i hi
    obtain ⟨hi, hsize, _⟩ | ⟨hfree, hsize, _⟩ := hold i hi
    · rw [hsize]
      exact h.size i hi
    · have hnone : ∀ w ∈ log, w.key ≠ i := fun w hw heq => hfree (heq ▸ (h.logged w hw).inUse)
      rw [hsize, extent_of_forall_key_ne hnone]
  case bytes =>
    intro i a pos b hi ha hlatest
    obtain ⟨hi, ha, _⟩ := hsome i a hi ha
    rw [hs.pool]
    exact h.bytes i a pos b hi ha hlatest

theorem of_changesFile (hc : ChangesFile fs fs' i) (hi : IsFile fs free i)
    {log' : List (Write InodePtr UInt8)} {a : ℕ} (hdata : ∀ b, (fs'.inodes i).data = some b → b = a)
    (hempty : (fs'.inodes i).data = none → (fs'.inodes i).capacity = 0)
    (hroom : (fs'.inodes i).inode.size ≤ (fs'.inodes i).capacity)
    (hused : fs.fileDataPoolUsed ≤ fs'.fileDataPoolUsed)
    (hinside : a + (fs'.inodes i).capacity ≤ fs'.fileDataPoolUsed)
    (hapart : ∀ j b, j ≠ i → IsFile fs free j → (fs.inodes j).data = some b →
      a + (fs'.inodes i).capacity ≤ b ∨ b + (fs.inodes j).capacity ≤ a)
    (hpool : ∀ pos, pos < a ∨ a + (fs'.inodes i).capacity ≤ pos → pos < fs.fileDataPoolUsed →
      fs'.fileDataPool pos = fs.fileDataPool pos)
    (hsize : (fs'.inodes i).inode.size = extent log' i)
    (hbytes : ∀ pos b, latest log' i pos = some b → fs'.fileDataPool (a + pos) = b)
    (hlog : ∀ w ∈ log', w ∈ log ∨ w.key = i)
    (hother : ∀ j, j ≠ i → extent log' j = extent log j ∧
      ∀ pos, latest log' j pos = latest log j pos) : Stored fs' free log' := by
  have hcases : ∀ j, IsFile fs' free j →
      j = i ∨ j ≠ i ∧ fs'.inodes j = fs.inodes j ∧ IsFile fs free j := by
    intro j hj
    by_cases hji : j = i
    · exact .inl hji
    · have hsame := hc.other j hji
      exact .inr ⟨hji, hsame, hj.inUse, hsame ▸ hj.type⟩
  constructor
  case logged =>
    intro w hw
    by_cases hwi : w.key = i
    · exact ⟨hwi ▸ hi.inUse, by rw [hwi, hc.type, hi.type]⟩
    · have hold := h.logged w ((hlog w hw).resolve_right hwi)
      exact ⟨hold.inUse, by rw [hc.other _ hwi, hold.type]⟩
  case room =>
    intro j hj
    obtain rfl | ⟨_, hsame, hj⟩ := hcases j hj
    · exact hroom
    · rw [hsame]
      exact h.room j hj
  case empty =>
    intro j hj hnone
    obtain rfl | ⟨_, hsame, hj⟩ := hcases j hj
    · exact hempty hnone
    · rw [hsame] at hnone ⊢
      exact h.empty j hj hnone
  case inside =>
    intro j b hj hb
    obtain rfl | ⟨_, hsame, hj⟩ := hcases j hj
    · rw [hdata b hb]
      exact hinside
    · rw [hsame] at hb ⊢
      exact (h.inside j b hj hb).trans hused
  case apart =>
    intro j k b c hne hj hk hb hc'
    obtain rfl | ⟨hji, hsame, hj⟩ := hcases j hj
    · obtain rfl | ⟨hki, hsame, hk⟩ := hcases k hk
      · exact absurd rfl hne
      rw [hsame] at hc' ⊢
      rw [hdata b hb]
      exact hapart k c hki hk hc'
    rw [hsame] at hb ⊢
    obtain rfl | ⟨_, hsame', hk⟩ := hcases k hk
    · rw [hdata c hc']
      exact (hapart j b hji hj hb).symm
    · rw [hsame'] at hc' ⊢
      exact h.apart j k b c hne hj hk hb hc'
  case size =>
    intro j hj
    obtain rfl | ⟨hji, hsame, hj⟩ := hcases j hj
    · exact hsize
    · rw [hsame, (hother j hji).1]
      exact h.size j hj
  case bytes =>
    intro j b pos c hj hb hlatest
    obtain rfl | ⟨hji, hsame, hj⟩ := hcases j hj
    · rw [hdata b hb]
      exact hbytes pos c hlatest
    rw [hsame] at hb
    rw [(hother j hji).2] at hlatest
    have hlt := lt_extent hlatest
    rw [← h.size j hj] at hlt
    have hregion := h.room j hj
    have hpos := h.inside j b hj hb
    have houtside := hapart j b hji hj hb
    rw [hpool (b + pos) (by omega) (by omega)]
    exact h.bytes j b pos c hj hb hlatest

theorem exists_data (hi : IsFile fs free i) {b : UInt8} (hlatest : latest log i pos = some b) :
    ∃ a, (fs.inodes i).data = some a ∧ pos < (fs.inodes i).inode.size := by
  have hlt := lt_extent hlatest
  rw [← h.size i hi] at hlt
  cases hdata : (fs.inodes i).data with
  | none =>
    have hroom := h.room i hi
    rw [h.empty i hi hdata] at hroom
    omega
  | some a => exact ⟨a, rfl, hlt⟩

end Stored

/-! ## A larger region -/

section

variable (fs i) (n : ℕ)

theorem changesFile_expanded : ChangesFile fs (fs.expanded i n) i :=
  (ChangesFile.pool fs i (fs.expanded i n).fileDataPool (fs.expanded i n).fileDataPoolUsed).trans
    (.data _ i fs.fileDataPoolUsed n)

theorem RamFs.expanded_self : (fs.expanded i n).inodes i =
    { fs.inodes i with data := some fs.fileDataPoolUsed, capacity := n } := by
  simp [RamFs.expanded]

theorem RamFs.expanded_pool_of_outside
    (h : pos < fs.fileDataPoolUsed ∨ fs.fileDataPoolUsed + (fs.inodes i).inode.size ≤ pos) :
    (fs.expanded i n).fileDataPool pos = fs.fileDataPool pos := by
  unfold RamFs.expanded
  cases (fs.inodes i).data with
  | none => rfl
  | some a => exact copyBytes_of_outside _ _ (by rw [RamFs.bytesAt_length]; exact h)

end

theorem RamFs.expanded_pool_add {a k : ℕ} (hdata : (fs.inodes i).data = some a) (n : ℕ)
    (hk : k < (fs.inodes i).inode.size) :
    (fs.expanded i n).fileDataPool (fs.fileDataPoolUsed + k) = fs.fileDataPool (a + k) := by
  simp only [RamFs.expanded, hdata]
  rw [copyBytes_add, getD_eq_getElem?_getD, RamFs.bytesAt_getElem? fs a hk, Option.getD_some]

theorem Stored.expanded (h : Stored fs free log) (hi : IsFile fs free i) {n : ℕ}
    (hn : (fs.inodes i).capacity < n) : Stored (fs.expanded i n) free log := by
  have hself := fs.expanded_self i n
  have hused : (fs.expanded i n).fileDataPoolUsed = fs.fileDataPoolUsed + n := rfl
  apply h.of_changesFile (changesFile_expanded fs i n) hi (a := fs.fileDataPoolUsed)
  case hdata =>
    intro b hb
    rw [hself] at hb
    cases hb
    rfl
  case hempty =>
    intro hnone
    rw [hself] at hnone
    cases hnone
  case hroom =>
    rw [hself]
    exact (h.room i hi).trans hn.le
  case hused =>
    exact Nat.le_add_right _ _
  case hinside => rw [hself, hused]
  case hapart => exact fun j b _ hj hb => .inr (h.inside j b hj hb)
  case hpool => exact fun pos _ hpos => fs.expanded_pool_of_outside i n (.inl hpos)
  case hsize =>
    rw [hself]
    exact h.size i hi
  case hbytes =>
    intro pos b hlatest
    obtain ⟨a, ha, hlt⟩ := h.exists_data hi hlatest
    rw [RamFs.expanded_pool_add ha n hlt]
    exact h.bytes i a pos b hi ha hlatest
  case hlog => exact fun w hw => .inl hw
  case hother => exact fun j _ => ⟨rfl, fun _ => rfl⟩

/-! ## Written bytes -/

namespace RamFs

variable (fs i offset)

theorem stored_self (bytes : List UInt8) (newOffset : ℕ) :
    ((fs.stored i offset bytes newOffset).inodes i).data = (fs.inodes i).data ∧
    ((fs.stored i offset bytes newOffset).inodes i).capacity = (fs.inodes i).capacity ∧
    ((fs.stored i offset bytes newOffset).inodes i).inode.size =
      max (fs.inodes i).inode.size newOffset := by
  unfold stored
  dsimp only
  split
  · rename_i hlt
    rw [setInode_self]
    exact ⟨rfl, rfl, (Nat.max_eq_right hlt.le).symm⟩
  · rename_i hle
    exact ⟨rfl, rfl, (Nat.max_eq_left (Nat.le_of_not_lt hle)).symm⟩

theorem stored_pool (bytes : List UInt8) (newOffset : ℕ) :
    (fs.stored i offset bytes newOffset).fileDataPool =
        copyBytes fs.fileDataPool ((fs.inodes i).data.getD 0 + offset) bytes ∧
      (fs.stored i offset bytes newOffset).fileDataPoolUsed = fs.fileDataPoolUsed := by
  unfold stored
  dsimp only
  split <;> exact ⟨rfl, rfl⟩

end RamFs

section

variable (h : Stored fs free log)
include h

theorem Stored.stored (hi : IsFile fs free i)
    (hroom : offset + bytes.length ≤ (fs.inodes i).capacity) :
    Stored (fs.stored i offset bytes (offset + bytes.length)) free (⟨i, offset, bytes⟩ :: log) := by
  obtain ⟨hdata, hcapacity, hsize⟩ := fs.stored_self i offset bytes (offset + bytes.length)
  obtain ⟨hpool, hused⟩ := fs.stored_pool i offset bytes (offset + bytes.length)
  apply h.of_changesFile (fs.changesFile_stored i offset bytes _) hi (a := (fs.inodes i).data.getD 0)
  case hdata =>
    intro b hb
    rw [hdata] at hb
    rw [hb, Option.getD_some]
  case hempty =>
    intro hnone
    rw [hcapacity]
    exact h.empty i hi (hdata.symm.trans hnone)
  case hroom =>
    rw [hsize, hcapacity]
    exact Nat.max_le.mpr ⟨h.room i hi, hroom⟩
  case hused => exact hused.ge
  case hinside =>
    rw [hcapacity, hused]
    cases ha : (fs.inodes i).data with
    | none =>
      rw [h.empty i hi ha]
      exact Nat.zero_le _
    | some a => exact h.inside i a hi ha
  case hapart =>
    intro j b hji hj hb
    rw [hcapacity]
    cases ha : (fs.inodes i).data with
    | none =>
      left
      rw [h.empty i hi ha]
      exact Nat.zero_le _
    | some a => exact h.apart i j a b hji.symm hi hj ha hb
  case hpool =>
    intro pos houtside _
    rw [hpool]
    apply copyBytes_of_outside
    omega
  case hsize =>
    rw [hsize, h.size i hi, Nat.max_comm]
    exact (extent_cons_self ⟨i, offset, bytes⟩ log).symm
  case hbytes =>
    intro pos b hlatest
    rw [hpool]
    obtain hnew | ⟨hnone, hold⟩ := latest_cons_eq_some hlatest
    · -- the byte is one of the new ones
      simp only [Write.valueAt, true_and] at hnew
      split at hnew
      · rename_i hle
        obtain ⟨k, rfl⟩ := Nat.exists_eq_add_of_le hle
        rw [Nat.add_sub_cancel_left] at hnew
        rw [← Nat.add_assoc, copyBytes_add, getD_eq_getElem?_getD, hnew, Option.getD_some]
      · cases hnew
    obtain ⟨a, ha, _⟩ := h.exists_data hi hold
    have houtside := Write.valueAt_eq_none hnone rfl
    simp only [Write.stop] at houtside
    rw [copyBytes_of_outside]
    · rw [ha, Option.getD_some]
      exact h.bytes i a pos b hi ha hold
    · omega
  case hlog =>
    intro w hw
    obtain rfl | hw := mem_cons.mp hw
    · exact .inr rfl
    · exact .inl hw
  case hother =>
    intro j hji
    have hne : i ≠ j := hji.symm
    exact ⟨extent_cons_of_ne hne, fun _ => latest_cons_of_ne hne⟩

/-! ## Other files -/

theorem Stored.contents_congr (hj : IsFile fs free j) (hinode : fs'.inodes j = fs.inodes j)
    (hpool : ∀ b k, (fs.inodes j).data = some b → k < (fs.inodes j).inode.size →
      fs'.fileDataPool (b + k) = fs.fileDataPool (b + k)) : fs'.contents j = fs.contents j := by
  unfold RamFs.contents
  rw [hinode]
  apply map_congr_left
  intro k hk
  rw [mem_range] at hk
  cases hdata : (fs.inodes j).data with
  | none =>
    have hroom := h.room j hj
    rw [h.empty j hj hdata] at hroom
    omega
  | some b => exact hpool b k hdata hk

theorem Stored.contents_expanded (hj : IsFile fs free j) (hne : j ≠ i)
    (n : ℕ) : (fs.expanded i n).contents j = fs.contents j := by
  apply h.contents_congr hj ((changesFile_expanded fs i n).other j hne)
  intro b k hb hk
  have hinside := h.inside j b hj hb
  have hroom := h.room j hj
  exact fs.expanded_pool_of_outside i n (.inl (by omega))

theorem Stored.contents_stored (hi : IsFile fs free i)
    (hroom : offset + bytes.length ≤ (fs.inodes i).capacity) (hj : IsFile fs free j) (hne : j ≠ i) :
    (fs.stored i offset bytes (offset + bytes.length)).contents j = fs.contents j := by
  apply h.contents_congr hj ((fs.changesFile_stored i offset bytes _).other j hne)
  intro b k hb hk
  have hsize := h.room j hj
  rw [(fs.stored_pool i offset bytes _).1]
  apply copyBytes_of_outside
  cases ha : (fs.inodes i).data with
  | none =>
    rw [h.empty i hi ha] at hroom
    omega
  | some a =>
    have hapart := h.apart i j a b hne.symm hi hj ha hb
    rw [Option.getD_some]
    omega

/-! ## Reading and writing -/

theorem Stored.read (hw : WellFormed fs free) (hi : IsFile fs free i) (hfile : file.inode = some i)
    {count : ℕ} (hlt : file.offset + count < 2 ^ 63) :
    ∃ bytes, fs.read file true count = (.ok bytes, { file with offset := file.offset + bytes.length }) ∧
      bytes.length = min count ((fs.inodes i).inode.size - file.offset) ∧
      ∀ k b, k < bytes.length → latest log i (file.offset + k) = some b → bytes[k]? = some b := by
  unfold RamFs.read
  simp only [hfile, hi.type, hw.self i hi.inUse, Bool.not_true, Bool.false_eq_true, if_false,
    ne_eq, not_true_eq_false, Option.getD_some]
  by_cases hend : (fs.inodes i).inode.size ≤ file.offset
  · refine ⟨[], ?_, ?_, (by simp)⟩
    · rw [if_pos hend, ← hfile]
      rfl
    · rw [Nat.sub_eq_zero_of_le hend, Nat.min_zero]
      rfl
  have hread : (if count < (fs.inodes i).inode.size - file.offset then count
      else (fs.inodes i).inode.size - file.offset) =
      min count ((fs.inodes i).inode.size - file.offset) := by
    rw [Nat.min_def]
    split <;> split <;> omega
  rw [if_neg hend, hread]
  generalize hn : min count ((fs.inodes i).inode.size - file.offset) = n
  have hmod : (file.offset + n) % 2 ^ 64 = file.offset + n := Nat.mod_eq_of_lt (by omega)
  refine ⟨fs.bytesAt ((fs.inodes i).data.getD 0 + file.offset) n, ?_, fs.bytesAt_length _ n, ?_⟩
  · rw [hmod, fs.bytesAt_length]
  · intro k b hk hlatest
    rw [fs.bytesAt_length] at hk
    obtain ⟨a, ha, _⟩ := h.exists_data hi hlatest
    rw [fs.bytesAt_getElem? _ hk, ha, Option.getD_some, Nat.add_assoc,
      h.bytes i a _ b hi ha hlatest]

end

theorem RamFs.write_cases (hfile : file.inode = some i)
    (htype : (fs.inodes i).inode.type = .regular) (hself : (fs.inodes i).inode.fsPrivate = some i)
    (hused : fs.fileDataPoolUsed ≤ fileDataPoolSize) (hlt : file.offset + bytes.length < 2 ^ 63) :
    fs.write file (some bytes) = (.error .outOfMemory, fs, file) ∨
    ∃ fs', (fs' = fs ∨ ∃ n, (fs.inodes i).capacity < n ∧
        fs.fileDataPoolUsed + n ≤ fileDataPoolSize ∧ fs' = fs.expanded i n) ∧
      file.offset + bytes.length ≤ (fs'.inodes i).capacity ∧
      fs.write file (some bytes) = (.ok bytes.length,
        fs'.stored i file.offset bytes (file.offset + bytes.length),
        { file with offset := file.offset + bytes.length }) := by
  have hmod : (file.offset + bytes.length) % 2 ^ 64 = file.offset + bytes.length :=
    Nat.mod_eq_of_lt (by omega)
  rw [write_eq hfile htype hself, hmod]
  by_cases hroom : (fs.inodes i).capacity < file.offset + bytes.length
  · rw [if_pos hroom]
    obtain heq | ⟨n, hn, hpool, heq⟩ := fs.expandFile_cases i hlt hused hroom
    · left
      rw [heq]
    right
    rw [heq]
    refine ⟨fs.expanded i n, .inr ⟨n, hroom.trans_le hn, hpool, rfl⟩, ?_, rfl⟩
    rw [fs.expanded_self]
    exact hn
  · right
    rw [if_neg hroom]
    exact ⟨fs, .inl rfl, Nat.le_of_not_lt hroom, rfl⟩

theorem Stored.write (h : Stored fs free log) (hw : WellFormed fs free) (hi : IsFile fs free i)
    (hfile : file.inode = some i) (hused : fs.fileDataPoolUsed ≤ fileDataPoolSize)
    (hlt : file.offset + bytes.length < 2 ^ 63) :
    fs.write file (some bytes) = (.error .outOfMemory, fs, file) ∨
    ∃ fs', fs.write file (some bytes) =
        (.ok bytes.length, fs', { file with offset := file.offset + bytes.length }) ∧
      Stored fs' free (⟨i, file.offset, bytes⟩ :: log) ∧
      fs'.fileDataPoolUsed ≤ fileDataPoolSize ∧
      ∀ j, j ≠ i → IsFile fs free j → fs'.contents j = fs.contents j := by
  obtain heq | ⟨fs', hregion, hroom, heq⟩ :=
    RamFs.write_cases hfile hi.type (hw.self i hi.inUse) hused hlt
  · exact .inl heq
  right
  refine ⟨_, heq, ?_⟩
  obtain rfl | ⟨n, hn, hpool, rfl⟩ := hregion
  · refine ⟨h.stored hi hroom, ?_, fun j hne hj => h.contents_stored hi hroom hj hne⟩
    rw [(fs'.stored_pool i file.offset bytes _).2]
    exact hused
  have hfiles : ∀ j, IsFile fs free j → IsFile (fs.expanded i n) free j := by
    intro j hj
    refine ⟨hj.inUse, ?_⟩
    by_cases hji : j = i
    · rw [hji, (changesFile_expanded fs i n).type]
      exact hi.type
    · rw [(changesFile_expanded fs i n).other j hji]
      exact hj.type
  have hexpanded := h.expanded hi hn
  refine ⟨hexpanded.stored (hfiles i hi) hroom, ?_, ?_⟩
  · rw [((fs.expanded i n).stored_pool i file.offset bytes _).2]
    exact hpool
  · intro j hne hj
    rw [hexpanded.contents_stored (hfiles i hi) hroom (hfiles j hj) hne, h.contents_expanded hj hne]

/-! ## Sessions -/

def recordWrite (s : Session) (op : Operation) (_ : Session)
    (log : List (Write InodePtr UInt8)) : List (Write InodePtr UInt8) :=
  match op with
  | .mount device =>
    match (s.fs.mount device).1 with
    | .ok _ => []
    | .error _ => log
  | .write k (some bytes) =>
    match s.files[k]? with
    | some ⟨some i, offset⟩ =>
      match (s.fs.write ⟨some i, offset⟩ (some bytes)).1 with
      | .ok _ => ⟨i, offset, bytes⟩ :: log
      | .error _ => log
    | _ => log
  | _ => log

def writeSystem : Transition (Session × List (Write InodePtr UInt8)) Operation :=
  sessionSystem.recorded [] recordWrite

/-- The ends of reads and writes are below `2 ^ 63`. -/
def Operation.Bounded (s : Session) : Operation → Prop
  | .read k _ count => ∀ file ∈ s.files[k]?, file.offset + count < 2 ^ 63
  | .write k buf => ∀ file ∈ s.files[k]?, ∀ bytes ∈ buf, file.offset + bytes.length < 2 ^ 63
  | _ => True

instance (s : Session) (op : Operation) : Decidable (op.Bounded s) := by
  cases op <;> unfold Operation.Bounded <;> infer_instance

/-- The files of the session are stored while it is mounted. -/
structure Session.Kept (s : Session) (free : List InodePtr) (log : List (Write InodePtr UInt8)) :
    Prop where
  used : s.fs.fileDataPoolUsed ≤ fileDataPoolSize
  stored : s.fs.mounted = true → Stored s.fs free log

theorem stored_of_mounted {fs₀ : RamFs} (hm : Mounted fs₀ fs) : Stored fs behindRoot [] := by
  have hnone : ∀ i, ¬ IsFile fs behindRoot i := by
    intro i hi
    have htype := hi.type
    rw [inUse_behindRoot.mp hi.inUse, hm.type] at htype
    cases htype
  constructor
  case logged => simp
  all_goals
    intros
    exact absurd ‹IsFile fs behindRoot _› (hnone _)

theorem Effect.new {call : Call} {answer : Expected (Option InodePtr)}
    (he : Effect fs free call answer fs' free') (i : InodePtr) (hi : InUse free' i) :
    InUse free i ∨ ¬ InUse free i ∧ ((fs'.inodes i).inode.type = .regular →
      (fs'.inodes i).inode.size = 0 ∧ (fs'.inodes i).data = none ∧
        (fs'.inodes i).capacity = 0) := by
  cases he with
  | null | found | notFound | invalidType | isADirectory | notADirectory | notEmpty | createFailed
    | unlinked | rmdir => exact .inl hi
  | @created _ _ _ t j _ _ _ _ _ taken created =>
    subst taken
    by_cases hij : i = j
    · subst hij
      refine .inr ⟨fun huse => (inUse_cons.mp huse).1 rfl, ?_⟩
      intro htype
      rw [created.type, if_pos rfl] at htype
      exact created.file htype
    · exact .inl (inUse_cons.mpr ⟨hij, hi⟩)

namespace Session.Kept

variable {s s' : Session} {op : Operation}

variable (h : s.Kept free log) (hv : s.Valid free)
include h hv

theorem mount {device : Option ℕ} (hs : s.step (.mount device) = some s') :
    ∃ free', s'.Valid free' ∧ s'.Kept free' (recordWrite s (.mount device) s' log) := by
  obtain ⟨e, heq⟩ | ⟨fs', heq, hm, hmounted⟩ := s.fs.mount_cases device hv.unmounted
  · simp only [Session.step, heq, Option.some.injEq] at hs
    subst hs
    simp only [recordWrite, heq]
    exact ⟨free, hv, h⟩
  simp only [Session.step, heq, Option.some.injEq] at hs
  subst hs
  have hc : s.Change free (.mount device) ⟨fs', [0], []⟩ behindRoot := .mounted hm hmounted
  simp only [recordWrite, heq]
  refine ⟨behindRoot, hv.of_change hc, ?_, fun _ => stored_of_mounted hmounted⟩
  rw [hmounted.fileDataPoolUsed]
  exact h.used

theorem write {k : ℕ} {buf : Option (List UInt8)}
    (hbounded : Operation.Bounded s (.write k buf)) (hs : s.step (.write k buf) = some s') :
    s'.Kept free (recordWrite s (.write k buf) s' log) := by
  obtain ⟨file, hfile, rfl⟩ := Option.map_eq_some_iff.mp hs
  cases buf with
  | none => exact ⟨h.used, h.stored⟩
  | some bytes =>
    have hmem := mem_of_getElem? hfile
    obtain ⟨i, hi, hinode⟩ := hv.files file hmem
    obtain ⟨hm, huse⟩ := hv.inUse i hi
    have hlt := hbounded file hfile bytes rfl
    obtain ⟨inode, offset⟩ := file
    cases hinode
    simp only [recordWrite, hfile]
    by_cases htype : (s.fs.inodes i).inode.type = .regular
    · obtain heq | ⟨fs', heq, hstored, hused, _⟩ :=
        (h.stored hm).write (hv.wellFormed hm) ⟨huse, htype⟩ rfl h.used hlt
      · rw [heq]
        exact ⟨h.used, h.stored⟩
      · rw [heq]
        exact ⟨hused, fun _ => hstored⟩
    have heq : s.fs.write ⟨some i, offset⟩ (some bytes) =
        (.error .fsIsADirectory, s.fs, ⟨some i, offset⟩) := by
      simp [RamFs.write, htype]
    rw [heq]
    exact ⟨h.used, h.stored⟩

theorem of_change
    (hc : s.Change free op s' free') (hmount : ∀ device, op ≠ .mount device)
    (hwrite : ∀ k buf, op ≠ .write k buf) : s'.Kept free' log := by
  cases hc with
  | mounted => exact absurd rfl (hmount _)
  | unmounted unmounted used _ =>
    refine ⟨?_, ?_⟩
    · rw [used]
      exact Nat.zero_le _
    · intro hm
      rw [unmounted] at hm
      cases hm
  | called mounted _ effect _ _ =>
    refine ⟨?_, fun _ => ?_⟩
    · rw [effect.files.used]
      exact h.used
    · exact (h.stored mounted).of_sameFiles effect.files
        (effect.inUse (hv.wellFormed mounted)).1 effect.new
  | kept => exact ⟨h.used, h.stored⟩
  | written => exact absurd rfl (hwrite _ _)

theorem step (hbounded : op.Bounded s) (hs : s.step op = some s') :
    ∃ free', s'.Valid free' ∧ s'.Kept free' (recordWrite s op s' log) := by
  obtain ⟨free', hc⟩ := hv.change hs
  cases op with
  | mount device => exact h.mount hv hs
  | write k buf => exact ⟨free, hv.of_change (hv.write hs), h.write hv hbounded hs⟩
  | unmount | call call | openFile inode | read k buf count | seek k offset whence =>
    exact ⟨free', hv.of_change hc, h.of_change hv hc (by simp) (by simp)⟩

end Session.Kept

theorem kept_of_reachable {s : Session}
    (h : writeSystem.ReachableBy (fun p op => op.Bounded p.1) (s, log)) :
    ∃ free, s.Valid free ∧ s.Kept free log := by
  apply h.recorded (P := fun s log => ∃ free, s.Valid free ∧ s.Kept free log)
  · rintro s rfl
    exact ⟨[], Session.Valid.init, Nat.zero_le _, (by simp)⟩
  · rintro s log op s' ⟨free, hv, hk⟩ hbounded hs
    exact hk.step hv hbounded hs

/-- The size of a file is the largest end of a write to it. A read returns the bytes up to the end,
and where a write has been, the ones of the latest. A write changes no other file, and one that
fails changes nothing. -/
theorem files_are_byte_arrays {s : Session}
    (h : writeSystem.ReachableBy (fun p op => op.Bounded p.1) (s, log)) {file : File}
    (hfile : file ∈ s.files) (hinode : file.inode = some i)
    (htype : (s.fs.inodes i).inode.type = .regular) :
    (s.fs.inodes i).inode.size = extent log i ∧
    (∀ count, file.offset + count < 2 ^ 63 → ∃ bytes,
      s.fs.read file true count = (.ok bytes, { file with offset := file.offset + bytes.length }) ∧
      bytes.length = min count ((s.fs.inodes i).inode.size - file.offset) ∧
      ∀ k b, k < bytes.length → latest log i (file.offset + k) = some b → bytes[k]? = some b) ∧
    ∀ bytes : List UInt8, file.offset + bytes.length < 2 ^ 63 →
      s.fs.write file (some bytes) = (.error .outOfMemory, s.fs, file) ∨
      ∃ fs', s.fs.write file (some bytes) =
          (.ok bytes.length, fs', { file with offset := file.offset + bytes.length }) ∧
        ∀ j ∈ s.inodes, j ≠ i → (s.fs.inodes j).inode.type = .regular →
          fs'.contents j = s.fs.contents j ∧
          (fs'.inodes j).inode.size = (s.fs.inodes j).inode.size := by
  obtain ⟨free, hv, hk⟩ := kept_of_reachable h
  obtain ⟨j, hj, heq⟩ := hv.files file hfile
  rw [hinode] at heq
  cases heq
  obtain ⟨hm, huse⟩ := hv.inUse i hj
  have hi : IsFile s.fs free i := ⟨huse, htype⟩
  refine ⟨(hk.stored hm).size i hi, ?_, ?_⟩
  · intro count hlt
    exact (hk.stored hm).read (hv.wellFormed hm) hi hinode hlt
  · intro bytes hlt
    obtain heq | ⟨fs', heq, _, _, hother⟩ :=
      (hk.stored hm).write (hv.wellFormed hm) hi hinode hk.used hlt
    · exact .inl heq
    refine .inr ⟨fs', heq, ?_⟩
    intro j hj hne htype'
    have hcontents := hother j hne ⟨(hv.inUse j hj).2, htype'⟩
    refine ⟨hcontents, ?_⟩
    have hlength := congrArg length hcontents
    rw [RamFs.contents, RamFs.contents, RamFs.bytesAt_length, RamFs.bytesAt_length] at hlength
    exact hlength

theorem files_are_byte_arrays_two : ∃ s log file,
    writeSystem.ReachableBy (fun p op => op.Bounded p.1) (s, log) ∧ file ∈ s.files ∧
      file = ⟨some 1, 0⟩ ∧ log = [⟨1, 0, [9]⟩, ⟨2, 0, [3]⟩, ⟨1, 1, [7, 8]⟩] ∧
      (s.fs.inodes 1).inode.size = 3 ∧
      ∃ bytes, (s.fs.read file true 5).1 = .ok bytes ∧ bytes.length = 3 ∧
        bytes[0]? = some 9 ∧ bytes[1]? = some 7 := by
  have hinit : writeSystem.init ({}, []) := ⟨rfl, rfl⟩
  obtain ⟨⟨s, log⟩, hr, hfile, hlog, htype⟩ := writeSystem.exists_of_run
    (fun p op => op.Bounded p.1)
    [.mount none, .call (.create (some 0) (some [97]) .regular),
      .call (.create (some 0) (some [98]) .regular), .openFile 1, .openFile 2, .openFile 1,
      .seek 0 1 .kSet, .write 0 (some [7, 8]), .write 1 (some [3]), .write 2 (some [9]),
      .seek 2 0 .kSet]
    (fun p => (⟨some 1, 0⟩ : File) ∈ p.1.files ∧
      p.2 = [⟨1, 0, [9]⟩, ⟨2, 0, [3]⟩, ⟨1, 1, [7, 8]⟩] ∧
      (p.1.fs.inodes 1).inode.type = .regular) hinit (by decide +kernel)
  obtain ⟨hsize, hread, _⟩ := files_are_byte_arrays hr hfile rfl htype
  subst hlog
  have hthree : (s.fs.inodes 1).inode.size = 3 := hsize
  obtain ⟨bytes, heq, hlength, hbytes⟩ := hread 5 (by decide)
  rw [hthree] at hlength
  refine ⟨s, _, ⟨some 1, 0⟩, hr, hfile, rfl, rfl, hthree, bytes, by rw [heq], hlength, ?_, ?_⟩
  · exact hbytes 0 9 (by rw [hlength]; decide) rfl
  · exact hbytes 1 7 (by rw [hlength]; decide) rfl

/-! ## Accesses -/

/-- `Read` copies from the region of the file. -/
def RamFs.ReadsInside (fs : RamFs) (file : File) (i : InodePtr) (count : ℕ) : Prop :=
  ∀ bytes, (fs.read file true count).1 = .ok bytes → bytes ≠ [] →
    ∃ a, (fs.inodes i).data = some a ∧ bytes = fs.bytesAt (a + file.offset) bytes.length ∧
      file.offset + bytes.length ≤ (fs.inodes i).capacity

/-- `Write` copies to the region of the file, and changes no other byte of the pool. -/
def RamFs.WritesInside (fs : RamFs) (file : File) (i : InodePtr) (bytes : List UInt8) : Prop :=
  ∀ n fs' file', fs.write file (some bytes) = (.ok n, fs', file') →
    file.offset + bytes.length ≤ (fs'.inodes i).capacity ∧
    ∀ pos, (∀ a ∈ (fs'.inodes i).data, pos < a ∨ a + (fs'.inodes i).capacity ≤ pos) →
      fs'.fileDataPool pos = fs.fileDataPool pos

namespace Stored

variable (h : Stored fs free log) (hw : WellFormed fs free) (hi : IsFile fs free i)
  (hfile : file.inode = some i)
include h hw hi hfile

theorem readsInside (count : ℕ) : fs.ReadsInside file i count := by
  intro bytes heq hne
  unfold RamFs.read at heq
  simp only [hfile, hi.type, hw.self i hi.inUse, Bool.not_true, Bool.false_eq_true, if_false,
    ne_eq, not_true_eq_false, Option.getD_some] at heq
  split at heq
  · cases heq
    exact absurd rfl hne
  rename_i hlt
  cases heq
  have hroom := h.room i hi
  cases hdata : (fs.inodes i).data with
  | none =>
    rw [h.empty i hi hdata] at hroom
    omega
  | some a =>
    rw [fs.bytesAt_length, Option.getD_some]
    refine ⟨a, rfl, rfl, ?_⟩
    split <;> omega

theorem writesInside (hused : fs.fileDataPoolUsed ≤ fileDataPoolSize)
    (hlt : file.offset + bytes.length < 2 ^ 63) : fs.WritesInside file i bytes := by
  intro n fs' file' hwrite
  obtain heq | ⟨fs₁, hregion, hroom, heq⟩ :=
    RamFs.write_cases hfile hi.type (hw.self i hi.inUse) hused hlt
  · cases heq.symm.trans hwrite
  cases heq.symm.trans hwrite
  obtain ⟨hdata, hcapacity, -⟩ := fs₁.stored_self i file.offset bytes (file.offset + bytes.length)
  rw [hdata, hcapacity, (fs₁.stored_pool i file.offset bytes _).1]
  refine ⟨hroom, fun pos hpos => ?_⟩
  obtain ⟨hsame, hempty⟩ : fs₁.fileDataPool pos = fs.fileDataPool pos ∧
      ((fs₁.inodes i).data = none → (fs₁.inodes i).capacity = 0) := by
    obtain rfl | ⟨n, hn, -, rfl⟩ := hregion
    · exact ⟨rfl, h.empty i hi⟩
    rw [fs.expanded_self] at hpos ⊢
    have hout : pos < fs.fileDataPoolUsed ∨ fs.fileDataPoolUsed + n ≤ pos := hpos _ rfl
    have hold := h.room i hi
    exact ⟨fs.expanded_pool_of_outside i n (by omega), fun hnone => by cases hnone⟩
  rw [← hsame]
  apply copyBytes_of_outside
  cases ha : (fs₁.inodes i).data with
  | none =>
    rw [hempty ha] at hroom
    omega
  | some a =>
    have hout := hpos a ha
    rw [Option.getD_some]
    omega

end Stored

def Session.IsFile (s : Session) (i : InodePtr) : Prop :=
  i ∈ s.inodes ∧ (s.fs.inodes i).inode.type = .regular

/-- The files fit into their regions, which lie in the pool and do not overlap. -/
structure Session.Regions (s : Session) : Prop where
  room : ∀ i, s.IsFile i → (s.fs.inodes i).inode.size ≤ (s.fs.inodes i).capacity
  inside : ∀ i a, s.IsFile i → (s.fs.inodes i).data = some a →
    a + (s.fs.inodes i).capacity ≤ fileDataPoolSize
  apart : ∀ i j a b, i ≠ j → s.IsFile i → s.IsFile j → (s.fs.inodes i).data = some a →
    (s.fs.inodes j).data = some b →
    a + (s.fs.inodes i).capacity ≤ b ∨ b + (s.fs.inodes j).capacity ≤ a

/-- As long as reads and writes end below `2 ^ 63`, every access is inside of the region of its
file. -/
theorem accesses_inside {s : Session}
    (h : writeSystem.ReachableBy (fun p op => op.Bounded p.1) (s, log)) :
    s.Regions ∧ ∀ file ∈ s.files, ∀ i, file.inode = some i → s.IsFile i →
      (∀ count, s.fs.ReadsInside file i count) ∧
      ∀ bytes : List UInt8, file.offset + bytes.length < 2 ^ 63 →
        s.fs.WritesInside file i bytes := by
  obtain ⟨free, hv, hk⟩ := kept_of_reachable h
  have hfile : ∀ i, s.IsFile i → s.fs.mounted = true ∧ IsFile s.fs free i :=
    fun i hi => (hv.inUse i hi.1).imp_right (⟨·, hi.2⟩)
  refine ⟨⟨?_, ?_, ?_⟩, ?_⟩
  · intro i hi
    obtain ⟨hm, hi⟩ := hfile i hi
    exact (hk.stored hm).room i hi
  · intro i a hi ha
    obtain ⟨hm, hi⟩ := hfile i hi
    exact ((hk.stored hm).inside i a hi ha).trans hk.used
  · intro i j a b hne hi hj
    obtain ⟨hm, hi⟩ := hfile i hi
    exact (hk.stored hm).apart i j a b hne hi (hfile j hj).2
  · intro file _ i hinode hi
    obtain ⟨hm, hi⟩ := hfile i hi
    have hw := hv.wellFormed hm
    exact ⟨(hk.stored hm).readsInside hw hi hinode,
      fun bytes hlt => (hk.stored hm).writesInside hw hi hinode hk.used hlt⟩

/-- Two bytes are written to a new file. -/
theorem accesses_inside_two : ∃ s log, writeSystem.ReachableBy (fun p op => op.Bounded p.1) (s, log) ∧
    (s.fs.inodes 1).inode.size = 2 ∧ s.Regions ∧ s.fs.WritesInside ⟨some 1, 2⟩ 1 [7] := by
  obtain ⟨⟨s, log⟩, hr, hfile, hsize, hmem, htype⟩ := writeSystem.exists_of_run
    (fun p op => op.Bounded p.1)
    [.mount none, .call (.create (some 0) (some [97]) .regular), .openFile 1,
      .write 0 (some [7, 8])]
    (fun p => (⟨some 1, 2⟩ : File) ∈ p.1.files ∧ (p.1.fs.inodes 1).inode.size = 2 ∧
      1 ∈ p.1.inodes ∧ (p.1.fs.inodes 1).inode.type = .regular)
    (s := ({}, [])) ⟨rfl, rfl⟩ (by decide +kernel)
  obtain ⟨hregions, hinside⟩ := accesses_inside hr
  exact ⟨s, log, hr, hsize, hregions, (hinside _ hfile 1 rfl ⟨hmem, htype⟩).2 [7] (by decide)⟩

/-- Four bytes from the offset `2 ^ 64 - 2` on seem to fit into two. -/
theorem write_leaves_region : ∃ s, sessionSystem.Reachable s ∧ ∃ file ∈ s.files,
    file.inode = some 1 ∧ s.IsFile 1 ∧ ¬ s.fs.WritesInside file 1 [1, 2, 3, 4] := by
  obtain ⟨s, hr, hfile, hmem, htype, hok, hcapacity⟩ :=
    sessionSystem.exists_of_run (fun _ _ => True)
    [.mount none, .call (.create (some 0) (some [97]) .regular), .openFile 1,
      .seek 0 (2 ^ 63 - 1) .kSet, .seek 0 (2 ^ 63 - 1) .kCur]
    (fun s => (⟨some 1, 2 ^ 64 - 2⟩ : File) ∈ s.files ∧ 1 ∈ s.inodes ∧
      (s.fs.inodes 1).inode.type = .regular ∧
      (s.fs.write ⟨some 1, 2 ^ 64 - 2⟩ (some [1, 2, 3, 4])).1 = .ok 4 ∧
      ((s.fs.write ⟨some 1, 2 ^ 64 - 2⟩ (some [1, 2, 3, 4])).2.1.inodes 1).capacity = 256)
    rfl (by decide +kernel)
  refine ⟨s, hr, _, hfile, rfl, ⟨hmem, htype⟩, fun hinside => ?_⟩
  have hle := (hinside 4 _ _ (Prod.ext hok rfl)).1
  rw [hcapacity] at hle
  exact absurd hle (by decide)

end SimpleKernel.Filesystem
