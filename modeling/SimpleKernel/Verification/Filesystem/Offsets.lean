import SimpleKernel.Model.Filesystem.Session

/-! # The offset of a file

`Seek` adds in 64 bits. It refuses a position before the start of the file, but not one past
`2 ^ 64`. -/

namespace SimpleKernel.Filesystem

variable {fs : RamFs} {file : File} {offset : ℤ} {whence : SeekWhence} {b : ℕ}

/-! ## `Seek` -/

/-- The position that `whence` counts from. -/
def RamFs.seekBase (fs : RamFs) (file : File) : SeekWhence → Option ℕ
  | .kSet => some 0
  | .kCur => some file.offset
  | .kEnd => file.inode.map fun i => (fs.inodes i).inode.size
  | .other => none

/-- The file has moved to `base + offset`, or that is no position of 64 bits and the call has
failed. -/
def ExactSeek (base : Option ℕ) (offset : ℤ) (file : File) (r : Expected ℕ × Option File) : Prop :=
  (∃ b n : ℕ, base = some b ∧ n = b + offset ∧ n < 2 ^ 64 ∧
    r = (.ok n, some { file with offset := n })) ∨
  (∀ b ∈ base, b + offset < 0 ∨ 2 ^ 64 ≤ b + offset) ∧ ∃ e, r = (.error e, some file)

namespace RamFs

theorem seek_of_base (hmin : -2 ^ 63 ≤ offset) (hb : fs.seekBase file whence = some b) :
    fs.seek file offset whence = if b + offset < 0 then (.error .invalidArgument, file)
      else (.ok (toUInt64 (b + offset)), { file with offset := toUInt64 (b + offset) }) := by
  have hback : ∀ n : ℕ, (offset < 0 ∧ n < toUInt64 (-offset)) ↔ n + offset < 0 := by
    unfold toUInt64
    omega
  cases whence with
  | kSet =>
    cases hb
    simp [seek]
  | kCur =>
    cases hb
    simp [seek, hback]
  | kEnd =>
    obtain ⟨i, hi, rfl⟩ := Option.map_eq_some_iff.mp hb
    simp [seek, hi, hback]
  | other => cases hb

theorem seek_of_base_none (hb : fs.seekBase file whence = none) (offset : ℤ) :
    ∃ e, fs.seek file offset whence = (.error e, file) := by
  cases whence with
  | kSet | kCur => cases hb
  | kEnd =>
    have hi : file.inode = none := Option.map_eq_none_iff.mp hb
    refine ⟨.fsCorrupted, ?_⟩
    simp [seek, hi]
  | other => exact ⟨_, rfl⟩

/-- `vfs::Seek`, with the operations of the ramfs or without any, is exact or fails unless the sum
leaves the 64 bits. -/
theorem seek_exact_iff (fs : RamFs) (ops : Bool) (file : File) (offset : Int64)
    (whence : SeekWhence) :
    ExactSeek (fs.seekBase file whence) offset.toInt file
        (fs.vfsSeek ops (some file) offset.toInt whence) ↔
      ∀ b ∈ fs.seekBase file whence, b + offset.toInt < 2 ^ 64 := by
  have hops : fs.vfsSeek ops (some file) offset.toInt whence =
      (fs.seek file offset.toInt whence).map id some := by
    cases ops <;> rfl
  rw [hops]
  cases hb : fs.seekBase file whence with
  | none =>
    obtain ⟨e, he⟩ := seek_of_base_none hb offset.toInt
    rw [he]
    exact iff_of_true (.inr ⟨nofun, e, rfl⟩) nofun
  | some b =>
    simp only [seek_of_base offset.le_toInt hb, Option.mem_some_iff, forall_eq']
    split
    · refine iff_of_true (.inr ⟨?_, _, rfl⟩) (by omega)
      rintro _ ⟨⟩
      exact .inl ‹_›
    by_cases hlt : b + offset.toInt < 2 ^ 64
    · refine iff_of_true (.inl ⟨b, _, rfl, ?_, ?_, rfl⟩) hlt
      all_goals
        unfold toUInt64
        omega
    refine iff_of_false ?_ hlt
    rintro (⟨_, n, ⟨⟩, hn, hlt', -⟩ | ⟨-, e, he⟩)
    · omega
    · cases he

end RamFs

/-- Two seeks by `2 ^ 63 - 1` lead to the offset `2 ^ 64 - 2`; two bytes further is the start. -/
theorem seek_wraps : ∃ (s : Session) (file : File), sessionSystem.Reachable s ∧ file ∈ s.files ∧
    file.offset = 2 ^ 64 - 2 ∧ ∀ ops, (s.fs.vfsSeek ops (some file) 2 .kCur).1 = .ok 0 ∧
      ¬ ExactSeek (s.fs.seekBase file .kCur) 2 file (s.fs.vfsSeek ops (some file) 2 .kCur) := by
  obtain ⟨s, hr, hfile⟩ := sessionSystem.exists_of_run (fun _ _ => True)
    [.mount none, .call (.create (some 0) (some [97]) .regular), .openFile 1,
      .seek 0 (2 ^ 63 - 1) .kSet, .seek 0 (2 ^ 63 - 1) .kCur]
    (fun s => (⟨some 1, 2 ^ 64 - 2⟩ : File) ∈ s.files) rfl (by decide +kernel)
  refine ⟨s, _, hr, hfile, rfl, fun ops => ?_⟩
  have hseek : s.fs.vfsSeek ops (some ⟨some 1, 2 ^ 64 - 2⟩) 2 .kCur = (.ok 0, some ⟨some 1, 0⟩) := by
    cases ops <;> rfl
  rw [hseek]
  refine ⟨rfl, ?_⟩
  rintro (⟨_, n, ⟨⟩, hn, -, hr⟩ | ⟨-, e, he⟩)
  · cases hr
    omega
  · cases he

end SimpleKernel.Filesystem
