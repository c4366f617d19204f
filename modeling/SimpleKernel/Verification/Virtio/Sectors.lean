import SimpleKernel.Model.Virtio.VirtioBlk

/-! Where the sectors of `ReadSectors` and `WriteSectors` land. -/

namespace SimpleKernel.Virtio

open Function

variable {p q : ℕ → ℕ} {source target : ℕ → Sector} {n i : ℕ} {type : ReqType} {lba : UInt64}
  {count : UInt32}

def copySectors (p q : ℕ → ℕ) (source target : ℕ → Sector) : ℕ → ℕ → Sector
  | 0 => target
  | i + 1 => update (copySectors p q source target i) (q i) (source (p i))

theorem copySectors_cases (a : ℕ) : copySectors p q source target n a = target a ∨
    ∃ j, q j = a ∧ copySectors p q source target n a = source (p j) := by
  induction n with
  | zero => exact .inl rfl
  | succ n ih =>
    rw [copySectors]
    by_cases ha : a = q n
    · exact .inr ⟨n, ha.symm, by rw [ha, update_self]⟩
    · rw [update_of_ne ha]
      exact ih

theorem copySectors_at {a b : ℕ} (hp : ∀ j < n, p j = a + j) (hq : ∀ j < n, q j = b + j)
    (hi : i < n) : copySectors p q source target n (b + i) = source (a + i) := by
  induction n with
  | zero => cases hi
  | succ n ih =>
    rw [copySectors, hp n n.lt_succ_self, hq n n.lt_succ_self]
    rcases Nat.lt_succ_iff_lt_or_eq.mp hi with hi | rfl
    · rw [update_of_ne (by omega)]
      exact ih (fun j hj => hp j (by omega)) (fun j hj => hq j (by omega)) hi
    · exact update_self ..

theorem exists_round {a b : ℕ}
    (h : ∀ source target, copySectors p q source target n b = source a) : ∃ j, p j = a ∧ q j = b := by
  have hcopy := h (fun x _ => if x = a then 1 else 0) fun _ _ => 0
  rcases copySectors_cases b with hsame | ⟨j, hj, hp⟩
  · have hzero := congrFun (hsame.symm.trans hcopy) ⟨0, by decide⟩
    simp at hzero
  have hone := congrFun (hp.symm.trans hcopy) ⟨0, by decide⟩
  by_cases hpa : p j = a
  · exact ⟨j, hpa, hj⟩
  · simp [hpa] at hone

/-- The sectors `lba`, `lba + 1`, … of the disk and those of the buffer are the same after the call,
which returns the number of their bytes. -/
def Lands (type : ReqType) (lba : UInt64) (count : UInt32) : Prop := ∀ answer s,
  (∀ i < count.toNat, answer i = .ok ()) →
    (transferSectors type answer lba count s).1 = .ok (512 * count.toNat) ∧
    ∀ i < count.toNat, match type with
      | .kIn => (transferSectors .kIn answer lba count s).2.buffer i = s.disk (lba.toNat + i)
      | .kOut => (transferSectors .kOut answer lba count s).2.disk (lba.toNat + i) = s.buffer i

def diskAt (lba : UInt64) (i : ℕ) : ℕ := (lba.toNat + i) % 2 ^ 64

def bufferAt (i : ℕ) : ℕ := i * sectorSize % 2 ^ 32 / sectorSize

theorem sectorLoop_eq {answer : ℕ → Expected Unit} (s : Storage) (hok : ∀ i < n, answer i = .ok ()) :
    sectorLoop type answer lba s n = (.ok (), match type with
      | .kIn => { s with buffer := copySectors (diskAt lba) bufferAt s.disk s.buffer n }
      | .kOut => { s with disk := copySectors bufferAt (diskAt lba) s.buffer s.disk n }) := by
  induction n with
  | zero => cases type <;> rfl
  | succ n ih =>
    simp only [sectorLoop, ih fun i hi => hok i (Nat.lt_succ_of_lt hi), hok n n.lt_succ_self]
    cases type <;> rfl

theorem Lands.lt (h : Lands type lba count) (hi : i < count.toNat) :
    i < 2 ^ 23 ∧ lba.toNat + i < 2 ^ 64 := by
  have hround : ∃ j, diskAt lba j = lba.toNat + i ∧ bufferAt j = i := by
    have hland := fun s => (h (fun _ => .ok ()) s fun _ _ => rfl).2 i hi
    simp only [transferSectors, sectorLoop_eq _ fun _ _ => rfl] at hland
    cases type with
    | kIn => exact exists_round fun source target => hland ⟨source, target⟩
    | kOut =>
      obtain ⟨j, hb, hd⟩ := exists_round fun source target => hland ⟨target, source⟩
      exact ⟨j, hd, hb⟩
  obtain ⟨j, hd, hb⟩ := hround
  simp only [diskAt, bufferAt, sectorSize] at hd hb
  omega

/-- The sectors land in the right place just if they have at most 4 GiB and their numbers do not
overflow. -/
theorem lands_iff (type : ReqType) (lba : UInt64) (count : UInt32) :
    Lands type lba count ↔ count.toNat ≤ 2 ^ 23 ∧ lba.toNat + count.toNat ≤ 2 ^ 64 := by
  constructor
  · intro h
    have hlba := lba.toNat_lt
    by_cases h0 : count.toNat = 0
    · omega
    · have hlast := h.lt (i := count.toNat - 1) (by omega)
      omega
  · rintro ⟨hcount, hlba⟩ answer s hok
    simp only [transferSectors, sectorLoop_eq s hok]
    refine ⟨congrArg Except.ok (Nat.mul_comm ..), fun i hi => ?_⟩
    have hdisk : ∀ i < count.toNat, diskAt lba i = lba.toNat + i := fun i hi =>
      Nat.mod_eq_of_lt (by omega)
    have hbuffer : ∀ i < count.toNat, bufferAt i = 0 + i := by
      intro i hi
      rw [bufferAt, sectorSize]
      omega
    cases type with
    | kIn => simpa using copySectors_at hdisk hbuffer hi
    | kOut => simpa using copySectors_at hbuffer hdisk hi

/-- The last of `2 ^ 23 + 1` sectors is written over the first one. -/
theorem read_wraps : ¬ Lands .kIn 0 8388609 :=
  fun h => absurd (h.lt (i := 2 ^ 23) (by decide)).1 (Nat.lt_irrefl _)

end SimpleKernel.Virtio
