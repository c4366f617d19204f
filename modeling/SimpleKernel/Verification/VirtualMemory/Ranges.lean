import SimpleKernel.Verification.VirtualMemory.Refinement

/-! # Loops over pages

`MapMMIO` maps the pages that overlap a range of addresses, and no others. -/

namespace SimpleKernel.VirtualMemory

open Function

variable {A : CpuIo} {al : Allocator A} {P : Paging A} {m m' : Memory} {root : Addr} {σ τ : PageMap A}

/-! ## The loop -/

section Loop

variable {S ε : Type} {last : ℕ}

theorem pageLoop_rule (body : Addr → S → Except ε Unit × S) (Inv : ℕ → S → Prop) (Err : S → Prop)
    (hend : last * P.pageSize < 2 ^ 64)
    (hbody : ∀ k < last, ∀ s r s', Inv k s → body (k * P.pageSize) s = (r, s') →
      (r = .ok () ∧ Inv (k + 1) s') ∨ ∃ e, r = .error e ∧ Err s')
    {k fuel : ℕ} {s : S} (hk : k ≤ last) (hfuel : last - k < fuel) (hs : Inv k s) :
    ∃ r s', pageLoop P body (last * P.pageSize) fuel (k * P.pageSize) s = some (r, s') ∧
      ((r = .ok () ∧ Inv last s') ∨ ∃ e, r = .error e ∧ Err s') := by
  induction fuel generalizing k s with
  | zero => omega
  | succ fuel ih =>
    rw [pageLoop]
    rcases Nat.lt_or_eq_of_le hk with hlt | rfl
    · rw [if_pos (Nat.mul_lt_mul_of_pos_right hlt P.pageSize_pos)]
      generalize hr : body (k * P.pageSize) s = result
      obtain ⟨r, s₁⟩ := result
      rcases hbody k hlt s r s₁ hs hr with ⟨rfl, hs₁⟩ | ⟨e, rfl, he⟩
      · -- the next address does not wrap around
        have hnext : (k * P.pageSize + P.pageSize) % 2 ^ 64 = (k + 1) * P.pageSize := by
          rw [← Nat.succ_mul]
          exact Nat.mod_eq_of_lt ((Nat.mul_le_mul_right _ hlt).trans_lt hend)
        rw [hnext]
        exact ih hlt (by omega) hs₁
      · exact ⟨_, s₁, rfl, .inr ⟨e, rfl, he⟩⟩
    · rw [if_neg (lt_irrefl _)]
      exact ⟨_, s, rfl, .inl ⟨rfl, hs⟩⟩

end Loop

namespace Paging

variable {a b k x : ℕ}

theorem mul_div (P : Paging A) (k : ℕ) : k * P.pageSize / P.pageSize = k :=
  Nat.mul_div_cancel k P.pageSize_pos

theorem lt_of_mul_lt (h : k * P.pageSize < x) : k < x :=
  (Nat.le_mul_of_pos_right k P.pageSize_pos).trans_lt h

theorem lt_end_iff : k < (x + P.pageSize - 1) / P.pageSize ↔ k * P.pageSize < x := by
  have hpos := P.pageSize_pos
  rw [← Nat.succ_le_iff, Nat.le_div_iff_mul_le hpos, Nat.succ_mul]
  omega

theorem end_lt (hx : x ≤ P.reach) : (x + P.pageSize - 1) / P.pageSize * P.pageSize < 2 ^ 64 := by
  have hle := Nat.div_mul_le_self (x + P.pageSize - 1) P.pageSize
  have hreach := P.reach_lt
  omega

theorem page_eq_iff (ha : a < P.reach) (hb : b < P.reach) :
    A.page a = A.page b ↔ a / P.pageSize = b / P.pageSize := by
  rw [← P.vpn_eq_iff a ha b hb]
  exact ⟨fun h level hl => congrFun h ⟨level, hl⟩, fun h => funext fun level => h level level.isLt⟩

end Paging

/-! ## `MapMMIO` -/

variable {phys size flags first k : ℕ}

/-- The pages from `first` to below `k` are mapped to themselves, and the others are as in `σ`. The
allocator has returned no null pointer meanwhile. -/
structure MapsRange (P : Paging A) (σ : PageMap A) (root flags nulls first k : ℕ) (m : Memory) :
    Prop where
  nulls : m.heap.nulls = nulls
  le : first ≤ k
  holds : ∃ τ, Represents A m root τ ∧
    (∀ a < P.reach, first ≤ a / P.pageSize → a / P.pageSize < k →
      τ (A.page a) = some (a / P.pageSize * P.pageSize, flags)) ∧
    ∀ n, (∀ a < P.reach, first ≤ a / P.pageSize → a / P.pageSize < k → n ≠ A.page a) → τ n = σ n

theorem MapsRange.next (al : Allocator A) {nulls : ℕ} (h : MapsRange P σ root flags nulls first k m)
    (hflags : A.IsFlags flags) (hk : k * P.pageSize < P.reach) {r : Expected Unit}
    (hr : mapPage A al root (k * P.pageSize) (k * P.pageSize) flags m = (r, m')) :
    (r = .ok () ∧ MapsRange P σ root flags nulls first (k + 1) m') ∨
      ∃ e, r = .error e ∧ m'.heap.nulls ≠ nulls := by
  obtain ⟨τ, hτ, hin, hout⟩ := h.holds
  have hframe := P.isFrame _ hk
  rw [P.mul_div] at hframe
  obtain ⟨rfl, hm', hnulls⟩ | ⟨rfl, -, hnulls⟩ := mapPage_cases hτ hframe hflags hr
  · refine .inl ⟨rfl, hnulls.trans h.nulls, h.le.trans k.le_succ, _, hm', fun a ha hf hl => ?_,
      fun n hn => ?_⟩
    · by_cases hak : a / P.pageSize = k
      · rw [(P.page_eq_iff ha hk).mpr (hak.trans (P.mul_div k).symm), update_self, hak]
      · rw [update_of_ne, hin a ha hf (by omega)]
        rwa [Ne, P.page_eq_iff ha hk, P.mul_div]
    · rw [update_of_ne]
      · exact hout n fun a ha hf hl => hn a ha hf (by omega)
      · exact hn _ hk (by rw [P.mul_div]; exact h.le) (by rw [P.mul_div]; omega)
  · refine .inr ⟨_, rfl, ?_⟩
    rw [hnulls, h.nulls]
    omega

theorem mapMMIO_spec (al : Allocator A) (h : Represents A m root σ) (hflags : A.IsFlags flags)
    (hrange : phys + size ≤ P.reach) (hsize : 0 < size) :
    ∃ r m', mapMMIO A al P root phys size flags (2 ^ 64) m = some (r, m') ∧
      ((r = .ok phys ∧ MapsRange P σ root flags m.heap.nulls (phys / P.pageSize)
          ((phys + size + P.pageSize - 1) / P.pageSize) m') ∨
        ∃ e, r = .error e ∧ m'.heap.nulls ≠ m.heap.nulls) := by
  have hreach := P.reach_lt
  have hfirst : phys / P.pageSize * P.pageSize ≤ phys := Nat.div_mul_le_self _ _
  have hle : phys / P.pageSize ≤ (phys + size + P.pageSize - 1) / P.pageSize :=
    (P.lt_end_iff.mpr (by omega)).le
  have hstart : MapsRange P σ root flags m.heap.nulls (phys / P.pageSize) (phys / P.pageSize) m :=
    ⟨rfl, le_rfl, σ, h, fun a _ hf hl => absurd hl hf.not_gt, fun _ _ => rfl⟩
  obtain ⟨r, m', hloop, hres⟩ := pageLoop_rule (fun addr => mapPage A al root addr addr flags) _
    (·.heap.nulls ≠ m.heap.nulls) (P.end_lt hrange)
    (fun k hk _ _ _ hn => hn.next al hflags ((P.lt_end_iff.mp hk).trans_le hrange))
    hle ((Nat.sub_le _ _).trans_lt (P.lt_of_mul_lt (P.end_lt hrange))) hstart
  refine ⟨r.map fun _ => phys, m', ?_, ?_⟩
  · unfold mapMMIO
    simp only
    rw [Nat.mod_eq_of_lt (by omega), P.pageAlign_eq phys (by omega), P.pageAlignUp_eq _ hrange,
      hloop]
    rfl
  · rcases hres with ⟨rfl, hm'⟩ | ⟨e, rfl, hm'⟩
    · exact .inl ⟨rfl, hm'⟩
    · exact .inr ⟨e, rfl, hm'⟩

theorem sv39_vpn_eq_iff (a b : ℕ) (ha : a < 2 ^ 39) (hb : b < 2 ^ 39) :
    (∀ level < sv39.pageTableLevels, sv39.getVirtualPageNumber a level =
      sv39.getVirtualPageNumber b level) ↔ a / 4096 = b / 4096 := by
  constructor
  · intro h
    have h₀ : a / 4096 % 512 = b / 4096 % 512 := h 0 (by decide)
    have h₁ : a / 2097152 % 512 = b / 2097152 % 512 := h 1 (by decide)
    have h₂ : a / 1073741824 % 512 = b / 1073741824 % 512 := h 2 (by decide)
    omega
  · intro h level _
    change a / 2 ^ (12 + 9 * level) % 512 = b / 2 ^ (12 + 9 * level) % 512
    rw [Nat.pow_add, ← Nat.div_div_eq_div_mul, ← Nat.div_div_eq_div_mul, h]

def sv39Paging : Paging sv39 where
  pageSize := 4096
  reach := 2 ^ 39
  pageAlign a := a / 4096 * 4096
  pageAlignUp a := (a + 4095) % 2 ^ 64 / 4096 * 4096
  getUserPagePermissions r w x := 17 + 2 * r.toNat + 4 * w.toNat + 8 * x.toNat
  pageSize_pos := by decide
  reach_lt := by decide
  pageAlign_eq _ _ := rfl
  pageAlignUp_eq a ha := by
    rw [Nat.mod_eq_of_lt (by omega)]
    rfl
  permissions_flags r w x := by cases r <;> cases w <;> cases x <;> exact ⟨by decide, by decide⟩
  isFrame a ha := ⟨Nat.mul_mod_left _ _, (Nat.div_mul_le_self a _).trans_lt (ha.trans (by decide))⟩
  vpn_eq_iff a ha b hb := sv39_vpn_eq_iff a b ha hb

end SimpleKernel.VirtualMemory
