import SimpleKernel.Shared.Bits
import SimpleKernel.Model.Plic

/-! The PLIC as a table of priorities and of enable bits. -/

namespace SimpleKernel.Plic

open Function

theorem foldl_of_mem {σ α : Type*} {f : σ → α → σ} {P : σ → Prop} (hkeep : ∀ s b, P s → P (f s b))
    {a : α} {l : List α} (ha : a ∈ l) (hset : ∀ s, P (f s a)) (s : σ) : P (l.foldl f s) := by
  obtain ⟨before, after, rfl⟩ := List.append_of_mem ha
  rw [List.foldl_append, List.foldl_cons]
  exact List.foldlRecOn after f (hset _) fun s hs b _ => hkeep s b hs

variable (p : Plic) (mem : Memory) {a b c s t hart : ℕ} {priority : BitVec 32} {enable : Bool}

/-! The constructor only clears bits, so that it does not matter which words it goes over. -/

theorem clear_setEnableBit (h : (mem a).getLsbD b = false) (c s : ℕ) :
    (setEnableBit mem c s false a).getLsbD b = false := by
  unfold setEnableBit
  by_cases ha : a = enableWord c s
  · rw [ha] at h ⊢
    simp [h]
  · rwa [update_of_ne ha]

theorem clear_update (h : (mem a).getLsbD b = false) (word : ℕ) :
    (update mem word 0#32 a).getLsbD b = false := by
  by_cases ha : a = word
  · simp [ha]
  · rwa [update_of_ne ha]

theorem clear_reset (h : (mem a).getLsbD b = false) (c : ℕ) :
    (p.reset mem c a).getLsbD b = false :=
  List.foldlRecOn (motive := fun mem : Memory => (mem a).getLsbD b = false) _ _
    (clear_update mem h _) fun mem h s _ => clear_setEnableBit mem h c s

theorem getEnableBit_reset (hs : s ≤ p.ndev) (c : ℕ) : getEnableBit (p.reset mem c) c s = false := by
  refine foldl_of_mem (P := fun mem => getEnableBit mem c s = false)
    (fun mem _ h => clear_setEnableBit mem h c _) (List.mem_range.mpr (Nat.lt_succ_of_le hs))
    (fun mem => ?_) _
  rw [getEnableBit, setEnableBit, update_self, if_neg Bool.false_ne_true,
    Bits.getLsbD_clear (Nat.mod_lt s (by decide))]
  simp

theorem getEnableBit_create (hc : c < p.contextCount) (hs : s ≤ p.ndev) :
    getEnableBit (p.create mem) (c % 2 ^ 32) s = false := by
  refine foldl_of_mem (P := fun mem => getEnableBit mem (c % 2 ^ 32) s = false) ?_
    (List.mem_range.mpr hc) (fun mem => p.getEnableBit_reset mem hs _) _
  intro mem _ h
  exact p.clear_reset mem h _

theorem sourcePriority_create (hs : s ≤ p.ndev) : p.create mem (sourcePriority s) = 0#32 := by
  apply BitVec.eq_of_getLsbD_eq
  intro b _
  rw [BitVec.getLsbD_zero]
  refine List.foldlRecOn (motive := fun mem : Memory => (mem (sourcePriority s)).getLsbD b = false)
    _ _ ?_ fun mem h c _ => p.clear_reset mem h _
  refine foldl_of_mem (P := fun mem => (mem (sourcePriority s)).getLsbD b = false)
    (fun mem _ h => clear_update mem h _) (List.mem_range.mpr (Nat.lt_succ_of_le hs))
    (fun mem => ?_) _
  rw [update_self, BitVec.getLsbD_zero]

/-! The words of the contexts for the S-mode, which are odd, are apart from all other words. -/

theorem set_apply_of_ne (hpriority : a ≠ sourcePriority s)
    (henable : a ≠ enableWord (getContextId hart) s) : set mem hart s priority enable a = mem a := by
  rw [set, setEnableBit, update_of_ne henable, update_of_ne hpriority]

theorem sourcePriority_set (ht : t < 1024) :
    set mem hart s priority enable (sourcePriority t) =
      if t = s then priority else mem (sourcePriority t) := by
  have hword : sourcePriority t ≠ enableWord (getContextId hart) s := by
    simp only [sourcePriority, enableWord]
    omega
  rw [set, setEnableBit, update_of_ne hword]
  by_cases hts : t = s
  · rw [hts, update_self, if_pos rfl]
  · rw [update_of_ne (by simpa [sourcePriority] using hts), if_neg hts]

theorem getEnableBit_set (hs : s < 1024) (ht : t < 1024) :
    getEnableBit (set mem hart s priority enable) c t =
      if c = getContextId hart ∧ t = s then enable else getEnableBit mem c t := by
  have hpriority : enableWord c t ≠ sourcePriority s := by
    simp only [sourcePriority, enableWord]
    omega
  unfold getEnableBit
  by_cases hword : enableWord c t = enableWord (getContextId hart) s
  · have hc : c = getContextId hart ∧ t / 32 = s / 32 := by
      simp only [enableWord] at hword
      omega
    have heq : t % 32 = s % 32 ↔ t = s := by omega
    have hbit := Nat.mod_lt s (show 0 < 32 by decide)
    rw [set, setEnableBit, ← hword, update_self, update_of_ne hpriority]
    cases enable
    · rw [if_neg Bool.false_ne_true, Bits.getLsbD_clear hbit]
      by_cases hts : t = s <;> simp [heq, hts, hc]
    · rw [if_pos rfl, Bits.getLsbD_set hbit]
      by_cases hts : t = s <;> simp [heq, hts, hc]
  · rw [set_apply_of_ne mem hpriority hword, if_neg]
    rintro ⟨rfl, rfl⟩
    exact hword rfl

/-- The harts whose contexts are there. -/
abbrev Hart := { hart : ℕ // hart * 2 + 1 < p.contextCount ∧ hart * 2 + 1 < 2 ^ 32 }

abbrev Source := { source : ℕ // 1 ≤ source ∧ source ≤ p.ndev }

/-- A call of `Set`. -/
structure Call where
  hart : p.Hart
  source : p.Source
  priority : BitVec 32
  enable : Bool

/-- The registers after the construction and after calls, the latest first. -/
def run : List p.Call → Memory
  | [] => p.create mem
  | call :: earlier => set (run earlier) call.hart call.source call.priority call.enable

section

variable {p} (hart : p.Hart) (source : p.Source)

/-- What the latest calls for the source, and of the hart for it, have set. -/
def table (calls : List p.Call) : BitVec 32 × Bool :=
  ((calls.find? (·.source = source)).elim 0 (·.priority),
    (calls.find? fun call => call.hart = hart ∧ call.source = source).elim false (·.enable))

theorem source_lt : source.val < 1024 :=
  source.2.2.trans_lt p.ndev_lt

theorem getContextId_eq : getContextId hart = hart * 2 + 1 :=
  Nat.mod_eq_of_lt hart.2.2

theorem get_run (calls : List p.Call) :
    ((get (p.run mem calls) hart source).1, (get (p.run mem calls) hart source).2.1) =
      table hart source calls := by
  induction calls with
  | nil =>
    exact Prod.ext (p.sourcePriority_create mem source.2.2)
      (p.getEnableBit_create mem hart.2.1 source.2.2)
  | cons call earlier ih =>
    obtain ⟨hpriority, henable⟩ := Prod.mk.inj ih
    have hhart : getContextId hart = getContextId call.hart ↔ call.hart = hart := by
      rw [getContextId_eq, getContextId_eq, Subtype.ext_iff]
      omega
    have hsource : source.val = call.source.val ↔ call.source = source := by
      rw [Subtype.ext_iff, eq_comm]
    rw [table, List.find?_cons, List.find?_cons]
    refine Prod.ext ((sourcePriority_set _ (source_lt source)).trans ?_)
      ((getEnableBit_set _ (source_lt call.source) (source_lt source)).trans ?_)
    · rw [if_congr hsource rfl rfl]
      by_cases h : call.source = source
      · simp [h]
      · rw [if_neg h, decide_eq_false h]
        exact hpriority
    · rw [if_congr (and_congr hhart hsource) rfl rfl]
      by_cases h : call.hart = hart ∧ call.source = source
      · simp [h]
      · rw [if_neg h, decide_eq_false h]
        exact henable

end

/-- The registers are a table of priorities and of enable bits. -/
theorem refines_table :
    (∀ c < p.contextCount, ∀ s ≤ p.ndev,
      getEnableBit (p.create mem) (c % 2 ^ 32) s = false ∧
        p.create mem (sourcePriority s) = 0) ∧
    (∀ (calls : List p.Call) (hart : p.Hart) (source : p.Source),
      ((get (p.run mem calls) hart source).1, (get (p.run mem calls) hart source).2.1) =
        table hart source calls) ∧
    ∀ (mem : Memory) (hart : p.Hart) (source : p.Source) (priority : BitVec 32) (enable : Bool),
      let after := set mem hart source priority enable
      (∀ t < 1024, t ≠ source.val → after (sourcePriority t) = mem (sourcePriority t)) ∧
      (∀ c, ∀ t < 1024, ¬(c = getContextId hart ∧ t = source.val) →
        getEnableBit after c t = getEnableBit mem c t) ∧
      (∀ c, after (priorityThreshold c) = mem (priorityThreshold c)) ∧
      ∀ t < 1024, getPendingBit after t = getPendingBit mem t := by
  refine ⟨fun c hc s hs => ⟨p.getEnableBit_create mem hc hs, p.sourcePriority_create mem hs⟩,
    fun calls hart source => get_run mem hart source calls, fun mem hart source _ _ => ?_⟩
  have hs := source_lt source
  refine ⟨fun t ht hne => (sourcePriority_set mem ht).trans (if_neg hne),
    fun c t ht hne => (getEnableBit_set mem hs ht).trans (if_neg hne), ?_, ?_⟩
  · intro c
    apply set_apply_of_ne <;>
      simp only [priorityThreshold, sourcePriority, enableWord, getContextId] <;> omega
  · intro t ht
    refine congrArg (BitVec.getLsbD · _) (set_apply_of_ne mem ?_ ?_) <;>
      simp only [pendingWord, sourcePriority, enableWord] <;> omega

end SimpleKernel.Plic
