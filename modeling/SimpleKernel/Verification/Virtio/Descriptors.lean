import SimpleKernel.Verification.Virtio.Chains
import SimpleKernel.Shared.Transition
import Mathlib.Data.List.Range

/-! Every descriptor is free, allocated or in one chain. -/

namespace SimpleKernel.Virtio

open List

/-! ## The descriptors in use -/

/-- The descriptors that `AllocDesc` has returned, and those of the chains in flight. -/
structure Lent where
  allocated : List ℕ := []
  chains : List (List ℕ) := []

/-- The operations of a driver, and the device's writes to the ring of used chains. -/
inductive QueueOp where
  | allocDesc
  | freeDesc (idx : ℕ)
  | submitChain (readable writable : List IoVec)
  | popUsed
  | freeChain (head : ℕ)
  | use (elem : UsedElem)

/-- A driver frees descriptors that it has allocated and chains in flight only. A chain that
`SubmitChain` puts in flight is that of the descriptors that it takes from the free list. -/
def queueStep : SplitVirtqueue × Lent → QueueOp → Option (SplitVirtqueue × Lent)
  | (q, lent), .allocDesc =>
    match q.allocDesc with
    | (.ok idx, q) => some (q, { lent with allocated := idx :: lent.allocated })
    | (.error _, q) => some (q, lent)
  | (q, lent), .freeDesc idx =>
    if idx ∈ lent.allocated then
      some ((q.freeDesc idx).2, { lent with allocated := lent.allocated.erase idx })
    else none
  | (q, lent), .submitChain readable writable =>
    let taken := iterate (fun i => (q.desc i).next) q.freeHead (readable.length + writable.length)
    match q.submitChain readable writable with
    | (.ok _, q) => some (q, { lent with chains := taken :: lent.chains })
    | (.error _, q) => some (q, lent)
  | (q, lent), .popUsed => some (q.popUsed.2, lent)
  | (q, lent), .freeChain head =>
    match lent.chains.find? fun c => c.head? = some head with
    | none => none
    | some c => (q.freeChain q.queueSize head).map fun (_, q) =>
      (q, { lent with chains := lent.chains.erase c })
  | (q, lent), .use elem =>
    some ({ q with
      usedRing := Function.update q.usedRing (q.usedIdx % q.queueSize) elem
      usedIdx := (q.usedIdx + 1) % 2 ^ 16 }, lent)

def queueSystem : Transition (SplitVirtqueue × Lent) QueueOp where
  init p := (∃ queueSize eventIdx, SplitVirtqueue.create true queueSize eventIdx = some p.1) ∧
    p.2 = {}
  step := queueStep

/-- A chain of fewer than 2 ^ 16 buffers. -/
def QueueOp.fits : QueueOp → Bool
  | .submitChain readable writable => readable.length + writable.length < 2 ^ 16
  | _ => true

/-- Every descriptor is free, allocated or in one chain. -/
structure Partitioned (q : SplitVirtqueue) (lent : Lent) : Prop where
  size : q.queueSize ≤ 2 ^ 15
  perm : (q.freeList ++ lent.allocated ++ lent.chains.flatten).Perm (range q.queueSize)
  chain : ∀ c ∈ lent.chains, SplitVirtqueue.Chain q.desc c

namespace Partitioned

open SplitVirtqueue

variable {q q' : SplitVirtqueue} {lent : Lent} {c : List ℕ} {x : ℕ}

variable (h : Partitioned q lent)
include h

theorem nodup : (q.freeList ++ lent.allocated ++ lent.chains.flatten).Nodup :=
  h.perm.nodup_iff.mpr nodup_range

theorem numFree_le : q.numFree ≤ 2 ^ 15 := by
  have hlen := h.perm.length_eq
  rw [length_append, length_append, length_range, length_freeList] at hlen
  have hsize := h.size
  omega

theorem lt_of_mem
    (hx : x ∈ q.freeList ++ lent.allocated ++ lent.chains.flatten) : x < q.queueSize :=
  mem_range.mp (h.perm.mem_iff.mp hx)

theorem nodup_freeList : q.freeList.Nodup :=
  (nodup_append.mp (nodup_append.mp h.nodup).1).1

theorem noDesc_not_mem : noDesc ∉ q.freeList := by
  intro hno
  have hlt := h.lt_of_mem (mem_append_left _ (mem_append_left _ hno))
  have hsize := h.size
  have hdef : noDesc = 65535 := rfl
  omega

theorem of_chain (hc : c ∈ lent.chains) :
    c.Nodup ∧ (∀ x ∈ c, x < q.queueSize) ∧ (∀ x ∈ c, x ∉ q.freeList) ∧
      ∀ x ∈ c, x ∉ lent.allocated := by
  obtain ⟨hleft, hflat, hdisj⟩ := nodup_append.mp h.nodup
  have hmem : ∀ x ∈ c, x ∈ lent.chains.flatten := fun x hx => mem_flatten.mpr ⟨c, hc, hx⟩
  refine ⟨(nodup_flatten.mp hflat).1 c hc, fun x hx => ?_, fun x hx hfree => ?_,
    fun x hx halloc => ?_⟩
  · exact h.lt_of_mem (mem_append_right _ (hmem x hx))
  · exact hdisj x (mem_append_left _ hfree) x (hmem x hx) rfl
  · exact hdisj x (mem_append_right _ halloc) x (hmem x hx) rfl

theorem length_le (hc : c ∈ lent.chains) : q.numFree + c.length ≤ q.queueSize := by
  have hall := h.perm.length_eq
  have hflat := (perm_cons_erase hc).flatten.length_eq
  simp only [length_append, flatten_cons, length_range, length_freeList] at hall hflat
  omega

theorem freeChain (hc : c ∈ lent.chains) {head fuel : ℕ}
    (hhead : c.head? = some head) (hfuel : c.length ≤ fuel) :
    ∃ q', q.freeChain fuel head = some (.ok (), q') ∧ Freed q q' c := by
  obtain ⟨hnodup, hlt, hfree, -⟩ := h.of_chain hc
  have hchain := h.chain c hc
  have hlen : q.numFree + c.length < 2 ^ 16 :=
    ((h.length_le hc).trans h.size).trans_lt (by decide)
  cases c with
  | nil => cases hhead
  | cons x rest =>
    obtain rfl := Option.some.inj hhead
    rw [SplitVirtqueue.freeChain, if_neg (hlt x mem_cons_self).not_ge]
    exact freeChainLoop_freed hchain hnodup hlt hfree hlen hfuel

/-! ### The operations -/

theorem allocDesc {idx : ℕ} (hq : q.allocDesc = (.ok idx, q')) :
    Partitioned q' { lent with allocated := idx :: lent.allocated } := by
  have hnum := h.numFree_le
  unfold SplitVirtqueue.allocDesc at hq
  split_ifs at hq with h0
  · cases hq
  obtain ⟨rfl, rfl⟩ : q.freeHead = idx ∧ q.takeFree = q' := by simpa using hq
  have hfree := freeList_takeFree (Nat.pos_of_ne_zero h0) (by omega)
  have hmiddle : (q.takeFree.freeList ++ q.freeHead :: lent.allocated).Perm
      (q.freeHead :: (q.takeFree.freeList ++ lent.allocated)) := perm_middle
  refine ⟨h.size, ?_, h.chain⟩
  refine List.Perm.trans ?_ h.perm
  rw [hfree]
  exact hmiddle.append_right _

theorem freeDesc {idx : ℕ} (hidx : idx ∈ lent.allocated) :
    Partitioned (q.freeDesc idx).2 { lent with allocated := lent.allocated.erase idx } := by
  have hnum := h.numFree_le
  obtain ⟨hleft, hflat, hdisj⟩ := nodup_append.mp h.nodup
  have hlt := h.lt_of_mem (mem_append_left _ (mem_append_right _ hidx))
  have hfree : idx ∉ q.freeList := fun hfree =>
    (nodup_append.mp hleft).2.2 idx hfree idx hidx rfl
  have hfreed := putFree_freed hfree (by omega)
  rw [SplitVirtqueue.freeDesc, if_neg hlt.not_ge]
  refine ⟨h.size, ?_, fun c hc => ?_⟩
  · refine List.Perm.trans ?_ h.perm
    rw [hfreed.free]
    refine List.Perm.append_right _ ?_
    exact (perm_middle.symm).trans (List.Perm.append_left _ (perm_cons_erase hidx).symm)
  · refine (h.chain c hc).congr fun x hx => hfreed.frame x ?_
    rw [mem_singleton]
    rintro rfl
    exact (h.of_chain hc).2.2.2 x hx hidx

theorem submitChain {readable writable : List IoVec} (hpos : 0 < readable.length + writable.length)
    (hlen : readable.length + writable.length ≤ q.numFree) :
    Partitioned (q.submitChain readable writable).2 { lent with
      chains := q.freeList.take (readable.length + writable.length) :: lent.chains } := by
  have hnum := h.numFree_le
  obtain ⟨-, hsub⟩ := submitChain_submitted hpos hlen (by omega) h.nodup_freeList h.noDesc_not_mem
  generalize q.freeList.take (readable.length + writable.length) = c at hsub
  generalize (q.submitChain readable writable).2 = q' at hsub
  have hsize : q'.queueSize = q.queueSize := by rw [hsub.rest]; rfl
  refine ⟨hsize ▸ h.size, ?_, fun c' hc' => ?_⟩
  · rw [hsize]
    refine List.Perm.trans ?_ h.perm
    rw [hsub.free, flatten_cons]
    refine perm_iff_count.mpr fun x => ?_
    simp only [count_append]
    omega
  · rcases mem_cons.mp hc' with rfl | hc'
    · exact hsub.chain
    refine (h.chain c' hc').congr fun x hx => hsub.frame x fun hxc => ?_
    refine (h.of_chain hc').2.2.1 x hx ?_
    rw [hsub.free]
    exact mem_append_left _ hxc

theorem freed (hc : c ∈ lent.chains) (hfreed : Freed q q' c) :
    Partitioned q' { lent with chains := lent.chains.erase c } := by
  have hsize : q'.queueSize = q.queueSize := by rw [hfreed.rest]
  have hperm := (perm_cons_erase hc).flatten
  refine ⟨hsize ▸ h.size, ?_, fun c' hc' => ?_⟩
  · rw [hsize]
    refine List.Perm.trans ?_ h.perm
    rw [hfreed.free]
    refine perm_iff_count.mpr fun x => ?_
    have hx := perm_iff_count.mp hperm x
    simp only [flatten_cons, count_append, count_reverse] at hx ⊢
    omega
  · refine (h.chain c' (mem_of_mem_erase hc')).congr fun x hx => hfreed.frame x fun hxc => ?_
    have hnodup := (nodup_append.mp h.nodup).2.1
    rw [hperm.nodup_iff, flatten_cons, nodup_append] at hnodup
    exact hnodup.2.2 x hxc x (mem_flatten.mpr ⟨c', hc', hx⟩) rfl

theorem step {op : QueueOp} {p : SplitVirtqueue × Lent}
    (hfits : op.fits) (hs : queueStep (q, lent) op = some p) : Partitioned p.1 p.2 := by
  cases op with
  | allocDesc =>
    simp only [queueStep] at hs
    split at hs
    · rename_i hq
      cases hs
      exact h.allocDesc hq
    rename_i hq
    cases hs
    unfold SplitVirtqueue.allocDesc at hq
    split at hq
    · obtain ⟨-, rfl⟩ := Prod.mk.inj hq
      exact h
    · cases hq
  | freeDesc idx =>
    obtain ⟨hidx, ⟨⟩⟩ := Option.ite_none_right_eq_some.mp hs
    exact h.freeDesc hidx
  | submitChain readable writable =>
    simp only [QueueOp.fits, decide_eq_true_eq] at hfits
    simp only [queueStep] at hs
    by_cases hlen : 0 < readable.length + writable.length ∧
        readable.length + writable.length ≤ q.numFree
    · have hnum := h.numFree_le
      have hpart := h.submitChain hlen.1 hlen.2
      obtain ⟨hok, -⟩ := submitChain_submitted hlen.1 hlen.2 (by omega) h.nodup_freeList
        h.noDesc_not_mem
      rw [freeList, take_iterate, Nat.min_eq_left hlen.2] at hpart
      generalize q.submitChain readable writable = result at hs hok hpart
      obtain ⟨r, q'⟩ := result
      subst hok
      cases hs
      exact hpart
    obtain ⟨e, -, he⟩ := submitChain_error hfits hlen
    rw [he] at hs
    cases hs
    exact h
  | popUsed =>
    cases hs
    simp only [SplitVirtqueue.popUsed]
    split
    · exact h
    · exact ⟨h.size, h.perm, h.chain⟩
  | freeChain head =>
    simp only [queueStep] at hs
    cases hfind : lent.chains.find? fun c => c.head? = some head with
    | none =>
      rw [hfind] at hs
      cases hs
    | some c =>
      have hc := mem_of_find?_eq_some hfind
      have hhead : c.head? = some head := by simpa using find?_some hfind
      obtain ⟨q', hq', hfreed⟩ := h.freeChain hc hhead (Nat.le_of_add_left_le (h.length_le hc))
      simp only [hfind, hq', Option.map_some] at hs
      cases hs
      exact h.freed hc hfreed
  | use elem =>
    cases hs
    exact ⟨h.size, h.perm, h.chain⟩

end Partitioned

/-! ## A new virtqueue -/

theorem isPowerOfTwo_iff {n : ℕ} (h : isPowerOfTwo n) : ∃ k, n = 2 ^ k := by
  simp only [isPowerOfTwo, ne_eq, decide_not, Bool.and_eq_true, Bool.not_eq_eq_eq_not, Bool.not_true,
    decide_eq_false_iff_not, decide_eq_true_eq] at h
  obtain ⟨h0, hand⟩ := h
  refine ⟨n.log2, ?_⟩
  have hle := Nat.log2_self_le h0
  have hlt := Nat.lt_log2_self (n := n)
  by_contra hne
  have hn := Nat.testBit_of_two_pow_le_and_two_pow_add_one_gt hle hlt
  have hn' : (n - 1).testBit n.log2 :=
    Nat.testBit_of_two_pow_le_and_two_pow_add_one_gt (by omega) (by omega)
  have hbit := Nat.testBit_and n (n - 1) n.log2
  rw [hand, hn, hn'] at hbit
  simp at hbit

theorem iterate_eq_range' {g : ℕ → ℕ} {a n : ℕ} (hg : ∀ i, a ≤ i → i + 1 < a + n → g i = i + 1) :
    iterate g a n = range' a n := by
  induction n generalizing a with
  | zero => rfl
  | succ n ih =>
    rw [iterate, range'_succ]
    congr 1
    cases n with
    | zero => rfl
    | succ n =>
      rw [hg a le_rfl (by omega)]
      exact ih fun i hi hlt => hg i (by omega) (by omega)

namespace SplitVirtqueue

theorem linkAll_next (q : SplitVirtqueue) (n i : ℕ) (hi : i < n) :
    ((q.linkAll n).desc i).next = (i + 1) % 2 ^ 16 := by
  induction n with
  | zero => cases hi
  | succ n ih =>
    rw [linkAll, setDesc]
    by_cases hin : i = n
    · subst hin
      simp
    · simp only [Function.update_of_ne hin]
      exact ih (by omega)

theorem linkAll_eq (q : SplitVirtqueue) (n : ℕ) :
    q.linkAll n = { q with desc := (q.linkAll n).desc } := by
  induction n with
  | zero => rfl
  | succ n ih =>
    rw [linkAll, setDesc, ih]

theorem create_partitioned {queueSize : UInt16} {eventIdx : Bool} {q : SplitVirtqueue}
    (h : create true queueSize eventIdx = some q) :
    (∃ k ≤ 15, q.queueSize = 2 ^ k) ∧ Partitioned q {} := by
  have hlt := queueSize.toNat_lt
  unfold create at h
  generalize queueSize.toNat = n at h hlt
  simp only [Bool.not_true, Bool.false_or, Bool.not_eq_true'] at h
  obtain ⟨hpow, h⟩ := Option.ite_none_left_eq_some.mp h
  obtain ⟨k, rfl⟩ := isPowerOfTwo_iff (Bool.eq_true_of_not_eq_false hpow)
  have hk : k ≤ 15 := Nat.le_of_lt_succ ((Nat.pow_lt_pow_iff_right (by decide)).mp hlt)
  rw [linkAll_eq] at h
  cases h
  have hfree : iterate (fun i => (Function.update
      (linkAll { queueSize := 2 ^ k, eventIdxEnabled := eventIdx } (2 ^ k)).desc (2 ^ k - 1)
      { (linkAll { queueSize := 2 ^ k, eventIdxEnabled := eventIdx } (2 ^ k)).desc (2 ^ k - 1) with
        next := noDesc } i).next) 0 (2 ^ k) = range (2 ^ k) := by
    rw [range_eq_range']
    refine iterate_eq_range' fun i _ hi => ?_
    have hne : i ≠ 2 ^ k - 1 := by omega
    rw [Function.update_of_ne hne, linkAll_next _ _ _ (by omega), Nat.mod_eq_of_lt (by omega)]
  refine ⟨⟨k, hk, rfl⟩, Nat.pow_le_pow_right (by decide) hk, ?_, nofun⟩
  simp only [flatten_nil, append_nil]
  exact List.Perm.of_eq hfree

theorem create_idx {queueSize : UInt16} {eventIdx : Bool} {q : SplitVirtqueue}
    (h : create true queueSize eventIdx = some q) :
    q.availIdx = 0 ∧ q.usedIdx = 0 ∧ q.lastUsedIdx = 0 ∧ q.usedEvent = 0 := by
  unfold create at h
  simp only at h
  split at h
  · cases h
  rw [linkAll_eq] at h
  cases h
  exact ⟨rfl, rfl, rfl, rfl⟩

end SplitVirtqueue

/-- In every run in which the chains have fewer than 2 ^ 16 buffers, the free list, the
allocated descriptors and the chains in flight are a partition of the descriptors, and
`FreeChain` of a chain in flight ends with exactly its descriptors on the free list. -/
theorem descriptors_partitioned {q : SplitVirtqueue} {lent : Lent}
    (h : queueSystem.ReachableBy (fun _ op => op.fits) (q, lent)) :
    (q.freeList ++ lent.allocated ++ lent.chains.flatten).Perm (range q.queueSize) ∧
    ∀ c ∈ lent.chains, SplitVirtqueue.Chain q.desc c ∧
      ∀ head, c.head? = some head → ∀ fuel ≥ c.length, ∃ q',
        q.freeChain fuel head = some (.ok (), q') ∧ q'.freeList = c.reverse ++ q.freeList := by
  have hpart : Partitioned q lent := h.invariant (P := fun p => Partitioned p.1 p.2)
    (fun p hinit => by
      obtain ⟨⟨_, _, hq⟩, hlent⟩ := hinit
      rw [hlent]
      exact (SplitVirtqueue.create_partitioned hq).2)
    fun _ _ _ hp hfits hs => hp.step hfits hs
  refine ⟨hpart.perm, fun c hc => ⟨hpart.chain c hc, fun head hhead fuel hfuel => ?_⟩⟩
  obtain ⟨q', hq', hfreed⟩ := hpart.freeChain hc hhead hfuel
  exact ⟨q', hq', hfreed.free⟩

/-- A descriptor is allocated, and two chains are submitted; the first one is freed. -/
theorem descriptors_partitioned_eight : ∃ q lent,
    queueSystem.ReachableBy (fun _ op => op.fits) (q, lent) ∧ lent.allocated = [0] ∧
      lent.chains = [[4, 5, 6]] ∧
      ∃ q', q.freeChain 3 4 = some (.ok (), q') ∧ q'.freeList = [6, 5, 4] ++ q.freeList := by
  obtain ⟨⟨q, lent⟩, h, hallocated, hchains⟩ := queueSystem.exists_of_run (fun _ op => op.fits)
    [.allocDesc, .submitChain [⟨0, 16⟩, ⟨64, 512⟩] [⟨16, 1⟩],
      .submitChain [⟨48, 16⟩] [⟨1024, 512⟩, ⟨64, 1⟩], .use ⟨1, 1⟩, .popUsed, .freeChain 1]
    (fun p => p.2.allocated = [0] ∧ p.2.chains = [[4, 5, 6]])
    (s := ((SplitVirtqueue.create true 8 false).get (by decide), {}))
    ⟨⟨8, false, by simp⟩, rfl⟩ (by decide)
  dsimp only at hchains
  obtain ⟨-, hfree⟩ := descriptors_partitioned h
  obtain ⟨q', hq', hlist⟩ := (hfree [4, 5, 6] (by simp [hchains])).2 4 rfl 3 (by simp)
  exact ⟨q, lent, h, hallocated, hchains, q', hq', hlist⟩

namespace SplitVirtqueue

theorem addDescs_queueSize (flags : BitVec 16) (buffers : List IoVec) (q : SplitVirtqueue)
    (prevIdx : ℕ) : (addDescs flags buffers q prevIdx).1.queueSize = q.queueSize := by
  induction buffers generalizing q prevIdx with
  | nil => rfl
  | cons b rest ih =>
    refine (ih _ _).trans ?_
    split <;> rfl

theorem submitChain_queueSize (q : SplitVirtqueue) (readable writable : List IoVec) :
    (q.submitChain readable writable).2.queueSize = q.queueSize := by
  unfold submitChain
  simp only
  split
  · rfl
  split
  · rfl
  · exact (addDescs_queueSize _ _ _ _).trans (addDescs_queueSize _ _ _ _)

end SplitVirtqueue

/-- A chain of 65536 buffers is accepted by a queue with one descriptor. -/
theorem chain_larger_than_queue : ¬ ∀ q lent, queueSystem.Reachable (q, lent) →
    (q.freeList ++ lent.allocated ++ lent.chains.flatten).Perm (range q.queueSize) := by
  intro hall
  obtain ⟨q, hq⟩ : ∃ q, SplitVirtqueue.create true 1 false = some q := Option.isSome_iff_exists.mp rfl
  have hsize : q.queueSize = 1 := by
    cases hq
    rfl
  obtain ⟨readable, hlen⟩ : ∃ readable : List IoVec, readable.length = 2 ^ 16 :=
    ⟨replicate _ ⟨0, 0⟩, length_replicate⟩
  have hok : (q.submitChain readable []).1 = .ok q.freeHead := by
    rcases q.submitChain_cases readable [] with ⟨hrefused, -⟩ | ⟨-, hok⟩
    · simp [hlen] at hrefused
    · exact hok
  have hsize' := q.submitChain_queueSize readable []
  have hinit : queueSystem.Reachable (q, {}) := .init ⟨⟨1, false, hq⟩, rfl⟩
  have hstep : queueSystem.step (q, {}) (.submitChain readable []) =
      some ((q.submitChain readable []).2, { chains :=
        [iterate (fun i => (q.desc i).next) q.freeHead (readable.length + 0)] }) := by
    simp only [queueSystem, queueStep]
    generalize q.submitChain readable [] = result at hok
    obtain ⟨r, q'⟩ := result
    subst hok
    rfl
  have hperm := hall _ _ (hinit.step hstep)
  have hlength := hperm.length_eq
  simp only [hsize', hsize, hlen, length_append, length_range, flatten_cons,
    length_iterate] at hlength
  omega

end SimpleKernel.Virtio
