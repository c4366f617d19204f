import Mathlib.Algebra.BigOperators.Group.List.Basic
import SimpleKernel.Model.Virtio.VirtioBlk
import SimpleKernel.Verification.Virtio.Descriptors
import SimpleKernel.Shared.Bits

/-! The requests in flight. Each has a slot, whose bit is set, and a chain, whose head the slot
knows and whose last descriptor is the status byte of the slot. -/

namespace SimpleKernel.Virtio

open List

/-- A request as it was enqueued. -/
structure Request where
  token : ℕ := 0
  slot : ℕ := 0
  chain : List ℕ := []
  deriving DecidableEq, Repr, Inhabited

def Request.head (r : Request) : ℕ := r.chain.headD 0

def VirtioBlk.newRequest (b : VirtioBlk) (buffers : List IoVec) (token : ℕ) : Request where
  token := token
  slot := (~~~b.slotBitmap).ctz.toNat
  chain := iterate (fun i => (b.vq.desc i).next) b.vq.freeHead (buffers.length + 2)

/-- The requests of the list are those in flight. -/
structure InFlight (b : VirtioBlk) (fl : List Request) : Prop where
  part : Partitioned b.vq { chains := fl.map Request.chain }
  slots : (fl.map Request.slot).Nodup
  bits : ∀ i, b.slotBitmap.getLsbD i ↔ i ∈ fl.map Request.slot
  held : ∀ r ∈ fl, (b.slots r.slot).descHead = r.head ∧ (b.slots r.slot).token = r.token
  status : ∀ r ∈ fl, ∀ x ∈ r.chain.getLast?,
    (b.vq.desc x).addr = b.slotBasePhys r.slot + offsetofStatus

namespace VirtioBlk

variable {b : VirtioBlk} {i head : ℕ} {rounds : ℕ} {used : BitVec 64} {b' : VirtioBlk}
  {c : Completion}

theorem findSlotLoop_eq (hi : (b.slots i).descHead = head)
    (hrounds : ∀ j, used.getLsbD j → 64 ≤ j + rounds) (hused : used.getLsbD i)
    (honly : ∀ j, used.getLsbD j → (b.slots j).descHead = head → j = i) :
    b.findSlotLoop head rounds used = i := by
  induction rounds generalizing used with
  | zero =>
    have hlt := BitVec.lt_of_getLsbD hused
    have hge := hrounds i hused
    omega
  | succ rounds ih =>
    have hne := Bits.ne_zero_of_getLsbD hused
    have hctz := BitVec.getLsbD_true_ctz_of_ne_zero hne
    rw [findSlotLoop, if_neg hne]
    by_cases hmatch : (b.slots used.ctz.toNat).descHead = head
    · rw [if_pos hmatch]
      exact honly _ hctz hmatch
    have hrest : ∀ j, (used &&& (used - 1#64)).getLsbD j ↔
        used.getLsbD j ∧ j ≠ used.ctz.toNat := by
      intro j
      rw [Bits.getLsbD_and_sub_one hne, Bool.and_eq_true, decide_eq_true_eq]
    simp only [if_neg hmatch]
    apply ih
    · intro j hj
      obtain ⟨hj, hjne⟩ := (hrest j).mp hj
      have hle := Bits.ctz_le hj
      have hge := hrounds _ hctz
      omega
    · refine (hrest i).mpr ⟨hused, ?_⟩
      rintro rfl
      exact hmatch hi
    · intro j hj
      exact honly j ((hrest j).mp hj).1

theorem findSlotLoop_spec (hlt : b.findSlotLoop head rounds used < maxInflight) :
    used.getLsbD (b.findSlotLoop head rounds used) ∧
      (b.slots (b.findSlotLoop head rounds used)).descHead = head := by
  induction rounds generalizing used with
  | zero => exact absurd hlt (lt_irrefl _)
  | succ rounds ih =>
    rw [findSlotLoop] at hlt ⊢
    by_cases h0 : used = 0#64
    · rw [if_pos h0] at hlt
      exact absurd hlt (lt_irrefl _)
    rw [if_neg h0] at hlt ⊢
    by_cases hmatch : (b.slots used.ctz.toNat).descHead = head
    · simp only [if_pos hmatch]
      exact ⟨BitVec.getLsbD_true_ctz_of_ne_zero h0, hmatch⟩
    simp only [if_neg hmatch] at hlt ⊢
    obtain ⟨hbit, hhead⟩ := ih hlt
    rw [BitVec.getLsbD_and, Bool.and_eq_true] at hbit
    exact ⟨hbit.1, hhead⟩

theorem allocRequestSlot_cases (b : VirtioBlk) :
    ~~~b.slotBitmap = 0#64 ∧ b.allocRequestSlot = (.error .noFreeDescriptors, b) ∨
    ∃ i, i = (~~~b.slotBitmap).ctz.toNat ∧ i < 64 ∧ b.slotBitmap.getLsbD i = false ∧
      b.allocRequestSlot = (.ok i, { b with slotBitmap := b.slotBitmap ||| 1#64 <<< i }) := by
  by_cases h0 : ~~~b.slotBitmap = 0#64
  · left
    simp [allocRequestSlot, h0]
  right
  have hlt := Bits.ctz_lt h0
  have hfree := BitVec.getLsbD_true_ctz_of_ne_zero h0
  rw [BitVec.getLsbD_not, Bool.and_eq_true, Bool.not_eq_true'] at hfree
  have hge : ¬ maxInflight ≤ (~~~b.slotBitmap).ctz.toNat := hlt.not_ge
  refine ⟨_, rfl, hlt, hfree.2, ?_⟩
  simp [allocRequestSlot, if_neg h0, if_neg hge]

theorem takeSlot_cases (b : VirtioBlk) (queueIndex : ℕ) (buffers : List IoVec) :
    (∃ e b', b.takeSlot queueIndex buffers = (.error e, b') ∧
      (e = .invalidArgument ∨ e = .noFreeDescriptors) ∧ (b' = b ∨ b' = b.addQueueFullError) ∧
      ¬ (queueIndex = 0 ∧ (buffers.length + 2) % 2 ^ 64 ≤ maxSgElements ∧
        ~~~b.slotBitmap ≠ 0#64)) ∨
    ∃ i, b.takeSlot queueIndex buffers =
        (.ok i, { b with slotBitmap := b.slotBitmap ||| 1#64 <<< i }) ∧
      (queueIndex = 0 ∧ (buffers.length + 2) % 2 ^ 64 ≤ maxSgElements ∧ ~~~b.slotBitmap ≠ 0#64) ∧
      i = (~~~b.slotBitmap).ctz.toNat ∧ i < 64 ∧ b.slotBitmap.getLsbD i = false := by
  unfold takeSlot
  split
  · rename_i hqueue
    exact .inl ⟨_, _, rfl, .inl rfl, .inl rfl, fun h => hqueue h.1⟩
  rename_i hqueue
  split
  · rename_i hcheck
    exact .inl ⟨_, _, rfl, .inl rfl, .inl rfl, fun h => hcheck.not_ge h.2.1⟩
  rename_i hcheck
  rcases b.allocRequestSlot_cases with ⟨hfull, heq⟩ | ⟨i, hi, hlt, hclear, heq⟩
  · rw [heq]
    exact .inl ⟨_, _, rfl, .inr rfl, .inr rfl, fun h => h.2.2 hfull⟩
  · rw [heq]
    have hfree : ~~~b.slotBitmap ≠ 0#64 := by
      intro hfull
      simp [allocRequestSlot, hfull] at heq
    exact .inr ⟨i, rfl, ⟨not_not.mp hqueue, not_lt.mp hcheck, hfree⟩, hi, hlt, hclear⟩

theorem kick_frame (b : VirtioBlk) (queueIndex : ℕ) :
    (b.kick queueIndex).vq = b.vq ∧ (b.kick queueIndex).slotPhys = b.slotPhys ∧
      (b.kick queueIndex).slotBitmap = b.slotBitmap ∧ (b.kick queueIndex).slots = b.slots := by
  unfold kick
  split
  · exact ⟨rfl, rfl, rfl, rfl⟩
  split
  · dsimp only
    split
    all_goals exact ⟨rfl, rfl, rfl, rfl⟩
  · exact ⟨rfl, rfl, rfl, rfl⟩

def nextUsed (b : VirtioBlk) : UsedElem := b.vq.usedRing (b.vq.lastUsedIdx % b.vq.queueSize)

theorem popCompletion_eq (hused : b.vq.hasUsed) :
    b.popCompletion = some (⟨b.nextUsed.id % 2 ^ 16, b.nextUsed.len,
        b.findSlotByDescHead (b.nextUsed.id % 2 ^ 16)⟩,
      { b with vq := { b.vq with lastUsedIdx := (b.vq.lastUsedIdx + 1) % 2 ^ 16 } }) := by
  simp [popCompletion, SplitVirtqueue.popUsed, hused, nextUsed]

theorem popCompletion_eq_some (h : b.popCompletion = some (c, b')) :
    b.vq.hasUsed ∧ c = ⟨b.nextUsed.id % 2 ^ 16, b.nextUsed.len,
        b.findSlotByDescHead (b.nextUsed.id % 2 ^ 16)⟩ ∧
      b' = { b with vq := { b.vq with lastUsedIdx := (b.vq.lastUsedIdx + 1) % 2 ^ 16 } } := by
  cases hused : b.vq.hasUsed with
  | false => simp [popCompletion, hused] at h
  | true =>
    rw [popCompletion_eq hused] at h
    obtain ⟨rfl, rfl⟩ := Prod.mk.inj (Option.some.inj h)
    exact ⟨rfl, rfl, rfl⟩

theorem releaseCompletion_eq_some (h : b.releaseCompletion c = some b') :
    ∃ result, b.vq.freeChain b.vq.queueSize c.head = some (result, b'.vq) := by
  obtain ⟨⟨result, q⟩, hq, rfl⟩ := Option.map_eq_some_iff.mp h
  refine ⟨result, ?_⟩
  by_cases hslot : c.slotIdx < maxInflight
  · simpa only [freeRequestSlot, if_pos hslot] using hq
  · simpa only [if_neg hslot] using hq

end VirtioBlk

namespace InFlight

open SplitVirtqueue

variable {b b' : VirtioBlk} {fl fl' : List Request} {r r' : Request} {c : List ℕ}

section

variable (h : InFlight b fl)
include h

theorem perm (hp : fl.Perm fl') : InFlight b fl' := by
  have hflat : (fl.map Request.chain).flatten.Perm (fl'.map Request.chain).flatten :=
    (hp.map _).flatten
  refine ⟨⟨h.part.size, ?_, ?_⟩, ?_, ?_, ?_, ?_⟩
  · exact (hflat.symm.append_left _).trans h.part.perm
  · intro c hc
    exact h.part.chain c ((hp.map _).mem_iff.mpr hc)
  · exact (hp.map _).nodup_iff.mp h.slots
  · intro i
    rw [h.bits, (hp.map _).mem_iff]
  · intro r hr
    exact h.held r (hp.mem_iff.mpr hr)
  · intro r hr
    exact h.status r (hp.mem_iff.mpr hr)

theorem chain (hr : r ∈ fl) : Chain b.vq.desc r.chain :=
  h.part.chain _ (mem_map_of_mem hr)

theorem head_mem (hr : r ∈ fl) : r.chain.head? = some r.head := by
  have hchain := h.chain hr
  unfold Request.head
  cases hc : r.chain with
  | nil =>
    rw [hc] at hchain
    exact hchain.elim
  | cons x rest => rfl

theorem head_lt (hr : r ∈ fl) : r.head < b.vq.queueSize :=
  (h.part.of_chain (mem_map_of_mem hr)).2.1 _ (mem_of_mem_head? (h.head_mem hr))

theorem slot_lt (hr : r ∈ fl) : r.slot < maxInflight :=
  BitVec.lt_of_getLsbD ((h.bits _).mpr (mem_map_of_mem hr))

theorem eq_of_head (hr : r ∈ fl) (hr' : r' ∈ fl) (heq : r.head = r'.head) : r = r' := by
  have hnodup := (nodup_append.mp h.part.nodup).2.1
  have hpair := (nodup_flatten.mp hnodup).2
  rw [pairwise_map] at hpair
  have hsymm : Std.Symm fun r r' : Request => r.chain.Disjoint r'.chain :=
    ⟨fun _ _ hd _ hx hx' => hd hx' hx⟩
  by_contra hne
  have hdisj := hpair.forall hr hr' hne
  have hmem := mem_of_mem_head? (h.head_mem hr)
  have hmem' := mem_of_mem_head? (h.head_mem hr')
  exact hdisj hmem (heq ▸ hmem')

theorem findSlot (hr : r ∈ fl) : b.findSlotByDescHead r.head = r.slot := by
  apply VirtioBlk.findSlotLoop_eq (h.held r hr).1
  · intro j _
    omega
  · exact (h.bits _).mpr (mem_map_of_mem hr)
  · intro j hj hhead
    obtain ⟨r', hr', rfl⟩ := mem_map.mp ((h.bits j).mp hj)
    rw [(h.held r' hr').1] at hhead
    rw [h.eq_of_head hr' hr hhead]

theorem findSlot_spec {head : ℕ} (hlt : b.findSlotByDescHead head < maxInflight) :
    ∃ r ∈ fl, b.findSlotByDescHead head = r.slot ∧ head = r.head := by
  obtain ⟨hbit, hhead⟩ := VirtioBlk.findSlotLoop_spec hlt
  obtain ⟨r, hr, hslot⟩ := mem_map.mp ((h.bits _).mp hbit)
  refine ⟨r, hr, hslot.symm, ?_⟩
  rw [← (h.held r hr).1, hslot, hhead]

theorem length_le : fl.length ≤ b.vq.queueSize := by
  have hlen := h.part.perm.length_eq
  simp only [length_append, length_range] at hlen
  have hchains := length_le_sum_of_one_le ((fl.map Request.chain).map length) (by
    rw [map_map, forall_mem_map]
    exact fun r hr => length_pos_of_mem (mem_of_mem_head? (h.head_mem hr)))
  rw [← length_flatten, length_map, length_map] at hchains
  omega

theorem congr
    (hvq : b'.vq.queueSize = b.vq.queueSize ∧ b'.vq.desc = b.vq.desc ∧
      b'.vq.freeHead = b.vq.freeHead ∧ b'.vq.numFree = b.vq.numFree)
    (hphys : b'.slotPhys = b.slotPhys) (hbits : b'.slotBitmap = b.slotBitmap)
    (hslots : ∀ r ∈ fl, (b'.slots r.slot).descHead = (b.slots r.slot).descHead ∧
      (b'.slots r.slot).token = (b.slots r.slot).token) : InFlight b' fl := by
  obtain ⟨hsize, hdesc, hhead, hnum⟩ := hvq
  have hfree : b'.vq.freeList = b.vq.freeList := freeList_congr hhead hnum fun _ _ => by rw [hdesc]
  refine ⟨⟨?_, ?_, ?_⟩, h.slots, ?_, ?_, ?_⟩
  · rw [hsize]
    exact h.part.size
  · rw [hfree, hsize]
    exact h.part.perm
  · rw [hdesc]
    exact h.part.chain
  · rw [hbits]
    exact h.bits
  · intro r hr
    rw [(hslots r hr).1, (hslots r hr).2]
    exact h.held r hr
  · intro r hr x hx
    rw [hdesc, VirtioBlk.slotBasePhys, hphys]
    exact h.status r hr x hx

theorem kick (queueIndex : ℕ) : InFlight (b.kick queueIndex) fl := by
  obtain ⟨hvq, hphys, hbits, hslots⟩ := b.kick_frame queueIndex
  refine h.congr ?_ hphys hbits fun r _ => ?_
  · simp [hvq]
  · simp [hslots]

end

/-! ## The device's write to the status byte -/

theorem writeByte_status (b : VirtioBlk) (i j : ℕ) (value : UInt8) :
    (Machine.writeByte b (b.slotBasePhys i + offsetofStatus) value).slots j =
      if j = i then { b.slots j with status := value } else b.slots j := by
  have hiff : b.slotBasePhys j + offsetofStatus = b.slotBasePhys i + offsetofStatus ↔ j = i := by
    simp only [VirtioBlk.slotBasePhys, sizeofRequestSlot]
    omega
  simp only [Machine.writeByte, hiff]

theorem writeByte (h : InFlight b fl) (addr : ℕ) (value : UInt8) :
    InFlight (Machine.writeByte b addr value) fl := by
  refine h.congr ⟨rfl, rfl, rfl, rfl⟩ rfl rfl fun r _ => ?_
  simp only [Machine.writeByte]
  split
  all_goals exact ⟨rfl, rfl⟩

theorem lastDesc_eq {q : SplitVirtqueue} {x : ℕ} {fuel : ℕ}
    (hchain : Chain q.desc (x :: c)) (hfuel : (x :: c).length ≤ fuel) :
    Machine.lastDesc q fuel x = (x :: c).getLast? := by
  induction c generalizing x fuel with
  | nil =>
    obtain ⟨fuel, rfl⟩ := Nat.exists_eq_add_of_le' hfuel
    have hnext : (q.desc x).hasNext = false := hchain
    rw [length_singleton, Machine.lastDesc, hnext]
    rfl
  | cons y c ih =>
    cases fuel with
    | zero => cases hfuel
    | succ fuel =>
      obtain ⟨hnext, hy, hrest⟩ := hchain
      rw [Machine.lastDesc, if_pos hnext, hy, ih hrest (Nat.le_of_succ_le_succ hfuel),
        getLast?_cons_cons]

theorem chain_length_le (h : InFlight b fl) (hr : r ∈ fl) : r.chain.length ≤ b.vq.queueSize := by
  have hlen := h.part.length_le (mem_map_of_mem hr)
  omega

theorem lastDesc (h : InFlight b fl) (hr : r ∈ fl) :
    ∃ x, Machine.lastDesc b.vq b.vq.queueSize r.head = some x ∧
      (b.vq.desc x).addr = b.slotBasePhys r.slot + offsetofStatus := by
  have hchain := h.chain hr
  have hlen := h.chain_length_le hr
  have hhead := h.head_mem hr
  have hstatus := h.status r hr
  cases hc : r.chain with
  | nil =>
    rw [hc] at hhead
    cases hhead
  | cons x c =>
    rw [hc] at hchain hlen hhead hstatus
    have hx : r.head = x := (Option.some.inj hhead).symm
    have hlast := getLast?_eq_some_getLast (cons_ne_nil x c)
    rw [hx, lastDesc_eq hchain hlen]
    exact ⟨_, hlast, hstatus _ hlast⟩

/-! ## Release -/

/-- The state after a release. -/
structure Released (b b' : VirtioBlk) : Prop where
  slots : b'.slots = b.slots
  phys : b'.slotPhys = b.slotPhys
  vq : b'.vq = { b.vq with
    desc := b'.vq.desc, freeHead := b'.vq.freeHead, numFree := b'.vq.numFree }

theorem released (h : InFlight b (r :: fl)) (hfreed : Freed b.vq b'.vq r.chain)
    (hbits : b'.slotBitmap = b.slotBitmap &&& ~~~(1#64 <<< r.slot)) (hslots : b'.slots = b.slots)
    (hphys : b'.slotPhys = b.slotPhys) : InFlight b' fl := by
  have hmem : r.chain ∈ (r :: fl).map Request.chain := mem_map_of_mem mem_cons_self
  have hpart := h.part.freed hmem hfreed
  rw [map_cons, erase_cons_head] at hpart
  have hfresh := nodup_cons.mp h.slots
  have hlt : r.slot < 64 := h.slot_lt mem_cons_self
  refine ⟨hpart, hfresh.2, ?_, ?_, ?_⟩
  · intro i
    have hiff := h.bits i
    rw [map_cons, mem_cons] at hiff
    rw [hbits, Bits.getLsbD_clear hlt, Bool.and_eq_true, hiff, decide_eq_true_eq]
    constructor
    · rintro ⟨hi | hi, hne⟩
      · exact absurd hi hne
      · exact hi
    · intro hi
      refine ⟨.inr hi, ?_⟩
      rintro rfl
      exact hfresh.1 hi
  · intro r' hr'
    rw [hslots]
    exact h.held r' (mem_cons_of_mem r hr')
  · intro r' hr' x hx
    have hxr : x ∉ r.chain := by
      intro hxr
      have hnodup := (nodup_append.mp h.part.nodup).2.1
      rw [map_cons, flatten_cons, nodup_append] at hnodup
      have hxr' : x ∈ (fl.map Request.chain).flatten :=
        mem_flatten.mpr ⟨_, mem_map_of_mem hr', mem_of_getLast? hx⟩
      exact hnodup.2.2 x hxr x hxr' rfl
    rw [hfreed.frame x hxr, VirtioBlk.slotBasePhys, hphys]
    exact h.status r' (mem_cons_of_mem r hr') x hx

theorem release (h : InFlight b (r :: fl)) {c : VirtioBlk.Completion} (hslot : c.slotIdx = r.slot)
    (hhead : c.head = r.head) :
    ∃ b', b.releaseCompletion c = some b' ∧ InFlight b' fl ∧ Released b b' := by
  have hr : r ∈ r :: fl := mem_cons_self
  have hlt := h.slot_lt hr
  obtain ⟨vq, hvq, hfreed⟩ :=
    h.part.freeChain (mem_map_of_mem hr) (h.head_mem hr) (h.chain_length_le hr)
  obtain ⟨b', hb', hbits, hslots, hphys, rfl⟩ : ∃ b', b.releaseCompletion c = some b' ∧
      b'.slotBitmap = b.slotBitmap &&& ~~~(1#64 <<< r.slot) ∧ b'.slots = b.slots ∧
      b'.slotPhys = b.slotPhys ∧ b'.vq = vq := by
    simp only [VirtioBlk.releaseCompletion, VirtioBlk.freeRequestSlot, hslot, if_pos hlt, hhead, hvq]
    exact ⟨_, rfl, rfl, rfl, rfl, rfl⟩
  exact ⟨b', hb', h.released hfreed hbits hslots hphys, hslots, hphys, hfreed.rest⟩

/-! ## Requests -/

/-- The operation has failed. -/
structure Refused (b b' : VirtioBlk) (fl : List Request) : Prop where
  inFlight : InFlight b' fl
  vq : b'.vq = b.vq
  status : ∀ r ∈ fl, (b'.slots r.slot).status = (b.slots r.slot).status

/-- The request has been put in flight. -/
structure Enqueued (b b' : VirtioBlk) (fl : List Request) (r : Request) : Prop where
  inFlight : InFlight b' (r :: fl)
  vq : b'.vq = { b.vq.submit r.head with
    desc := b'.vq.desc, freeHead := b'.vq.freeHead, numFree := b'.vq.numFree }
  status : ∀ r' ∈ fl, (b'.slots r'.slot).status = (b.slots r'.slot).status

theorem setSlot (h : InFlight b fl) {i : ℕ} (hi : i ∉ fl.map Request.slot)
    (f : RequestSlot → RequestSlot) : Refused b (b.setSlot i f) fl := by
  have hslots : ∀ r ∈ fl, (b.setSlot i f).slots r.slot = b.slots r.slot := by
    intro r hr
    refine Function.update_of_ne ?_ _ _
    rintro rfl
    exact hi (mem_map_of_mem hr)
  refine ⟨h.congr ⟨rfl, rfl, rfl, rfl⟩ rfl rfl fun r hr => ?_, rfl, fun r hr => ?_⟩
  · rw [hslots r hr]
    exact ⟨rfl, rfl⟩
  · rw [hslots r hr]

theorem iovs_append (type : ReqType) (slotBasePhys : ℕ) (buffers : List IoVec) :
    (VirtioBlk.iovs type slotBasePhys buffers).1 ++ (VirtioBlk.iovs type slotBasePhys buffers).2 =
      (⟨slotBasePhys, sizeofBlkReqHeader⟩ :: buffers) ++ [⟨slotBasePhys + offsetofStatus, 1⟩] := by
  cases type with
  | kIn => rfl
  | kOut => rfl

theorem length_iovs (type : ReqType) (slotBasePhys : ℕ) (buffers : List IoVec) :
    (VirtioBlk.iovs type slotBasePhys buffers).1.length +
      (VirtioBlk.iovs type slotBasePhys buffers).2.length = buffers.length + 2 := by
  rw [← length_append, iovs_append, length_append]
  rfl

theorem submitted (h : InFlight b fl) {readable writable : List IoVec}
    (hpart : Partitioned b'.vq { chains := c :: fl.map Request.chain })
    (hsub : Submitted b.vq b'.vq readable writable c) (hc : r.chain = c)
    (hlast : (readable ++ writable).getLast? = some ⟨b.slotBasePhys r.slot + offsetofStatus, 1⟩)
    (hslot : r.slot < 64) (hfresh : r.slot ∉ fl.map Request.slot)
    (hbits : b'.slotBitmap = b.slotBitmap ||| 1#64 <<< r.slot) (hphys : b'.slotPhys = b.slotPhys)
    (hheld : (b'.slots r.slot).descHead = r.head ∧ (b'.slots r.slot).token = r.token)
    (hother : ∀ i, i ≠ r.slot → b'.slots i = b.slots i) : InFlight b' (r :: fl) := by
  subst hc
  have hne : ∀ r' ∈ fl, r'.slot ≠ r.slot := by
    intro r' hr' heq
    exact hfresh (heq ▸ mem_map_of_mem hr')
  refine ⟨hpart, nodup_cons.mpr ⟨hfresh, h.slots⟩, ?_, ?_, ?_⟩
  · intro i
    rw [hbits, Bits.getLsbD_set hslot, Bool.or_eq_true, h.bits, decide_eq_true_eq, map_cons,
      mem_cons, or_comm]
  · intro r' hr'
    rcases mem_cons.mp hr' with rfl | hr'
    · exact hheld
    · rw [hother _ (hne r' hr')]
      exact h.held r' hr'
  · intro r' hr' x hx
    rw [VirtioBlk.slotBasePhys, hphys]
    rcases mem_cons.mp hr' with rfl | hr'
    · obtain ⟨v, hv, haddr⟩ := getLast?_of_forall₂ hsub.addr hx
      rw [hlast] at hv
      cases hv
      exact haddr
    have hxr : x ∉ r.chain := by
      intro hxr
      refine (h.part.of_chain (mem_map_of_mem hr')).2.2.1 x (mem_of_getLast? hx) ?_
      rw [hsub.free]
      exact mem_append_left _ hxr
    rw [hsub.frame x hxr]
    exact h.status r' hr' x hx

theorem doEnqueue (h : InFlight b fl) (type : ReqType) (queueIndex sector : ℕ)
    {buffers : List IoVec} (hlen : buffers.length < 2 ^ 60) (token : ℕ) :
    (∃ b', b.doEnqueue type queueIndex sector buffers token = (.ok (), b') ∧
      Enqueued b b' fl (b.newRequest buffers token)) ∨
    ∃ e b', b.doEnqueue type queueIndex sector buffers token = (.error e, b') ∧
      (e = .invalidArgument ∨ e = .noFreeDescriptors) ∧ Refused b b' fl := by
  unfold VirtioBlk.doEnqueue
  rcases b.takeSlot_cases queueIndex buffers with
    ⟨e, b', htake, he, rfl | rfl, -⟩ | ⟨i, htake, ⟨-, hcount, -⟩, hi, hlt, hclear⟩
  · rw [htake]
    exact .inr ⟨e, _, rfl, he, h, rfl, fun _ _ => rfl⟩
  · rw [htake]
    exact .inr ⟨e, _, rfl, he, { h with part := { h.part with } }, rfl, fun _ _ => rfl⟩
  rw [htake]
  have hfresh : i ∉ fl.map Request.slot := by
    rw [← h.bits, hclear]
    exact Bool.false_ne_true
  have hcount : buffers.length + 2 ≤ 18 := by
    rw [Nat.mod_eq_of_lt (by omega)] at hcount
    exact hcount
  have hsum := length_iovs type (b.slotBasePhys i) buffers
  have hlast : ((VirtioBlk.iovs type (b.slotBasePhys i) buffers).1 ++
      (VirtioBlk.iovs type (b.slotBasePhys i) buffers).2).getLast? =
        some ⟨b.slotBasePhys i + offsetofStatus, 1⟩ := by
    rw [iovs_append, getLast?_concat]
  have hnum := h.part.numFree_le
  simp only [VirtioBlk.setSlot, VirtioBlk.slotBasePhys] at hsum hlast ⊢
  generalize VirtioBlk.iovs type (b.slotPhys + i * sizeofRequestSlot) buffers = iovs at *
  obtain ⟨readable, writable⟩ := iovs
  by_cases hfits : buffers.length + 2 ≤ b.vq.numFree
  · left
    have hpart := h.part.submitChain (by omega) (hsum ▸ hfits)
    obtain ⟨hok, hsub⟩ := submitChain_submitted (by omega) (hsum ▸ hfits) (by omega)
      h.part.nodup_freeList h.part.noDesc_not_mem
    have hchain : b.vq.freeList.take (readable.length + writable.length) =
        (b.newRequest buffers token).chain := by
      rw [hsum, freeList, take_iterate, Nat.min_eq_left hfits]
      rfl
    rw [hchain] at hpart hsub
    generalize b.vq.submitChain readable writable = result at hok hsub hpart ⊢
    obtain ⟨res, vq⟩ := result
    subst hok
    have hslot : (b.newRequest buffers token).slot = i := hi.symm
    refine ⟨_, rfl, h.submitted hpart hsub rfl (by rw [hslot]; exact hlast) (by rwa [hslot])
      (by rwa [hslot]) (by rw [hslot]) rfl ?_ ?_, ?_, ?_⟩
    · rw [hslot]
      simp [VirtioBlk.newRequest, Request.head, iterate]
    · intro j hj
      rw [hslot] at hj
      simp [hj]
    · exact hsub.rest
    · intro r' hr'
      have hne : r'.slot ≠ i := by
        rintro rfl
        exact hfresh (mem_map_of_mem hr')
      simp [hne]
  · right
    obtain ⟨e, he, herror⟩ := submitChain_error (by omega) (fun h => hfits (hsum ▸ h.2))
    rw [herror]
    refine ⟨e, _, rfl, he, ?_⟩
    have hset := h.setSlot hfresh fun slot =>
      { slot with header := ⟨type.code, 0, sector⟩, status := 0xFF, token }
    have hbits := Bits.clear_set hlt hclear
    have hmax : i < maxInflight := hlt
    simp only [VirtioBlk.freeRequestSlot, if_pos hmax, hbits]
    exact ⟨{ hset.inFlight with part := { hset.inFlight.part with } }, rfl, hset.status⟩

end InFlight

end SimpleKernel.Virtio
