import SimpleKernel.Verification.Virtio.Slots

/-! `SubmitChain` and `DoEnqueue` from any state of the queue and of the driver: the chain that a
submission builds, and what a failed one leaves behind. -/

namespace SimpleKernel.Virtio

open List

namespace SplitVirtqueue

variable {q q' : SplitVirtqueue} {c : List ℕ} {readable writable : List IoVec}

/-! ## The chain -/

/-- The first `n` descriptors from the head on, along `next`. -/
def walk (q : SplitVirtqueue) (head n : ℕ) : List ℕ := iterate (fun i => (q.desc i).next) head n

/-- The chain at the head has the buffers in their order. -/
structure Carries (q : SplitVirtqueue) (head : ℕ) (readable writable : List IoVec) : Prop where
  nodup : (q.walk head (readable.length + writable.length)).Nodup
  buffers : (q.walk head (readable.length + writable.length)).map
    (fun x => (⟨(q.desc x).addr, (q.desc x).len⟩ : IoVec)) = readable ++ writable
  write : (q.walk head (readable.length + writable.length)).map
    (fun x => decide ((q.desc x).flags &&& descFWrite ≠ 0)) =
      replicate readable.length false ++ replicate writable.length true
  next : (q.walk head (readable.length + writable.length)).map (fun x => (q.desc x).hasNext) =
    replicate (readable.length + writable.length - 1) true ++ [false]

theorem map_write_flagged (readable writable : List IoVec) :
    (flagged readable writable).map (fun b => decide (b.2 &&& descFWrite ≠ 0)) =
      replicate readable.length false ++ replicate writable.length true := by
  have hread : decide (descFNext &&& descFWrite ≠ 0) = false := by decide
  have hwrite : decide ((descFNext ||| descFWrite) &&& descFWrite ≠ 0) = true := by decide
  simp only [flagged, map_append, map_map, Function.comp_def, hread, hwrite, map_const']

theorem map_eq_of_forall₂ {α β γ : Type*} {R : α → β → Prop} {f : α → γ} {g : β → γ} {l : List α}
    {l' : List β} (h : List.Forall₂ R l l') (hR : ∀ a, ∀ b ∈ l', R a b → f a = g b) :
    l.map f = l'.map g := by
  induction h with
  | nil => rfl
  | cons hab _ ih =>
    rw [map_cons, map_cons, hR _ _ mem_cons_self hab,
      ih fun a b hb => hR a b (mem_cons_of_mem _ hb)]

section

variable (h : Submitted q q' readable writable c)
include h

theorem Submitted.length_eq : c.length = readable.length + writable.length :=
  h.filled.length_eq.trans (by simp [flagged])

theorem Submitted.numFree_eq : q'.numFree + (readable.length + writable.length) = q.numFree := by
  have hlen := congrArg length h.free
  rw [length_append, length_freeList, length_freeList, h.length_eq] at hlen
  omega

theorem Submitted.carries (hnodup : c.Nodup) {head : ℕ}
    (hhead : c.head? = some head) (hbytes : ∀ b ∈ readable ++ writable, b.len < 2 ^ 32) :
    Carries q' head readable writable := by
  have hlen := h.length_eq
  have hchain := h.chain
  have hwalk : q'.walk head (readable.length + writable.length) = c := by
    cases c with
    | nil => cases hhead
    | cons x c =>
      cases hhead
      rw [← hlen]
      exact hchain.iterate_next
  refine ⟨hwalk ▸ hnodup, ?_, ?_, ?_⟩
  · rw [hwalk, ← map_fst_flagged]
    refine map_eq_of_forall₂ h.filled fun x b hb hx => ?_
    have hlt := hbytes b.1 (map_fst_flagged readable writable ▸ mem_map_of_mem hb)
    rw [hx.1, hx.2.1, Nat.mod_eq_of_lt hlt]
  · rw [hwalk, ← map_write_flagged]
    refine map_eq_of_forall₂ h.filled fun x b _ hx => ?_
    rw [hx.2.2]
  · rw [hwalk, ← hlen]
    cases c with
    | nil => cases hhead
    | cons x c => exact hchain.map_hasNext

end

end SplitVirtqueue

open SplitVirtqueue

/-- `SubmitChain` builds the chain of the buffers, publishes its head, changes no chain in flight,
and `FreeChain` gives the descriptors back. -/
theorem submitChain_builds {q : SplitVirtqueue} {lent : Lent} (h : Partitioned q lent)
    (readable writable : List IoVec) (hpos : 0 < readable.length + writable.length)
    (hfits : readable.length + writable.length ≤ q.numFree)
    (hbytes : ∀ b ∈ readable ++ writable, b.len < 2 ^ 32) :
    ∃ head q', q.submitChain readable writable = (.ok head, q') ∧
      Carries q' head readable writable ∧
      (∀ c ∈ lent.chains, ∀ x ∈ c, q'.desc x = q.desc x) ∧
      q'.numFree + (readable.length + writable.length) = q.numFree ∧
      q'.availIdx = (q.availIdx + 1) % 2 ^ 16 ∧
      q'.availRing = Function.update q.availRing (q.availIdx % q.queueSize) head ∧
      ∀ fuel ≥ readable.length + writable.length, ∃ q'',
        q'.freeChain fuel head = some (.ok (), q'') ∧ ∀ x, x ∈ q''.freeList ↔ x ∈ q.freeList := by
  have hnum := h.numFree_le
  obtain ⟨hok, hsub⟩ := submitChain_submitted hpos hfits (by omega) h.nodup_freeList
    h.noDesc_not_mem
  have hpart := h.submitChain hpos hfits
  have hhead : (q.freeList.take (readable.length + writable.length)).head? = some q.freeHead := by
    rw [freeList, take_iterate, Nat.min_eq_left hfits]
    obtain ⟨n, hn⟩ := Nat.exists_eq_add_of_le' hpos
    rw [hn]
    rfl
  have hnodup := h.nodup_freeList.sublist (take_sublist (readable.length + writable.length) _)
  generalize q.freeList.take (readable.length + writable.length) = c at hsub hpart hhead hnodup
  generalize q.submitChain readable writable = result at hok hsub hpart
  obtain ⟨r, q'⟩ := result
  simp only at hok hsub hpart
  subst hok
  have hidx : q'.availIdx = (q.availIdx + 1) % 2 ^ 16 := by
    rw [hsub.rest]
    rfl
  have hring : q'.availRing = Function.update q.availRing (q.availIdx % q.queueSize) q.freeHead := by
    rw [hsub.rest]
    rfl
  refine ⟨q.freeHead, q', rfl, hsub.carries hnodup hhead hbytes, fun c' hc' x hx => ?_,
    hsub.numFree_eq, hidx, hring, fun fuel hfuel => ?_⟩
  · refine hsub.frame x fun hxc => (h.of_chain hc').2.2.1 x hx ?_
    rw [hsub.free]
    exact mem_append_left _ hxc
  · obtain ⟨q'', hq'', hfreed⟩ := hpart.freeChain mem_cons_self hhead (hsub.length_eq ▸ hfuel)
    refine ⟨q'', hq'', fun x => ?_⟩
    rw [hfreed.free, hsub.free, mem_append, mem_append, mem_reverse]

/-- A chain of one readable and two writable buffers, on a new queue. -/
theorem submitChain_builds_three : ∃ (q : SplitVirtqueue) (head : ℕ) (q' : SplitVirtqueue),
    q.submitChain [⟨4096, 16⟩] [⟨8192, 512⟩, ⟨4112, 1⟩] = (.ok head, q') ∧
      Carries q' head [⟨4096, 16⟩] [⟨8192, 512⟩, ⟨4112, 1⟩] := by
  obtain ⟨q, hq⟩ : ∃ q, SplitVirtqueue.create true 8 false = some q :=
    Option.isSome_iff_exists.mp rfl
  have hnum : q.numFree = 8 := by
    cases hq
    rfl
  obtain ⟨head, q', heq, hcarries, -⟩ := submitChain_builds
    (SplitVirtqueue.create_partitioned hq).2 [⟨4096, 16⟩] [⟨8192, 512⟩, ⟨4112, 1⟩]
    (by simp) (by simp [hnum]) (by decide)
  exact ⟨q, head, q', heq, hcarries⟩

/-! ## Failed submissions -/

/-- `SubmitChain` succeeds exactly for 1 to `num_free_` buffers, and a failure changes nothing. -/
def SubmitsCleanly (q : SplitVirtqueue) (readable writable : List IoVec) : Prop :=
  ((∃ head, (q.submitChain readable writable).1 = .ok head) ↔
    1 ≤ readable.length + writable.length ∧ readable.length + writable.length ≤ q.numFree) ∧
  ∀ e, (q.submitChain readable writable).1 = .error e → (q.submitChain readable writable).2 = q

/-- It does unless there are too many buffers, and not too many modulo 2 ^ 16. -/
theorem submitsCleanly_iff {q : SplitVirtqueue} (hnum : q.numFree < 2 ^ 16)
    (readable writable : List IoVec) :
    SubmitsCleanly q readable writable ↔
      readable.length + writable.length ≤ q.numFree ∨
      (readable.length + writable.length) % 2 ^ 64 = 0 ∨
      q.numFree < (readable.length + writable.length) % 2 ^ 16 := by
  rcases q.submitChain_cases readable writable with ⟨hcheck, e, -, heq⟩ | ⟨hcheck, hok⟩
  · have hfails : ¬ (1 ≤ readable.length + writable.length ∧
        readable.length + writable.length ≤ q.numFree) := by omega
    simp only [SubmitsCleanly, heq, hfails, iff_false, not_exists, reduceCtorEq, not_false_eq_true,
      implies_true, and_self, hcheck, or_true]
  have hpos : 1 ≤ readable.length + writable.length := by omega
  have hneither : ¬ ((readable.length + writable.length) % 2 ^ 64 = 0 ∨
      q.numFree < (readable.length + writable.length) % 2 ^ 16) := by omega
  simp only [SubmitsCleanly, hok, Except.ok.injEq, exists_eq', hpos, true_and, true_iff,
    reduceCtorEq, IsEmpty.forall_iff, implies_true, and_true, hneither, or_false]

/-- The header, the data and the status of a read request. -/
theorem submitsCleanly_request :
    SubmitsCleanly { queueSize := 8, numFree := 8 } [⟨4096, 16⟩] [⟨8192, 512⟩, ⟨4112, 1⟩] :=
  (submitsCleanly_iff (by decide) _ _).mpr (.inl (by decide))

/-- A queue with one descriptor accepts a chain of 65536 buffers. -/
theorem submitChain_accepts_overlong : ∃ q readable, SplitVirtqueue.create true 1 false = some q ∧
    readable.length = 65536 ∧ ¬ SubmitsCleanly q readable [] := by
  obtain ⟨q, hq⟩ : ∃ q, SplitVirtqueue.create true 1 false = some q :=
    Option.isSome_iff_exists.mp rfl
  have hnum : q.numFree = 1 := by
    cases hq
    rfl
  obtain ⟨readable, hlen⟩ : ∃ readable : List IoVec, readable.length = 65536 :=
    ⟨replicate _ ⟨0, 0⟩, length_replicate⟩
  refine ⟨q, readable, hq, hlen, fun hclean => ?_⟩
  rcases q.submitChain_cases readable [] with ⟨hcheck, -⟩ | ⟨-, hok⟩
  · simp [hlen] at hcheck
  · have hfits := hclean.1.mp ⟨_, hok⟩
    simp [hlen, hnum] at hfits

/-! ## Requests -/

namespace VirtioBlk

def iovsWritten (b : VirtioBlk) (type : ReqType) (queueIndex : ℕ) (buffers : List IoVec) : ℕ × ℕ :=
  match b.takeSlot queueIndex buffers with
  | (.error _, _) => (0, 0)
  | (.ok slotIdx, b) =>
    let (readable, writable) := iovs type (b.slotBasePhys slotIdx) buffers
    (readable.length, writable.length)

/-- `DoEnqueue` stays within its arrays, and a failure leaves the bitmap and the queue alone. -/
def EnqueuesSafely (b : VirtioBlk) (type : ReqType) (queueIndex sector : ℕ) (buffers : List IoVec)
    (token : ℕ) : Prop :=
  ((b.iovsWritten type queueIndex buffers).1 ≤ maxSgElements ∧
    (b.iovsWritten type queueIndex buffers).2 ≤ maxSgElements) ∧
  ∀ e, (b.doEnqueue type queueIndex sector buffers token).1 = .error e →
    (b.doEnqueue type queueIndex sector buffers token).2.slotBitmap = b.slotBitmap ∧
      (b.doEnqueue type queueIndex sector buffers token).2.vq = b.vq

theorem max_iovsWritten (b : VirtioBlk) (type : ReqType) (queueIndex : ℕ) (buffers : List IoVec) :
    max (b.iovsWritten type queueIndex buffers).1 (b.iovsWritten type queueIndex buffers).2 =
      if queueIndex = 0 ∧ (buffers.length + 2) % 2 ^ 64 ≤ maxSgElements ∧ ~~~b.slotBitmap ≠ 0#64
      then buffers.length + 1 else 0 := by
  unfold iovsWritten
  rcases b.takeSlot_cases queueIndex buffers with ⟨e, b', heq, -, -, hno⟩ | ⟨i, heq, htakes, -⟩
  · rw [heq, if_neg hno]
    rfl
  · rw [heq, if_pos htakes]
    cases type with
    | kIn => simp [iovs]
    | kOut => simp [iovs]

theorem doEnqueue_error (b : VirtioBlk) (type : ReqType) (queueIndex sector : ℕ)
    (buffers : List IoVec) (token : ℕ) {e : ErrorCode}
    (he : (b.doEnqueue type queueIndex sector buffers token).1 = .error e) :
    (b.doEnqueue type queueIndex sector buffers token).2.slotBitmap = b.slotBitmap ∧
      (b.doEnqueue type queueIndex sector buffers token).2.vq = b.vq := by
  unfold doEnqueue at he ⊢
  rcases b.takeSlot_cases queueIndex buffers with
    ⟨_, b', heq, -, rfl | rfl, -⟩ | ⟨i, heq, -, -, hlt, hclear⟩
  · rw [heq]
    exact ⟨rfl, rfl⟩
  · rw [heq]
    exact ⟨rfl, rfl⟩
  rw [heq] at he ⊢
  simp only [setSlot, slotBasePhys] at he ⊢
  generalize iovs type (b.slotPhys + i * sizeofRequestSlot) buffers = iovs at *
  obtain ⟨readable, writable⟩ := iovs
  rcases b.vq.submitChain_cases readable writable with ⟨-, e', -, heq⟩ | ⟨-, hok⟩
  · have hmax : i < maxInflight := hlt
    simp [heq, freeRequestSlot, if_pos hmax, addQueueFullError, Bits.clear_set hlt hclear]
  generalize b.vq.submitChain readable writable = result at he hok
  obtain ⟨r, vq⟩ := result
  subst hok
  cases he

end VirtioBlk

/-- It is safe unless the sum with the header and the status wraps and there is a slot to take. -/
theorem enqueuesSafely_iff (b : VirtioBlk) (type : ReqType) (queueIndex sector : ℕ)
    {buffers : List IoVec} (hcount : buffers.length < 2 ^ 64) (token : ℕ) :
    b.EnqueuesSafely type queueIndex sector buffers token ↔
      queueIndex ≠ 0 ∨ buffers.length + 2 < 2 ^ 64 ∨ ~~~b.slotBitmap = 0#64 := by
  rw [VirtioBlk.EnqueuesSafely, and_iff_left fun e he => b.doEnqueue_error _ _ _ _ _ he,
    ← max_le_iff, VirtioBlk.max_iovsWritten, maxSgElements]
  by_cases hfull : ~~~b.slotBitmap = 0#64
  · simp [hfull]
  simp only [ne_eq, hfull, not_false_eq_true, and_true, or_false]
  split
  · omega
  · omega

def idleBlk : VirtioBlk where
  vq := { queueSize := 8, numFree := 8 }
  slotPhys := 4096
  slots := fun _ => {}
  virtToPhys := id

theorem enqueuesSafely_one : idleBlk.EnqueuesSafely .kIn 0 0 [⟨4096, 512⟩] 0 :=
  (enqueuesSafely_iff _ _ _ _ (by decide) _).mpr (.inr (.inl (by decide)))

/-- With 2 ^ 64 - 2 buffers the sum is 0. -/
theorem doEnqueue_not_safe : ∃ buffers : List IoVec,
    buffers.length = 2 ^ 64 - 2 ∧ ¬ idleBlk.EnqueuesSafely .kIn 0 0 buffers 0 := by
  obtain ⟨buffers, hcount⟩ : ∃ buffers : List IoVec, buffers.length = 2 ^ 64 - 2 :=
    ⟨replicate _ ⟨0, 0⟩, length_replicate⟩
  refine ⟨buffers, hcount, fun hsafe => ?_⟩
  have hmax := max_le_iff.mpr hsafe.1
  rw [VirtioBlk.max_iovsWritten, if_pos (by simp [hcount, idleBlk]), maxSgElements] at hmax
  omega

end SimpleKernel.Virtio
