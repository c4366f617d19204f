import SimpleKernel.Verification.Virtio.Slots
import SimpleKernel.Shared.Ring

/-! The way of a request through the rings: published, read by the device, completed, reported
to a callback and released. -/

namespace SimpleKernel.Virtio

open List

/-! ## The record of a run -/

/-- A call of a callback. `sync` tells that it is the callback of a synchronous request. -/
structure Report where
  sync : Bool
  token : ℕ
  status : ErrorCode
  deriving DecidableEq, Repr

/-- The requests by the order in which they were enqueued, the numbers of the completed ones with
the status that the device wrote, in the order of the used ring, and the calls of callbacks. The
chains of the first `released` completed requests are free again; the first `handled` ones had
been completed when `HandleInterrupt` last returned. The last `Read` or `Write` enqueued the request
`current`. -/
structure History where
  requests : List Request := []
  completed : List (ℕ × UInt8) := []
  reported : List Report := []
  released : ℕ := 0
  handled : ℕ := 0
  current : Option ℕ := none

def History.request (h : History) (r : ℕ) : Request := h.requests.getD r default

/-- The requests whose chains have not been released. -/
def History.unreleased (h : History) : Set ℕ :=
  { r | r < h.requests.length ∧ r ∉ (h.completed.take h.released).map Prod.fst }

def Caller.isSync : Caller → Bool
  | .handleInterrupt => false
  | .sync _ _ => true

namespace Machine

def enqueued (m : Machine) : Action → Option Request
  | .enqueue type queueIndex sector buffers token =>
    match (m.blk.doEnqueue type queueIndex sector buffers token).1 with
    | .ok _ => some (m.blk.newRequest buffers token)
    | .error _ => none
  | .sync type sector data =>
    let buffers : List IoVec := [⟨m.blk.virtToPhys data, sectorSize⟩]
    if data = 0 then none
    else
      match (m.blk.doEnqueue type 0 sector buffers 0).1 with
      | .ok _ => some (m.blk.newRequest buffers 0)
      | .error _ => none
  | _ => none

def used (m : Machine) : Action → Option (ℕ × UInt8)
  | .use entry _ => (m.device.written.find? fun w => w.1 = entry).map fun w => (w.1, w.2.2)
  | _ => none

def calledBack (m : Machine) : Action → Option Report
  | .next =>
    match m.pc with
    | .completing caller => m.blk.popCompletion.bind fun (c, blk) =>
      (blk.callbackArgs c).map fun (token, status) => ⟨caller.isSync, token, status⟩
    | _ => none
  | _ => none

end Machine

def History.record (m : Machine) (a : Action) (m' : Machine) (h : History) : History where
  requests := h.requests ++ (m.enqueued a).toList
  completed := h.completed ++ (m.used a).toList
  reported := h.reported ++ (m.calledBack a).toList
  released :=
    match a, m.pc with
    | .next, .callback _ _ => h.released + 1
    | _, _ => h.released
  handled :=
    match a, m.pc, m'.pc with
    | .next, .completing .handleInterrupt, .idle => h.completed.length
    | _, _, _ => h.handled
  current :=
    match a with
    | .sync _ _ _ => (m.enqueued a).map fun _ => h.requests.length
    | _ => h.current

attribute [simp] Machine.enqueued Machine.used Machine.calledBack History.record

def Action.isSilent : Action → Bool
  | .kick _ | .handleInterrupt | .fetch | .writeStatus _ _ | .setAvailEvent _ => true
  | _ => false

def recordedSystem : Transition (Machine × History) Action := blkSystem.recorded {} History.record

theorem History.unreleased_subset {h h' : History} (hrequests : h'.requests = h.requests)
    (hcompleted : h'.completed = h.completed) (hreleased : h.released ≤ h'.released) :
    h'.unreleased ⊆ h.unreleased := by
  intro r hr
  refine ⟨hrequests ▸ hr.1, fun hmem => hr.2 ?_⟩
  rw [hcompleted]
  exact map_subset _ (take_subset_take_left _ hreleased) hmem

/-! ## The way of a request -/

def History.flying (h : History) (d : Device) : List ℕ :=
  range' d.fetched (h.requests.length - d.fetched) ++ d.pending.map Prod.fst ++
    d.written.map Prod.fst ++ (h.completed.drop h.released).map Prod.fst

/-- Every request is where the device and the rings have it. -/
structure Tracked (b : VirtioBlk) (d : Device) (h : History) : Prop where
  size : ∃ k ≤ 15, b.vq.queueSize = 2 ^ k
  inFlight : InFlight b ((h.flying d).map h.request)
  stages : (d.pending.map Prod.fst ++ d.written.map Prod.fst ++ h.completed.map Prod.fst).Perm
    (range d.fetched)
  availIdx : b.vq.availIdx = h.requests.length % 2 ^ 16
  usedIdx : b.vq.usedIdx = h.completed.length % 2 ^ 16
  lastUsedIdx : b.vq.lastUsedIdx = h.reported.length % 2 ^ 16
  avail : Window b.vq.queueSize b.vq.availRing d.fetched h.requests.length
    fun r head => head = (h.request r).head
  used : Window b.vq.queueSize b.vq.usedRing h.reported.length h.completed.length
    fun k elem => ∀ c, h.completed[k]? = some c → elem.id = (h.request c.1).head
  pending : ∀ p ∈ d.pending, p.2 = (h.request p.1).head
  written : ∀ w ∈ d.written, w.2.1 = (h.request w.1).head ∧
    (b.slots (h.request w.1).slot).status = w.2.2
  completed : ∀ c ∈ h.completed.drop h.released, (b.slots (h.request c.1).slot).status = c.2
  reported : h.reported.map (fun r => (r.token, r.status)) =
    (h.completed.take h.reported.length).map fun c => ((h.request c.1).token, mapBlkStatus c.2)

def Progress (pc : Pc) (h : History) : Prop :=
  match pc with
  | .callback _ c => h.reported.length = h.released + 1 ∧
      ∀ d, h.completed[h.released]? = some d →
        c.slotIdx = (h.request d.1).slot ∧ c.head = (h.request d.1).head
  | _ => h.reported.length = h.released

namespace Tracked

variable {b b' : VirtioBlk} {d : Device} {h : History} {r : ℕ} {p : ℕ × ℕ} {c : ℕ × UInt8}

theorem mem_flying_of_pending (hp : p ∈ d.pending) : p.1 ∈ h.flying d := by
  simp only [History.flying, mem_append]
  exact .inl (.inl (.inr (mem_map_of_mem hp)))

theorem mem_flying_of_written {w : ℕ × ℕ × UInt8} (hw : w ∈ d.written) : w.1 ∈ h.flying d := by
  simp only [History.flying, mem_append]
  exact .inl (.inr (mem_map_of_mem hw))

theorem mem_flying_of_completed (hc : c ∈ h.completed.drop h.released) : c.1 ∈ h.flying d := by
  simp only [History.flying, mem_append]
  exact .inr (mem_map_of_mem hc)

section

variable (ht : Tracked b d h)
include ht

theorem lt_requests_of_completed (hc : c ∈ h.completed) : c.1 < h.requests.length := by
  have hmem := ht.stages.mem_iff.mp (mem_append_right _ (mem_map_of_mem hc))
  have hle := ht.avail.le
  have hlt := mem_range.mp hmem
  omega

theorem lt_requests (hr : r ∈ h.flying d) : r < h.requests.length := by
  have hle := ht.avail.le
  simp only [History.flying, append_assoc, mem_append] at hr
  have hstage : ∀ {r}, r ∈ d.pending.map Prod.fst ++ d.written.map Prod.fst ++
      h.completed.map Prod.fst → r < h.requests.length := by
    intro r hr
    have hlt := mem_range.mp (ht.stages.mem_iff.mp hr)
    omega
  rcases hr with hr | hr | hr | hr
  · rw [mem_range'_1] at hr
    omega
  · exact hstage (mem_append_left _ (mem_append_left _ hr))
  · exact hstage (mem_append_left _ (mem_append_right _ hr))
  · obtain ⟨c, hc, rfl⟩ := mem_map.mp hr
    exact ht.lt_requests_of_completed (mem_of_mem_drop hc)

theorem flying_append_perm :
    (h.flying d ++ (h.completed.take h.released).map Prod.fst).Perm (range h.requests.length) := by
  have hsplit : h.completed.map Prod.fst = (h.completed.take h.released).map Prod.fst ++
      (h.completed.drop h.released).map Prod.fst := by
    rw [← map_append, take_append_drop]
  have hlen : d.fetched + (h.requests.length - d.fetched) = h.requests.length :=
    Nat.add_sub_of_le ht.avail.le
  have hrange : range d.fetched ++ range' d.fetched (h.requests.length - d.fetched) =
      range h.requests.length := by
    have happend := range'_append_1 (s := 0) (m := d.fetched) (n := h.requests.length - d.fetched)
    rw [Nat.zero_add, hlen] at happend
    rw [range_eq_range', range_eq_range', happend]
  have hstages := ht.stages
  rw [hsplit] at hstages
  have hassoc : h.flying d ++ (h.completed.take h.released).map Prod.fst =
      range' d.fetched (h.requests.length - d.fetched) ++ (d.pending.map Prod.fst ++
        d.written.map Prod.fst ++ ((h.completed.drop h.released).map Prod.fst ++
          (h.completed.take h.released).map Prod.fst)) := by
    simp [History.flying]
  rw [hassoc, ← hrange]
  refine List.Perm.trans (List.Perm.append_left _ ?_) perm_append_comm
  exact (perm_append_comm.append_left _).trans hstages

theorem size_lt : b.vq.queueSize < 2 ^ 16 := by
  obtain ⟨k, hk, hsize⟩ := ht.size
  rw [hsize]
  exact Nat.pow_lt_pow_right (by decide) (by omega)

theorem mod_size (n : ℕ) : n % 2 ^ 16 % b.vq.queueSize = n % b.vq.queueSize := by
  obtain ⟨k, hk, hsize⟩ := ht.size
  rw [hsize]
  exact Nat.mod_mod_of_dvd _ (Nat.pow_dvd_pow 2 (by omega))

end

theorem flying_le (hfly : InFlight b ((h.flying d).map h.request)) :
    h.requests.length - d.fetched + d.pending.length + d.written.length +
      (h.completed.length - h.released) ≤ b.vq.queueSize := by
  have hlen := hfly.length_le
  simp only [History.flying, length_map, length_append, length_range', length_drop] at hlen
  exact hlen

section

variable (ht : Tracked b d h)
include ht

/-! ### The driver -/

theorem refused (hr : InFlight.Refused b b' ((h.flying d).map h.request)) : Tracked b' d h where
  size := hr.vq ▸ ht.size
  inFlight := hr.inFlight
  stages := ht.stages
  availIdx := hr.vq ▸ ht.availIdx
  usedIdx := hr.vq ▸ ht.usedIdx
  lastUsedIdx := hr.vq ▸ ht.lastUsedIdx
  avail := hr.vq ▸ ht.avail
  used := hr.vq ▸ ht.used
  pending := ht.pending
  written := by
    intro w hw
    rw [hr.status _ (mem_map_of_mem (mem_flying_of_written hw))]
    exact ht.written w hw
  completed := by
    intro c hc
    rw [hr.status _ (mem_map_of_mem (mem_flying_of_completed hc))]
    exact ht.completed c hc
  reported := ht.reported

theorem kick (queueIndex : ℕ) : Tracked (b.kick queueIndex) d h := by
  obtain ⟨hvq, -, -, hslots⟩ := b.kick_frame queueIndex
  exact ht.refused ⟨ht.inFlight.kick queueIndex, hvq, fun r _ => by rw [hslots]⟩

theorem updateUsedEvent : Tracked b.updateUsedEvent d h := by
  unfold VirtioBlk.updateUsedEvent
  split
  · exact { ht with inFlight := { ht.inFlight with part := { ht.inFlight.part with } } }
  · exact ht

end

theorem request_append (h : History) (new : Request) (hr : r < h.requests.length) :
    { h with requests := h.requests ++ [new] }.request r = h.request r := by
  exact getD_append _ _ _ _ hr

theorem request_append_self (h : History) (new : Request) :
    { h with requests := h.requests ++ [new] }.request h.requests.length = new := by
  simp [History.request]

theorem flying_append (h : History) (new : Request) (hle : d.fetched ≤ h.requests.length) :
    ({ h with requests := h.requests ++ [new] }.flying d).Perm (h.requests.length :: h.flying d) := by
  have hlen : (h.requests ++ [new]).length - d.fetched = h.requests.length - d.fetched + 1 := by
    rw [length_append, length_singleton]
    omega
  have hlast : d.fetched + (h.requests.length - d.fetched) = h.requests.length := by omega
  simp only [History.flying, hlen, range'_1_concat, hlast, append_assoc]
  exact perm_middle

theorem enqueued (ht : Tracked b d h) {new : Request}
    (he : InFlight.Enqueued b b' ((h.flying d).map h.request) new) :
    Tracked b' d { h with requests := h.requests ++ [new] } := by
  have hsize : b'.vq.queueSize = b.vq.queueSize := by rw [he.vq]; rfl
  have havail : b'.vq.availIdx = (b.vq.availIdx + 1) % 2 ^ 16 := by rw [he.vq]; rfl
  have hring : b'.vq.availRing =
      Function.update b.vq.availRing (b.vq.availIdx % b.vq.queueSize) new.head := by rw [he.vq]; rfl
  have hused : b'.vq.usedIdx = b.vq.usedIdx := by rw [he.vq]; rfl
  have husedRing : b'.vq.usedRing = b.vq.usedRing := by rw [he.vq]; rfl
  have hlast : b'.vq.lastUsedIdx = b.vq.lastUsedIdx := by rw [he.vq]; rfl
  have hreq := fun r hr => request_append h new (r := r) hr
  have hmap : (h.flying d).map { h with requests := h.requests ++ [new] }.request =
      (h.flying d).map h.request := map_congr_left fun r hr => hreq r (ht.lt_requests hr)
  have hperm := (flying_append h new ht.avail.le).map { h with requests := h.requests ++ [new] }.request
  rw [map_cons, hmap, request_append_self] at hperm
  have hfly := he.inFlight.perm hperm.symm
  have hlen := flying_le hfly
  simp only [length_append, length_singleton] at hlen
  have hreq' : ∀ c ∈ h.completed, { h with requests := h.requests ++ [new] }.request c.1 =
      h.request c.1 := fun c hc => hreq c.1 (ht.lt_requests_of_completed hc)
  have hstatus : ∀ r ∈ h.flying d,
      (b'.slots ({ h with requests := h.requests ++ [new] }.request r).slot).status =
        (b.slots (h.request r).slot).status := by
    intro r hr
    rw [hreq r (ht.lt_requests hr)]
    exact he.status _ (mem_map_of_mem hr)
  refine ⟨hsize ▸ ht.size, hfly, ht.stages, ?_, hused ▸ ht.usedIdx, hlast ▸ ht.lastUsedIdx, ?_, ?_,
    ?_, ?_, ?_, ?_⟩
  · rw [havail, ht.availIdx, length_append, length_singleton, Nat.mod_add_mod]
  · rw [hsize, hring, ht.availIdx, ht.mod_size, length_append, length_singleton]
    refine (ht.avail.imp ?_).push (by omega) ?_
    · intro r _ hr head hhead
      rw [hhead, hreq r hr]
    · rw [request_append_self]
  · rw [hsize, husedRing]
    refine ht.used.imp fun k _ _ elem helem c hc => ?_
    rw [hreq' c (mem_of_getElem? hc)]
    exact helem c hc
  · intro p hp
    rw [hreq _ (ht.lt_requests (mem_flying_of_pending hp))]
    exact ht.pending p hp
  · intro w hw
    have hfly := mem_flying_of_written (h := h) hw
    rw [hstatus _ hfly, hreq _ (ht.lt_requests hfly)]
    exact ht.written w hw
  · intro c hc
    rw [hstatus _ (mem_flying_of_completed hc)]
    exact ht.completed c hc
  · refine ht.reported.trans (map_congr_left fun c hc => ?_)
    rw [hreq' c (mem_of_mem_take hc)]

theorem popCompletion (ht : Tracked b d h) (hreleased : h.reported.length = h.released) :
    (h.reported.length = h.completed.length ∧ b.popCompletion = none) ∨
    ∃ c, h.completed[h.released]? = some c ∧ ∃ completion : VirtioBlk.Completion,
      completion.slotIdx = (h.request c.1).slot ∧ completion.head = (h.request c.1).head ∧
      ∃ b', b.popCompletion = some (completion, b') ∧
        b'.callbackArgs completion = some ((h.request c.1).token, mapBlkStatus c.2) ∧
        ∀ sync, Tracked b' d { h with reported := h.reported ++
          [⟨sync, (h.request c.1).token, mapBlkStatus c.2⟩] } := by
  have heq := ht.used.counter_eq_iff ht.size_lt
  rw [← ht.lastUsedIdx, ← ht.usedIdx] at heq
  by_cases hempty : h.reported.length = h.completed.length
  · left
    have hno : b.vq.hasUsed = false := by simp [SplitVirtqueue.hasUsed, heq.mpr hempty]
    simp [VirtioBlk.popCompletion, hno, hempty]
  right
  have hlt : h.reported.length < h.completed.length := lt_of_le_of_ne ht.used.le hempty
  have hhas : b.vq.hasUsed = true := by
    simp only [SplitVirtqueue.hasUsed, ne_eq, decide_eq_true_eq]
    exact fun h => hempty (heq.mp h)
  have hget := getElem?_eq_getElem hlt
  generalize h.completed[h.reported.length] = c at hget
  have hdrop : c ∈ h.completed.drop h.released := by
    rw [← hreleased]
    refine mem_of_getElem? (i := 0) ?_
    rw [getElem?_drop, Nat.add_zero, hget]
  have hfly := mem_map_of_mem (f := h.request) (mem_flying_of_completed (d := d) hdrop)
  have hid : b.nextUsed.id = (h.request c.1).head := by
    rw [VirtioBlk.nextUsed, ht.lastUsedIdx, ht.mod_size]
    exact ht.used.entry _ le_rfl hlt c hget
  have hhead : (h.request c.1).head % 2 ^ 16 = (h.request c.1).head := by
    have hlt := ht.inFlight.head_lt hfly
    have hsize := ht.size_lt
    exact Nat.mod_eq_of_lt (by omega)
  have hpop := VirtioBlk.popCompletion_eq hhas
  rw [hid, hhead, ht.inFlight.findSlot hfly] at hpop
  refine ⟨c, hreleased ▸ hget, _, rfl, rfl, _, hpop, ?_, fun sync => ?_⟩
  · rw [VirtioBlk.callbackArgs, if_pos (ht.inFlight.slot_lt hfly), (ht.inFlight.held _ hfly).2,
      ht.completed c hdrop]
  · have hlen : (h.reported ++ [(⟨sync, (h.request c.1).token, mapBlkStatus c.2⟩ : Report)]).length =
        h.reported.length + 1 := length_append
    refine ⟨ht.size, { ht.inFlight with part := { ht.inFlight.part with } },
      ht.stages, ht.availIdx, ht.usedIdx, ?_, ht.avail, ?_, ht.pending, ht.written, ht.completed, ?_⟩
    · simp only [hlen]
      rw [ht.lastUsedIdx, Nat.mod_add_mod]
    · simp only [hlen]
      exact ht.used.pop hlt
    · simp only [hlen]
      rw [map_append, ht.reported, take_add_one, hget, map_append]
      rfl

theorem release (ht : Tracked b d h) (hc : h.completed[h.released]? = some c)
    {completion : VirtioBlk.Completion} (hslot : completion.slotIdx = (h.request c.1).slot)
    (hhead : completion.head = (h.request c.1).head) :
    ∃ b', b.releaseCompletion completion = some b' ∧
      Tracked b' d { h with released := h.released + 1 } := by
  have hdrop : h.completed.drop h.released = c :: h.completed.drop (h.released + 1) := by
    rw [drop_eq_getElem?_toList_append, hc]
    rfl
  have hperm : (h.flying d).Perm (c.1 :: { h with released := h.released + 1 }.flying d) := by
    simp only [History.flying, hdrop, map_cons]
    exact perm_middle
  obtain ⟨b', hb', hfly, hrel⟩ := (ht.inFlight.perm (hperm.map h.request)).release hslot hhead
  obtain ⟨hslots, -, hvq⟩ := hrel
  generalize b'.vq.desc = desc, b'.vq.freeHead = freeHead, b'.vq.numFree = numFree at hvq
  refine ⟨b', hb', hvq ▸ ht.size, hfly, ht.stages, hvq ▸ ht.availIdx, hvq ▸ ht.usedIdx,
    hvq ▸ ht.lastUsedIdx, hvq ▸ ht.avail, hvq ▸ ht.used, ht.pending, hslots ▸ ht.written, ?_,
    ht.reported⟩
  intro c' hc'
  rw [hslots]
  apply ht.completed
  rw [hdrop]
  exact mem_cons_of_mem c hc'

/-! ### The device -/

variable {m m' : Machine} {entry : ℕ}

theorem fetch (ht : Tracked m.blk m.device h) (hs : m.fetch = some m') :
    m'.blk = m.blk ∧ m'.pc = m.pc ∧ Tracked m'.blk m'.device h := by
  have heq := ht.avail.counter_eq_iff ht.size_lt
  rw [← ht.availIdx] at heq
  obtain ⟨hne, ⟨⟩⟩ := Option.ite_none_left_eq_some.mp hs
  have hlt : m.device.fetched < h.requests.length :=
    lt_of_le_of_ne ht.avail.le fun h => hne (heq.mpr h)
  have hhead := ht.avail.entry _ le_rfl hlt
  rw [← ht.mod_size] at hhead
  obtain ⟨n, hn⟩ := Nat.exists_eq_add_of_lt hlt
  have hrange : h.requests.length - m.device.fetched = n + 1 := by omega
  have hrange' : h.requests.length - (m.device.fetched + 1) = n := by omega
  refine ⟨rfl, rfl, ht.size, ht.inFlight.perm (List.Perm.map _ ?_), ?_, ht.availIdx, ht.usedIdx,
    ht.lastUsedIdx, ht.avail.pop hlt, ht.used, ?_, ht.written, ht.completed, ht.reported⟩
  · simp only [History.flying, hrange, hrange', range'_succ, map_cons, append_assoc, cons_append]
    exact perm_middle.symm
  · rw [range_succ]
    exact (ht.stages.cons m.device.fetched).trans (perm_append_singleton _ _).symm
  · intro p hp
    rcases mem_cons.mp hp with rfl | hp
    · exact hhead
    · exact ht.pending p hp

theorem slot_ne (ht : Tracked b d h) {r' : ℕ} (hr : r ∈ h.flying d) (hr' : r' ∈ h.flying d)
    (hne : r ≠ r') : (h.request r).slot ≠ (h.request r').slot := by
  have hslots := ht.inFlight.slots
  rw [map_map] at hslots
  exact fun heq => hne (inj_on_of_nodup_map hslots hr hr' heq)

theorem perm_move {α : Type*} {l l' rest : List α} {a : α} (hp : l.Perm (a :: l')) :
    (l' ++ a :: rest).Perm (l ++ rest) :=
  perm_middle.trans (hp.symm.append_right rest)

theorem ne_of_pending (ht : Tracked b d h) (hp : p ∈ d.pending)
    (hr : r ∈ d.written.map Prod.fst ++ h.completed.map Prod.fst) : r ≠ p.1 := by
  have hnodup := ht.stages.nodup_iff.mpr nodup_range
  rw [append_assoc] at hnodup
  exact ((nodup_append.mp hnodup).2.2 p.1 (mem_map_of_mem hp) r hr).symm

theorem writeStatus (ht : Tracked m.blk m.device h) {status : UInt8}
    (hs : m.writeStatus entry status = some m') : m'.pc = m.pc ∧ Tracked m'.blk m'.device h := by
  unfold Machine.writeStatus at hs
  cases hfind : m.device.pending.find? fun p => p.1 = entry with
  | none =>
    rw [hfind] at hs
    cases hs
  | some p =>
    have hp := mem_of_find?_eq_some hfind
    have hfly := mem_flying_of_pending (h := h) hp
    obtain ⟨x, hx, haddr⟩ := ht.inFlight.lastDesc (mem_map_of_mem hfly)
    rw [← ht.pending p hp] at hx
    have hperm : (m.device.pending.map Prod.fst).Perm
        (p.1 :: (m.device.pending.erase p).map Prod.fst) := (perm_cons_erase hp).map Prod.fst
    simp only [hfind, hx, Option.map_some] at hs
    cases hs
    rw [haddr]
    have hslots := InFlight.writeByte_status m.blk (h.request p.1).slot
    have hother : ∀ r ∈ h.flying m.device, r ≠ p.1 →
        (Machine.writeByte m.blk (m.blk.slotBasePhys (h.request p.1).slot + offsetofStatus)
          status).slots (h.request r).slot = m.blk.slots (h.request r).slot := by
      intro r hr hne
      rw [hslots, if_neg (ht.slot_ne hr hfly hne)]
    have hmove : ((m.device.pending.erase p).map Prod.fst ++
        p.1 :: m.device.written.map Prod.fst).Perm
          (m.device.pending.map Prod.fst ++ m.device.written.map Prod.fst) := perm_move hperm
    refine ⟨rfl, ht.size, (ht.inFlight.writeByte _ _).perm (List.Perm.map _ ?_), ?_, ht.availIdx,
      ht.usedIdx, ht.lastUsedIdx, ht.avail, ht.used, ?_, ?_, ?_, ht.reported⟩
    · simp only [History.flying, append_assoc]
      refine List.Perm.append_left _ ?_
      rw [← append_assoc, ← append_assoc]
      exact hmove.symm.append_right _
    · exact (hmove.append_right _).trans ht.stages
    · intro p' hp'
      exact ht.pending p' (mem_of_mem_erase hp')
    · intro w hw
      rcases mem_cons.mp hw with rfl | hw
      · refine ⟨ht.pending p hp, ?_⟩
        rw [hslots, if_pos rfl]
      have hne := ht.ne_of_pending hp (mem_append_left _ (mem_map_of_mem hw))
      rw [hother w.1 (mem_flying_of_written hw) hne]
      exact ht.written w hw
    · intro c hc
      have hne := ht.ne_of_pending hp (mem_append_right _ (mem_map_of_mem (mem_of_mem_drop hc)))
      rw [hother c.1 (mem_flying_of_completed hc) hne]
      exact ht.completed c hc

theorem use (ht : Tracked m.blk m.device h) (hle : h.released ≤ h.reported.length)
    {len : ℕ} (hs : m.use entry len = some m') :
    m'.pc = m.pc ∧ ∃ c, m.used (.use entry len) = some c ∧
      Tracked m'.blk m'.device { h with completed := h.completed ++ [c] } := by
  unfold Machine.use at hs
  cases hfind : m.device.written.find? fun w => w.1 = entry with
  | none =>
    rw [hfind] at hs
    cases hs
  | some w =>
    have hw := mem_of_find?_eq_some hfind
    obtain ⟨hhead, hstatus⟩ := ht.written w hw
    have hperm : (m.device.written.map Prod.fst).Perm
        (w.1 :: (m.device.written.erase w).map Prod.fst) := (perm_cons_erase hw).map Prod.fst
    simp only [hfind] at hs
    cases hs
    have hdrop : (h.completed ++ [(w.1, w.2.2)]).drop h.released =
        h.completed.drop h.released ++ [(w.1, w.2.2)] :=
      drop_append_of_le_length (hle.trans ht.used.le)
    have hend : ∀ rest : List ℕ, ((m.device.written.erase w).map Prod.fst ++ (rest ++ [w.1])).Perm
        (m.device.written.map Prod.fst ++ rest) := by
      intro rest
      refine List.Perm.trans (List.Perm.append_left _ ?_) (perm_move hperm)
      exact perm_append_singleton _ _
    have hfly : InFlight m.blk (({ h with completed := h.completed ++ [(w.1, w.2.2)] }.flying
        { m.device with written := m.device.written.erase w }).map h.request) := by
      refine ht.inFlight.perm (List.Perm.map _ ?_)
      simp only [History.flying, hdrop, map_append, append_assoc]
      exact ((hend _).symm.append_left _).append_left _
    have hlen := flying_le (h := { h with completed := h.completed ++ [(w.1, w.2.2)] }) hfly
    simp only [length_append, length_singleton] at hlen
    have hroom : h.completed.length < h.reported.length + m.blk.vq.queueSize := by omega
    refine ⟨rfl, (w.1, w.2.2), by simp [hfind], ht.size,
      { hfly with part := { hfly.part with } }, ?_, ht.availIdx, ?_,
      ht.lastUsedIdx, ht.avail, ?_, ht.pending, ?_, ?_, ?_⟩
    · simp only [map_append, append_assoc]
      have hstages := ht.stages
      rw [append_assoc] at hstages
      exact ((hend _).append_left _).trans hstages
    · rw [length_append, length_singleton, ht.usedIdx, Nat.mod_add_mod]
    · rw [length_append, length_singleton, ht.usedIdx, ht.mod_size]
      refine (ht.used.imp fun k _ hk elem helem c hc => ?_).push hroom fun c hc => ?_
      · rw [getElem?_append_left hk] at hc
        exact helem c hc
      · rw [getElem?_concat_length] at hc
        cases hc
        exact hhead
    · intro w' hw'
      exact ht.written w' (mem_of_mem_erase hw')
    · intro c hc
      rw [hdrop, mem_append, mem_singleton] at hc
      rcases hc with hc | rfl
      · exact ht.completed c hc
      · exact hstatus
    · rw [take_append_of_le_length ht.used.le]
      exact ht.reported

end Tracked

namespace Progress

variable {b : VirtioBlk} {d : Device} {h : History} {pc : Pc}

theorem released_le (hp : Progress pc h) : h.released ≤ h.reported.length := by
  cases pc with
  | callback _ _ =>
    have hlen := hp.1
    omega
  | _ => exact hp.ge

theorem enqueued (hp : Progress pc h) (ht : Tracked b d h) (new : Request) :
    Progress pc { h with requests := h.requests ++ [new] } := by
  cases pc with
  | callback _ _ =>
    refine ⟨hp.1, fun c hc => ?_⟩
    rw [Tracked.request_append h new (ht.lt_requests_of_completed (mem_of_getElem? hc))]
    exact hp.2 c hc
  | _ => exact hp

theorem use (hp : Progress pc h) (ht : Tracked b d h) (c : ℕ × UInt8) :
    Progress pc { h with completed := h.completed ++ [c] } := by
  cases pc with
  | callback _ _ =>
    have hle := ht.used.le
    have hlen := hp.1
    have hlt : h.released < h.completed.length := by omega
    refine ⟨hp.1, fun c' hc' => hp.2 c' ?_⟩
    rwa [getElem?_append_left hlt] at hc'
  | _ => exact hp

end Progress

end SimpleKernel.Virtio
