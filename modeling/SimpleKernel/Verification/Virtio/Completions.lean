import SimpleKernel.Verification.Virtio.Requests

/-! Every completed request is reported once, with its token and status. -/

namespace SimpleKernel.Virtio

open List

/-- What holds in every state. -/
structure Served (m : Machine) (h : History) : Prop where
  tracked : Tracked m.blk m.device h
  progress : Progress m.pc h
  handled : h.handled ≤ h.reported.length

namespace Served

variable {m m' : Machine} {h : History}

theorem doEnqueue (hs : Served m h) (type : ReqType) (queueIndex sector : ℕ) (buffers : Buffers)
    (token : ℕ) :
    (∃ b', m.blk.doEnqueue type queueIndex sector buffers token = (.ok (), b') ∧
      Tracked b' m.device { h with requests := h.requests ++ [m.blk.newRequest buffers token] }) ∨
    ∃ e b', m.blk.doEnqueue type queueIndex sector buffers token = (.error e, b') ∧
      (e = .invalidArgument ∨ e = .noFreeDescriptors) ∧ Tracked b' m.device h := by
  rcases hs.tracked.inFlight.doEnqueue type queueIndex sector buffers.2 token with
    ⟨b', heq, he⟩ | ⟨e, b', heq, hcode, hr⟩
  · exact .inl ⟨b', heq, hs.tracked.enqueued he⟩
  · exact .inr ⟨e, b', heq, hcode, hs.tracked.refused hr⟩

variable {a : Action}

theorem record_of_silent (ha : a.isSilent) : History.record m a m' h = h := by
  cases a with
  | enqueue | sync | next | use => cases ha
  | _ =>
    simp

theorem release (hs : Served m h) {caller : Caller} {completion : VirtioBlk.Completion}
    (hpc : m.pc = .callback caller completion) :
    ∃ b', m.blk.releaseCompletion completion = some b' ∧
      Tracked b' m.device { h with released := h.released + 1 } := by
  have hprogress := hs.progress
  rw [hpc] at hprogress
  obtain ⟨hlen, hfound⟩ := hprogress
  have hlt : h.released < h.completed.length := by
    have hle := hs.tracked.used.le
    omega
  have hget := getElem?_eq_getElem hlt
  obtain ⟨hslot, hhead⟩ := hfound _ hget
  exact hs.tracked.release hget hslot hhead

theorem mem_flying_iff (hs : Served m h) {r : ℕ} : r ∈ h.flying m.device ↔ r ∈ h.unreleased := by
  have hperm := hs.tracked.flying_append_perm
  have hmem := hperm.mem_iff (a := r)
  rw [mem_append, mem_range] at hmem
  have hdisj := (nodup_append.mp (hperm.nodup_iff.mpr nodup_range)).2.2
  constructor
  · intro hr
    exact ⟨hmem.mp (.inl hr), fun hr' => hdisj r hr r hr' rfl⟩
  · intro hr
    exact (hmem.mpr hr.1).resolve_right hr.2

end Served

/-- What a step does to the place of the driver and to the record. -/
inductive Effect (h : History) : Pc → Action → Pc → History → Prop where
  | keep {pc : Pc} {a : Action} : Effect h pc a pc h
  | enqueue {pc : Pc} {type : ReqType} {queueIndex sector : ℕ} {buffers : Buffers} {token : ℕ}
      (new : Request) (hmay : pc = .idle ∨ ∃ c, pc = .callback .handleInterrupt c) :
      Effect h pc (.enqueue type queueIndex sector buffers token) pc
        { h with requests := h.requests ++ [new] }
  | interrupt : Effect h .idle .handleInterrupt (.completing .handleInterrupt) h
  | call {type : ReqType} {sector data : ℕ} (new : Request) (htoken : new.token = 0) :
      Effect h .idle (.sync type sector data) (.polling 0)
        { h with requests := h.requests ++ [new], current := some h.requests.length }
  | refuse {type : ReqType} {sector data : ℕ} {e : ErrorCode}
      (he : e = .invalidArgument ∨ e = .noFreeDescriptors) :
      Effect h .idle (.sync type sector data) (.returned (.error e)) { h with current := none }
  | poll {i : ℕ} : Effect h (.polling i) .next (.polling (i + 1)) h
  | polled {i : ℕ} : Effect h (.polling i) .next .polled h
  | found : Effect h .polled .next (.completing (.sync false .success)) h
  | timeout : Effect h .polled .next (.returned (.error .timeout)) h
  | pop (caller : Caller) {completion : VirtioBlk.Completion} (c : ℕ × UInt8)
      (hc : c ∈ h.completed) (hr : c.1 ∈ h.unreleased) :
      Effect h (.completing caller) .next
        (.callback (caller.call (some ((h.request c.1).token, mapBlkStatus c.2))) completion)
        { h with reported := h.reported ++
          [⟨caller.isSync, (h.request c.1).token, mapBlkStatus c.2⟩] }
  | handled : Effect h (.completing .handleInterrupt) .next .idle
      { h with handled := h.completed.length }
  | result {done : Bool} {result : ErrorCode} : Effect h (.completing (.sync done result)) .next
      (.returned (Machine.syncResult done result)) h
  | release (caller : Caller) {completion : VirtioBlk.Completion}
      (hle : { h with released := h.released + 1 }.unreleased ⊆ h.unreleased) :
      Effect h (.callback caller completion) .next (.completing caller)
        { h with released := h.released + 1 }
  | returned {result : Expected Unit} : Effect h (.returned result) .next .idle h
  | use {pc : Pc} {entry len : ℕ} (c : ℕ × UInt8)
      (hle : { h with completed := h.completed ++ [c] }.unreleased ⊆ h.unreleased) :
      Effect h pc (.use entry len) pc { h with completed := h.completed ++ [c] }

namespace Served

variable {m m' : Machine} {h : History} {a : Action}

variable (hs : Served m h)
include hs

theorem next (hstep : m.next = some m') :
    Effect h m.pc .next m'.pc (History.record m .next m' h) ∧
      Served m' (History.record m .next m' h) := by
  have hprogress := hs.progress
  have hquiet : m.calledBack .next = none → (∀ caller c, m.pc ≠ .callback caller c) →
      (m.pc = .completing .handleInterrupt → m'.pc ≠ .idle) →
      History.record m .next m' h = h := by
    intro hnone hcallback hhandled
    simp only [History.record, Machine.enqueued, Machine.used, hnone, Option.toList_none,
      append_nil]
    split
    · exact absurd ‹_› (hcallback _ _)
    split
    · exact absurd ‹_› (hhandled ‹_›)
    · rfl
  unfold Machine.next at hstep
  cases hpc : m.pc with
  | idle =>
    rw [hpc] at hstep
    cases hstep
  | polling i =>
    rw [hquiet (by simp [hpc]) (by simp [hpc]) (by simp [hpc])]
    simp only [hpc] at hstep hprogress
    split at hstep
    · cases hstep
      exact ⟨.poll, hs.tracked, hprogress, hs.handled⟩
    · cases hstep
      exact ⟨.polled, hs.tracked, hprogress, hs.handled⟩
  | polled =>
    rw [hquiet (by simp [hpc]) (by simp [hpc]) (by simp [hpc])]
    simp only [hpc] at hstep hprogress
    split at hstep
    · cases hstep
      exact ⟨.found, hs.tracked, hprogress, hs.handled⟩
    · cases hstep
      exact ⟨.timeout, hs.tracked, hprogress, hs.handled⟩
  | completing caller =>
    simp only [hpc] at hstep hprogress
    have hreleased : h.reported.length = h.released := hprogress
    rcases hs.tracked.popCompletion hreleased with ⟨hall, hpop⟩ |
      ⟨c, hc, completion, hslot, hhead, b', hpop, hargs, ht⟩
    · simp only [hpop] at hstep
      have ht := hs.tracked.updateUsedEvent
      cases caller with
      | handleInterrupt =>
        have hrec : ∀ m' : Machine, m'.pc = .idle →
            History.record m .next m' h = { h with handled := h.completed.length } := by
          intro m' hidle
          simp [hpc, hpop, hidle]
        cases hstep
        rw [hrec _ rfl]
        exact ⟨.handled, { ht with }, hreleased, hall.ge⟩
      | sync done result =>
        rw [hquiet (by simp [hpc, hpop]) (by simp [hpc]) (by simp [hpc])]
        cases hstep
        exact ⟨.result, ht, hreleased, hs.handled⟩
    · simp only [hpop] at hstep
      cases hstep
      have hrec : History.record m .next { m with
            blk := b', pc := .callback (caller.call (b'.callbackArgs completion)) completion } h =
          { h with reported := h.reported ++
            [⟨caller.isSync, (h.request c.1).token, mapBlkStatus c.2⟩] } := by
        simp [hpc, hpop, hargs]
      have hdrop : c ∈ h.completed.drop h.released := by
        refine mem_of_getElem? (i := 0) ?_
        rw [getElem?_drop, Nat.add_zero, hc]
      rw [hrec]
      simp only [hargs]
      refine ⟨.pop caller c (mem_of_getElem? hc)
        (hs.mem_flying_iff.mp (Tracked.mem_flying_of_completed hdrop)),
        ht caller.isSync, ⟨?_, ?_⟩, ?_⟩
      · rw [length_append, hreleased, length_singleton]
      · intro c' hc'
        obtain rfl := Option.some.inj (hc.symm.trans hc')
        exact ⟨hslot, hhead⟩
      · exact hs.handled.trans (length_append ▸ Nat.le_add_right _ _)
  | callback caller completion =>
    obtain ⟨b', hb', ht⟩ := hs.release hpc
    simp only [hpc, hb', Option.map_some] at hstep hprogress
    have hrec : History.record m .next m' h = { h with released := h.released + 1 } := by
      simp [hpc]
    rw [hrec]
    cases hstep
    exact ⟨.release caller (History.unreleased_subset rfl rfl (Nat.le_succ _)), ht, hprogress.1,
      hs.handled⟩
  | returned result =>
    rw [hquiet (by simp [hpc]) (by simp [hpc]) (by simp [hpc])]
    simp only [hpc] at hstep hprogress
    cases hstep
    exact ⟨.returned, hs.tracked, hprogress, hs.handled⟩

theorem sync (hpc : m.pc = .idle) (type : ReqType) (sector data : ℕ) :
    Effect h m.pc (.sync type sector data) (m.readWrite type sector data).pc
      (History.record m (.sync type sector data) (m.readWrite type sector data) h) ∧
    Served (m.readWrite type sector data)
      (History.record m (.sync type sector data) (m.readWrite type sector data) h) := by
  have hprogress := hs.progress
  rw [hpc] at hprogress ⊢
  by_cases h0 : data = 0
  · simp only [History.record, Machine.enqueued, Machine.used, Machine.calledBack, h0, if_true,
      Option.toList_none, append_nil, Machine.readWrite]
    exact ⟨.refuse (.inl rfl), { hs.tracked with }, hprogress, hs.handled⟩
  rcases hs.doEnqueue type 0 sector ⟨[⟨m.blk.virtToPhys data, sectorSize⟩], by simp⟩ 0 with
    ⟨b', heq, ht⟩ | ⟨e, b', heq, hcode, ht⟩
  · simp only [History.record, Machine.enqueued, Machine.used, Machine.calledBack, h0, if_false,
      heq, Option.toList_none, Option.toList_some, append_nil, Machine.readWrite,
      Machine.submitSyncRequest]
    exact ⟨.call _ rfl, { ht.kick 0 with }, hprogress, hs.handled⟩
  · simp only [History.record, Machine.enqueued, Machine.used, Machine.calledBack, h0, if_false,
      heq, Option.toList_none, append_nil, Machine.readWrite, Machine.submitSyncRequest]
    exact ⟨.refuse hcode, { ht with }, hprogress, hs.handled⟩

theorem effect (hstep : m.step a = some m') :
    Effect h m.pc a m'.pc (History.record m a m' h) ∧ Served m' (History.record m a m' h) := by
  cases a with
  | enqueue type queueIndex sector buffers token =>
    obtain ⟨hmay, ⟨⟩⟩ := Option.ite_none_right_eq_some.mp hstep
    rcases hs.doEnqueue type queueIndex sector buffers token with ⟨b', heq, ht⟩ | ⟨e, b', heq, -, ht⟩
    · simp only [History.record, Machine.enqueued, Machine.used, Machine.calledBack, heq,
        Option.toList_some, Option.toList_none, append_nil]
      refine ⟨.enqueue _ ?_, ht, hs.progress.enqueued hs.tracked _, hs.handled⟩
      simp only [Machine.mayEnqueue] at hmay
      split at hmay
      · exact .inl ‹_›
      · exact .inr ⟨_, ‹_›⟩
      · cases hmay
    · simp only [History.record, Machine.enqueued, Machine.used, Machine.calledBack, heq,
        Option.toList_none, append_nil]
      exact ⟨.keep, ht, hs.progress, hs.handled⟩
  | kick queueIndex =>
    rw [record_of_silent rfl]
    obtain ⟨-, ⟨⟩⟩ := Option.ite_none_right_eq_some.mp hstep
    exact ⟨.keep, hs.tracked.kick queueIndex, hs.progress, hs.handled⟩
  | handleInterrupt =>
    rw [record_of_silent rfl]
    simp only [Machine.step] at hstep
    split at hstep
    · rename_i hpc
      have hprogress := hs.progress
      rw [hpc] at hprogress ⊢
      cases hstep
      have ht := hs.tracked
      exact ⟨.interrupt, { ht with inFlight := { ht.inFlight with } }, hprogress, hs.handled⟩
    · cases hstep
  | sync type sector data =>
    obtain ⟨hpc, ⟨⟩⟩ := Option.ite_none_right_eq_some.mp hstep
    exact hs.sync hpc type sector data
  | next => exact hs.next hstep
  | fetch =>
    obtain ⟨-, hpc, ht⟩ := hs.tracked.fetch hstep
    rw [record_of_silent rfl, hpc]
    exact ⟨.keep, ht, hpc ▸ hs.progress, hs.handled⟩
  | writeStatus entry status =>
    obtain ⟨hpc, ht⟩ := hs.tracked.writeStatus hstep
    rw [record_of_silent rfl, hpc]
    exact ⟨.keep, ht, hpc ▸ hs.progress, hs.handled⟩
  | use entry len =>
    obtain ⟨hpc, c, hused, ht⟩ := hs.tracked.use hs.progress.released_le hstep
    have hle := hs.progress.released_le.trans hs.tracked.used.le
    simp only [History.record, Machine.enqueued, hused, Machine.calledBack, Option.toList_some,
      Option.toList_none, append_nil, hpc]
    refine ⟨.use c fun r hr => ⟨hr.1, ?_⟩, ht, hpc ▸ hs.progress.use hs.tracked c, hs.handled⟩
    have hrest := hr.2
    rwa [take_append_of_le_length hle] at hrest
  | setAvailEvent idx =>
    cases hstep
    rw [record_of_silent rfl]
    have ht := hs.tracked
    exact ⟨.keep, { ht with inFlight := { ht.inFlight with part := { ht.inFlight.part with } } },
      hs.progress, hs.handled⟩

theorem step (hstep : m.step a = some m') :
    Served m' (History.record m a m' h) := (hs.effect hstep).2

end Served

variable {m : Machine} {h : History}

theorem served_of_init (hinit : blkSystem.init m) : Served m {} := by
  obtain ⟨⟨queueSize, eventIdx, hq⟩, hbits, -, -, hdevice, hpc⟩ := hinit
  obtain ⟨hsize, hpart⟩ := SplitVirtqueue.create_partitioned hq
  obtain ⟨havail, hused, hlast, -⟩ := SplitVirtqueue.create_idx hq
  have hfly : InFlight m.blk [] := by
    refine ⟨hpart, nodup_nil, fun i => ?_, nofun, nofun⟩
    rw [hbits]
    simp
  have hwindow : ∀ {α : Type} (ring : ℕ → α) (R : ℕ → α → Prop),
      Window m.blk.vq.queueSize ring 0 0 R := fun ring R =>
    ⟨le_rfl, Nat.zero_le _, fun k _ hk => absurd hk (Nat.not_lt_zero k)⟩
  have htracked : Tracked m.blk {} {} :=
    ⟨hsize, hfly, .refl _, havail, hused, hlast, hwindow _ _, hwindow _ _, nofun, nofun, nofun, rfl⟩
  exact ⟨hdevice ▸ htracked, hpc ▸ rfl, le_rfl⟩

namespace Served

variable {m : Machine} {h : History}

theorem next_isSome (hs : Served m h) (hpc : m.pc ≠ .idle) : m.next.isSome := by
  unfold Machine.next
  cases hpc' : m.pc with
  | idle => exact absurd hpc' hpc
  | polling i | polled | completing caller =>
    simp only
    split
    · rfl
    · rfl
  | callback caller completion =>
    obtain ⟨b', hb', -⟩ := hs.release hpc'
    simp [hb']
  | returned result => rfl

end Served

/-! ## Asynchronous requests -/

/-- No `Read` and no `Write`. -/
def Action.isAsync : Action → Bool
  | .sync _ _ _ => false
  | _ => true

def Pc.isAsync : Pc → Bool
  | .idle | .completing .handleInterrupt | .callback .handleInterrupt _ => true
  | _ => false

/-- The callbacks of such a run are those of `HandleInterrupt`. -/
structure Asynchronous (m : Machine) (h : History) : Prop where
  pc : m.pc.isAsync
  reported : ∀ r ∈ h.reported, r.sync = false

theorem Asynchronous.effect {m' : Machine} {h' : History} {a : Action} (hm : Asynchronous m h)
    (ha : a.isAsync) (he : Effect h m.pc a m'.pc h') : Asynchronous m' h' := by
  obtain ⟨blk, device, pc⟩ := m
  obtain ⟨blk', device', pc'⟩ := m'
  obtain ⟨hpc, hreported⟩ := hm
  cases he with
  | keep | enqueue | use => exact ⟨hpc, hreported⟩
  | interrupt | handled => exact ⟨rfl, hreported⟩
  | call | refuse => cases ha
  | poll | polled | found | timeout | result | returned => cases hpc
  | pop caller c _ _ =>
    cases caller with
    | sync _ _ => cases hpc
    | handleInterrupt =>
      refine ⟨rfl, fun r hr => ?_⟩
      rcases mem_append.mp hr with hr | hr
      · exact hreported r hr
      · rw [mem_singleton.mp hr]
        rfl
  | release caller _ =>
    cases caller with
    | sync _ _ => cases hpc
    | handleInterrupt => exact ⟨rfl, hreported⟩

theorem Served.bijOn (hs : Served m h) :
    Set.BijOn (fun i => (m.blk.slots i).descHead) { i | m.blk.slotBitmap.getLsbD i }
      ((fun r => (h.request r).head) '' h.unreleased) := by
  have hfly := hs.tracked.inFlight
  have hbit : ∀ i, m.blk.slotBitmap.getLsbD i ↔ ∃ r ∈ h.unreleased, (h.request r).slot = i := by
    intro i
    rw [hfly.bits]
    simp [hs.mem_flying_iff]
  have hhead : ∀ r ∈ h.unreleased, (m.blk.slots (h.request r).slot).descHead = (h.request r).head := by
    intro r hr
    exact (hfly.held _ (mem_map_of_mem (hs.mem_flying_iff.mpr hr))).1
  refine ⟨?_, ?_, ?_⟩
  · intro i hi
    obtain ⟨r, hr, rfl⟩ := (hbit i).mp hi
    exact ⟨r, hr, (hhead r hr).symm⟩
  · intro i hi j hj heq
    obtain ⟨r, hr, rfl⟩ := (hbit i).mp hi
    obtain ⟨r', hr', rfl⟩ := (hbit j).mp hj
    simp only [hhead r hr, hhead r' hr'] at heq
    rw [hfly.eq_of_head (mem_map_of_mem (hs.mem_flying_iff.mpr hr))
      (mem_map_of_mem (hs.mem_flying_iff.mpr hr')) heq]
  · rintro _ ⟨r, hr, rfl⟩
    exact ⟨(h.request r).slot, (hbit _).mpr ⟨r, hr, rfl⟩, hhead r hr⟩

/-- In every run of `EnqueueRead`, `EnqueueWrite` and `HandleInterrupt`, the callbacks are called
for the first requests that the device completed, in this order, each with the token and the
status of its request. A request is completed once at most. When `HandleInterrupt` returns, all
requests completed until then have been reported; it never gets stuck. The set bits of
`slot_bitmap_` and the chains in flight correspond by `desc_head`. -/
theorem completions_reported {m : Machine} {h : History}
    (hr : recordedSystem.ReachableBy (fun _ a => a.isAsync) (m, h)) :
    (h.completed.map Prod.fst).Nodup ∧ (∀ c ∈ h.completed, c.1 < h.requests.length) ∧
    h.reported = (h.completed.take h.reported.length).map
      (fun c => ⟨false, (h.request c.1).token, mapBlkStatus c.2⟩) ∧
    h.handled ≤ h.reported.length ∧ (m.pc ≠ .idle → m.next.isSome) ∧
    (∀ r ∈ h.unreleased, SplitVirtqueue.Chain m.blk.vq.desc (h.request r).chain) ∧
    Set.InjOn (fun r => (h.request r).head) h.unreleased ∧
    Set.BijOn (fun i => (m.blk.slots i).descHead) { i | m.blk.slotBitmap.getLsbD i }
      ((fun r => (h.request r).head) '' h.unreleased) := by
  obtain ⟨hs, hasync⟩ : Served m h ∧ Asynchronous m h := by
    refine hr.recorded (P := fun m h => Served m h ∧ Asynchronous m h) ?_ ?_
    · intro m hinit
      have hidle : m.pc = .idle := hinit.2.2.2.2.2
      exact ⟨served_of_init hinit, by rw [hidle]; rfl, nofun⟩
    · rintro m h a m' ⟨hs, hm⟩ ha hstep
      obtain ⟨he, hs⟩ := hs.effect hstep
      exact ⟨hs, hm.effect ha he⟩
  refine ⟨?_, fun c hc => hs.tracked.lt_requests_of_completed hc, ?_, hs.handled, hs.next_isSome,
    ?_, ?_, hs.bijOn⟩
  · have hnodup := hs.tracked.stages.nodup_iff.mpr nodup_range
    exact (nodup_append.mp hnodup).2.1
  · have hpairs := congrArg (map fun p : ℕ × ErrorCode => (⟨false, p.1, p.2⟩ : Report))
      hs.tracked.reported
    rw [map_map, map_map] at hpairs
    refine Eq.trans (Eq.symm ?_) hpairs
    calc h.reported.map _ = h.reported.map id := map_congr_left fun r hr => by
          have hsync := hasync.reported r hr
          cases r
          cases hsync
          rfl
      _ = h.reported := map_id _
  · intro r hr
    exact hs.tracked.inFlight.chain (mem_map_of_mem (hs.mem_flying_iff.mpr hr))
  · intro r hr r' hr' heq
    have hmem := hs.mem_flying_iff.mpr hr
    have hmem' := hs.mem_flying_iff.mpr hr'
    have hreq := hs.tracked.inFlight.eq_of_head (mem_map_of_mem hmem) (mem_map_of_mem hmem') heq
    by_contra hne
    exact hs.tracked.slot_ne hmem hmem' hne (by rw [hreq])

def newMachine : Machine where
  blk := {
    vq := (SplitVirtqueue.create true 8 false).get (by decide)
    slotPhys := 4096
    slots := fun _ => {}
    virtToPhys := id }

theorem newMachine_init : recordedSystem.init (newMachine, {}) :=
  ⟨⟨⟨8, false, by simp [newMachine]⟩, rfl, rfl, rfl, rfl, rfl⟩, rfl⟩

def readFive : Action := .enqueue .kIn 0 5 ⟨[⟨1024, 512⟩], by decide⟩ 7

/-- Two requests are completed in the other order. -/
theorem completions_reported_two : ∃ m h,
    recordedSystem.ReachableBy (fun _ a => a.isAsync) (m, h) ∧ h.completed = [(1, 0), (0, 1)] ∧
      h.handled = 2 ∧ h.reported = [⟨false, 8, .success⟩, ⟨false, 7, .ioError⟩] := by
  obtain ⟨⟨m, h⟩, hr, hcompleted, htoken, htoken', hhandled, hlen⟩ :=
    recordedSystem.exists_of_run (fun _ a => a.isAsync)
    [readFive, .enqueue .kOut 0 9 ⟨[⟨2048, 512⟩], by decide⟩ 8,
      .fetch, .fetch, .writeStatus 1 0, .use 1 1, .writeStatus 0 1, .use 0 513, .handleInterrupt,
      .next, .next, .next, .next, .next]
    (fun p => p.2.completed = [(1, 0), (0, 1)] ∧ (p.2.request 0).token = 7 ∧
      (p.2.request 1).token = 8 ∧ p.2.handled = 2 ∧ p.2.reported.length = 2)
    newMachine_init (by decide +kernel)
  obtain ⟨-, -, hreported, -⟩ := completions_reported hr
  refine ⟨m, h, hr, hcompleted, hhandled, ?_⟩
  rw [hreported, hlen, hcompleted]
  simp only [take_succ_cons, take_zero, map_cons, map_nil, htoken, htoken']
  rfl

end SimpleKernel.Virtio
