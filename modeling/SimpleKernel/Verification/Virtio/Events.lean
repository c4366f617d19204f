import SimpleKernel.Model.Virtio.HandleInterrupt
import SimpleKernel.Verification.Virtio.Completions

/-! No completion interrupt is lost if nothing is completed between the last check for used
elements and the store of `used_event`. -/

namespace SimpleKernel.Virtio

def EventMachine.record (e : EventMachine) (a : Action) (e' : EventMachine) (h : History) :
    History :=
  History.record e.toMachine a e'.toMachine h

def recordedEvents : Transition (EventMachine × History) Action :=
  eventSystem.recorded {} EventMachine.record

/-- While the driver is about to store `used_event`, the device completes no request unless an
interrupt is pending or the completion raises one. -/
def Action.keepsWindow (e : EventMachine) : Action → Bool
  | .use _ _ => e.stage ≠ .store || 0 < e.pending || e.needsEvent
  | _ => true

/-! ## Frames -/

namespace Machine

variable {m m' : Machine} {h : History} {entry : ℕ}

/-- The fields that the store of `used_event` is about. -/
structure SameEvent (m m' : Machine) : Prop where
  pc : m'.pc = m.pc
  enabled : m'.blk.vq.eventIdxEnabled = m.blk.vq.eventIdxEnabled
  usedEvent : m'.blk.vq.usedEvent = m.blk.vq.usedEvent

theorem use_sameEvent {len : ℕ} (hstep : m.use entry len = some m') : SameEvent m m' := by
  unfold use at hstep
  split at hstep
  · cases hstep
  · cases hstep
    exact ⟨rfl, rfl, rfl⟩

theorem writeStatus_sameEvent {status : UInt8}
    (hstep : m.writeStatus entry status = some m') : SameEvent m m' := by
  unfold writeStatus at hstep
  split at hstep
  · cases hstep
  · obtain ⟨idx, -, rfl⟩ := Option.map_eq_some_iff.mp hstep
    exact ⟨rfl, rfl, rfl⟩

end Machine

theorem freeChainLoop_enabled {fuel idx : ℕ} {q q' : SplitVirtqueue} {result : Expected Unit}
    (h : SplitVirtqueue.freeChainLoop fuel idx q = some (result, q')) :
    q'.eventIdxEnabled = q.eventIdxEnabled := by
  induction fuel generalizing idx q with
  | zero => cases h
  | succ fuel ih =>
    simp only [SplitVirtqueue.freeChainLoop] at h
    split at h
    · cases h
      rfl
    split at h
    · exact (ih h).trans rfl
    · cases h
      rfl

theorem releaseCompletion_enabled {b b' : VirtioBlk} {c : VirtioBlk.Completion}
    (h : b.releaseCompletion c = some b') : b'.vq.eventIdxEnabled = b.vq.eventIdxEnabled := by
  obtain ⟨result, hfree⟩ := VirtioBlk.releaseCompletion_eq_some h
  unfold SplitVirtqueue.freeChain at hfree
  split at hfree
  · rw [← (Prod.mk.inj (Option.some.inj hfree)).2]
  · exact freeChainLoop_enabled hfree

def Action.isOutside : Action → Bool
  | .handleInterrupt | .next | .sync _ _ _ => false
  | _ => true

variable {m : Machine} {h : History}

theorem Served.sameEvent {m' : Machine} {a : Action} (hs : Served m h)
    (ha : a.isOutside) (hstep : m.step a = some m') : Machine.SameEvent m m' := by
  cases a with
  | enqueue type queueIndex sector buffers token =>
    obtain ⟨-, ⟨⟩⟩ := Option.ite_none_right_eq_some.mp hstep
    rcases hs.tracked.inFlight.doEnqueue type queueIndex sector buffers.2 token with
      ⟨b', heq, he⟩ | ⟨e, b', heq, -, hr⟩
    · rw [heq]
      refine ⟨rfl, ?_, ?_⟩
      all_goals
        dsimp only
        rw [he.vq]
        rfl
    · rw [heq]
      exact ⟨rfl, by rw [hr.vq], by rw [hr.vq]⟩
  | kick queueIndex =>
    obtain ⟨-, ⟨⟩⟩ := Option.ite_none_right_eq_some.mp hstep
    have hvq := (m.blk.kick_frame queueIndex).1
    exact ⟨rfl, by rw [hvq], by rw [hvq]⟩
  | handleInterrupt | next | sync => cases ha
  | fetch =>
    obtain ⟨hblk, hpc, -⟩ := hs.tracked.fetch hstep
    exact ⟨hpc, by rw [hblk], by rw [hblk]⟩
  | writeStatus entry status => exact Machine.writeStatus_sameEvent hstep
  | use entry len => exact Machine.use_sameEvent hstep
  | setAvailEvent idx =>
    cases hstep
    exact ⟨rfl, rfl, rfl⟩

/-! ## The invariant -/

/-- Between the runs of the handler `used_event` is the number of the next element. If elements are
left when the handler is done, an interrupt is pending. -/
structure Attended (e : EventMachine) (h : History) : Prop where
  served : Served e.toMachine h
  enabled : e.blk.vq.eventIdxEnabled
  usedEvent : e.stage = .idle → e.blk.vq.usedEvent = h.reported.length % 2 ^ 16
  attended : e.stage = .idle ∨ e.stage = .store →
    h.reported.length = h.completed.length ∨ 0 < e.pending

theorem vringNeedEvent_next (n : ℕ) :
    vringNeedEvent (n % 2 ^ 16) ((n % 2 ^ 16 + 1) % 2 ^ 16) (n % 2 ^ 16) := by
  simp only [vringNeedEvent, decide_eq_true_eq]
  omega

theorem Served.length_eq_of_not_hasUsed (hs : Served m h)
    (hno : m.blk.vq.hasUsed = false) : h.reported.length = h.completed.length := by
  have heq := hs.tracked.used.counter_eq_iff hs.tracked.size_lt
  rw [← hs.tracked.lastUsedIdx, ← hs.tracked.usedIdx] at heq
  simp only [SplitVirtqueue.hasUsed, ne_eq, decide_eq_false_iff_not, not_not] at hno
  exact heq.mp hno

namespace Attended

variable {e e' : EventMachine} {h : History} {a : Action}

theorem outside (hat : Attended e h) (ha : a.isOutside) (hkeeps : a.keepsWindow e)
    (hstep : e.toMachine.step a = some m) :
    Attended { e with blk := m.blk, device := m.device, pending := e.pending + e.raised a }
      (History.record e.toMachine a m h) := by
  obtain ⟨hpc, henabled, hevent⟩ := hat.served.sameEvent ha hstep
  have hserved := hat.served.step hstep
  have hm : m = ⟨m.blk, m.device, e.stage.pc⟩ := by
    obtain ⟨blk, device, pc⟩ := m
    obtain rfl : pc = e.stage.pc := hpc
    rfl
  have hreported : (History.record e.toMachine a m h).reported = h.reported := by
    cases a with
    | handleInterrupt | next | sync => cases ha
    | _ => exact List.append_nil _
  refine ⟨hm ▸ hserved, henabled.trans hat.enabled, fun hidle => ?_, fun hstage => ?_⟩
  · rw [hreported]
    exact hevent.trans (hat.usedEvent hidle)
  · rw [hreported]
    rcases hat.attended hstage with heq | hpending
    · cases a with
      | use entry len =>
        right
        suffices hneeds : 0 < e.pending ∨ e.needsEvent by
          rcases hneeds with hpending | hneeds
          · exact Nat.add_pos_left hpending _
          · simp only [EventMachine.raised, hneeds, if_true]
            exact Nat.succ_pos _
        rcases hstage with hidle | hstore
        · right
          have hidx : e.blk.vq.usedIdx = h.completed.length % 2 ^ 16 := hat.served.tracked.usedIdx
          rw [EventMachine.needsEvent, hat.usedEvent hidle, hidx, heq]
          exact vringNeedEvent_next _
        · simpa [Action.keepsWindow, show e.stage = .store from hstore] using hkeeps
      | handleInterrupt | next | sync => cases ha
      | _ => exact .inl (heq.trans (congrArg List.length (List.append_nil _).symm))
    · exact .inr (Nat.add_pos_left hpending _)

theorem busy (hserved : Served e.toMachine h) (henabled : e.blk.vq.eventIdxEnabled)
    (hidle : e.stage ≠ .idle) (hstore : e.stage ≠ .store) : Attended e h :=
  ⟨hserved, henabled, fun h => absurd h hidle, fun h => h.elim (absurd · hidle) (absurd · hstore)⟩

theorem record_next (hpc : e.stage.pc = .polled) : e.record .next e' h = h := by
  simp [EventMachine.record, EventMachine.toMachine, hpc]

theorem next (hat : Attended e h) (hstep : e.next = some e') :
    Attended e' (e.record .next e' h) := by
  have hserved := hat.served
  have henabled := hat.enabled
  have hprogress := hserved.progress
  unfold EventMachine.next at hstep
  cases hstage : e.stage with
  | idle =>
    rw [hstage] at hstep
    cases hstep
  | check =>
    rw [record_next (by rw [hstage]; rfl)]
    simp only [EventMachine.toMachine, Stage.pc, hstage] at hstep hprogress
    cases hused : e.blk.vq.hasUsed with
    | true =>
      simp only [hused, if_true] at hstep
      cases hstep
      exact busy ⟨hserved.tracked, hprogress, hserved.handled⟩ henabled (by simp) (by simp)
    | false =>
      simp only [hused, Bool.false_eq_true, if_false] at hstep
      cases hstep
      exact ⟨⟨hserved.tracked, hprogress, hserved.handled⟩, henabled, (by simp),
        fun _ => .inl (hserved.length_eq_of_not_hasUsed hused)⟩
  | pop =>
    have hpc : e.toMachine.pc = .completing .handleInterrupt := by
      simp [EventMachine.toMachine, Stage.pc, hstage]
    simp only [hstage] at hstep
    rw [hpc] at hprogress
    cases hpop : e.blk.popCompletion with
    | none =>
      have hquiet : e.record .next { e with stage := .store } h = h := by
        have hpop : e.toMachine.blk.popCompletion = none := hpop
        have hpc' : ({ e with stage := .store } : EventMachine).toMachine.pc = .polled := rfl
        simp [EventMachine.record, hpc, hpc', hpop]
      simp only [hpop] at hstep
      cases hstep
      rw [hquiet]
      refine ⟨⟨hserved.tracked, hprogress, hserved.handled⟩, henabled, (by simp), fun _ => .inl ?_⟩
      rcases hserved.tracked.popCompletion hprogress with ⟨hall, -⟩ | ⟨_, _, _, _, _, b', hb', _⟩
      · exact hall
      · exact absurd (hpop.symm.trans hb') (by simp)
    | some p =>
      obtain ⟨c, b⟩ := p
      have hnext : e.toMachine.next =
          some { e with blk := b, stage := .callback c : EventMachine }.toMachine := by
        have hpop : e.toMachine.blk.popCompletion = some (c, b) := hpop
        simp only [Machine.next, hpc, hpop]
        rfl
      obtain ⟨-, -, rfl⟩ := VirtioBlk.popCompletion_eq_some hpop
      simp only [hpop] at hstep
      cases hstep
      exact busy (hserved.next hnext).2 henabled (by simp) (by simp)
  | callback c =>
    have hpc : e.toMachine.pc = .callback .handleInterrupt c := by
      simp [EventMachine.toMachine, Stage.pc, hstage]
    simp only [hstage] at hstep
    obtain ⟨b, hb, rfl⟩ := Option.map_eq_some_iff.mp hstep
    have hnext : e.toMachine.next = some { e.toMachine with
        blk := b, pc := .completing .handleInterrupt } := by
      have hb : e.toMachine.blk.releaseCompletion c = some b := hb
      simp [Machine.next, hpc, hb]
    obtain ⟨-, htracked, hprogress', hhandled⟩ := hserved.next hnext
    have hrecord : e.record .next { e with blk := b, stage := .check } h =
        History.record e.toMachine .next { e.toMachine with
          blk := b, pc := .completing .handleInterrupt } h := by
      simp [EventMachine.record, hpc]
    rw [hrecord]
    refine busy ⟨htracked, hprogress', hhandled⟩ ?_ (by simp) (by simp)
    exact (releaseCompletion_enabled hb).trans henabled
  | store =>
    rw [record_next (by rw [hstage]; rfl)]
    simp only [EventMachine.toMachine, Stage.pc, hstage] at hprogress
    simp only [hstage] at hstep
    cases hstep
    have hstore : e.blk.updateUsedEvent =
        { e.blk with vq := { e.blk.vq with usedEvent := e.blk.vq.lastUsedIdx } } := if_pos henabled
    refine ⟨⟨hserved.tracked.updateUsedEvent, hprogress, hserved.handled⟩, ?_, fun _ => ?_,
      fun _ => hat.attended (.inr hstage)⟩
    · rw [hstore]
      exact henabled
    · rw [hstore]
      exact hserved.tracked.lastUsedIdx

theorem step_outside (ha : a.isOutside) : e.step a = (e.toMachine.step a).map fun m =>
    { e with blk := m.blk, device := m.device, pending := e.pending + e.raised a } := by
  cases a with
  | handleInterrupt | next | sync => cases ha
  | _ => rfl

theorem step (hat : Attended e h) (hkeeps : a.keepsWindow e) (hstep : e.step a = some e') :
    Attended e' (e.record a e' h) := by
  cases a with
  | handleInterrupt =>
    simp only [EventMachine.step] at hstep
    split at hstep
    · rename_i hidle
      have hrecord : e.record .handleInterrupt e' h = h := Served.record_of_silent rfl
      have hprogress := hat.served.progress
      simp only [EventMachine.toMachine, Stage.pc, hidle.1] at hprogress
      rw [hrecord]
      cases hstep
      have ht := hat.served.tracked
      exact busy ⟨{ ht with inFlight := { ht.inFlight with } }, hprogress, hat.served.handled⟩
        hat.enabled (by simp) (by simp)
    · cases hstep
  | next => exact hat.next hstep
  | sync => cases hstep
  | enqueue | kick | fetch | writeStatus | use | setAvailEvent =>
    rw [step_outside rfl] at hstep
    obtain ⟨m, hm, rfl⟩ := Option.map_eq_some_iff.mp hstep
    exact hat.outside rfl hkeeps hm

end Attended

/-- In every run in which the device completes no request between the last check for used elements
and the store of `used_event`, unless an interrupt is pending or raised then, every used element
has been processed and its chain released whenever `HandleInterrupt` is not running and no
interrupt is pending. -/
theorem no_lost_interrupt {e : EventMachine} {h : History}
    (hr : recordedEvents.ReachableBy (fun p a => a.keepsWindow p.1) (e, h)) (hidle : e.stage = .idle)
    (hpending : e.pending = 0) :
    h.reported.length = h.completed.length ∧ h.released = h.completed.length := by
  have hat : Attended e h := by
    refine hr.recorded (P := Attended) ?_ ?_
    · rintro e ⟨hinit, henabled, -, -⟩
      refine ⟨served_of_init hinit, henabled, fun _ => ?_, fun _ => .inl rfl⟩
      obtain ⟨queueSize, eventIdx, hq⟩ := hinit.1
      exact (SplitVirtqueue.create_idx hq).2.2.2
    · exact fun e h a e' hat ha hstep => hat.step ha hstep
  have hprogress := hat.served.progress
  simp only [EventMachine.toMachine, Stage.pc, hidle] at hprogress
  rcases hat.attended (.inl hidle) with heq | hpos
  · exact ⟨heq, hprogress.symm.trans heq⟩
  · omega

def newEventMachine : EventMachine where
  blk := { newMachine.blk with vq := (SplitVirtqueue.create true 8 true).get (by decide) }

theorem newEventMachine_init : recordedEvents.init (newEventMachine, {}) :=
  ⟨⟨⟨⟨8, true, by simp [newEventMachine, EventMachine.toMachine]⟩, rfl, rfl, rfl, rfl, rfl⟩, rfl,
    rfl, rfl⟩, rfl⟩

/-- The second request is completed in the callback for the first. -/
theorem no_lost_interrupt_two : ∃ e h,
    recordedEvents.ReachableBy (fun p a => a.keepsWindow p.1) (e, h) ∧ e.stage = .idle ∧
      e.pending = 0 ∧ h.completed.length = 2 ∧ h.released = 2 := by
  obtain ⟨⟨e, h⟩, hr, hidle, hpending, hlen⟩ := recordedEvents.exists_of_run
    (fun p a => a.keepsWindow p.1)
    [readFive, .enqueue .kIn 0 9 ⟨[⟨2048, 512⟩], by decide⟩ 8,
      .fetch, .fetch, .writeStatus 0 0, .use 0 513, .handleInterrupt, .next, .next,
      .writeStatus 1 0, .use 1 513, .next, .next, .next, .next, .next, .next]
    (fun p => p.1.stage = .idle ∧ p.1.pending = 0 ∧ p.2.completed.length = 2)
    newEventMachine_init (by decide +kernel)
  exact ⟨e, h, hr, hidle, hpending, hlen, (no_lost_interrupt hr hidle hpending).2.trans hlen⟩

/-- The second request is completed after the last check and before the store: the device still
sees the old `used_event`, and the driver does not look again. -/
theorem interrupt_lost_before_store : ¬ ∀ e h, recordedEvents.Reachable (e, h) → e.stage = .idle →
    e.pending = 0 → h.reported.length = h.completed.length := by
  intro hall
  obtain ⟨⟨e, h⟩, hr, hidle, hpending, hcompleted, hreported⟩ :=
    recordedEvents.exists_of_run (fun _ _ => True)
    [readFive, .enqueue .kIn 0 9 ⟨[⟨2048, 512⟩], by decide⟩ 8,
      .fetch, .fetch, .writeStatus 0 0, .use 0 513, .handleInterrupt, .next, .next, .next, .next,
      .writeStatus 1 0, .use 1 513, .next]
    (fun p => p.1.stage = .idle ∧ p.1.pending = 0 ∧ p.2.completed.length = 2 ∧
      p.2.reported.length = 1)
    newEventMachine_init (by decide +kernel)
  have heq := hall e h hr hidle hpending
  dsimp only at hcompleted hreported
  omega

end SimpleKernel.Virtio
