import SimpleKernel.Verification.Virtio.Events

/-! With `avail_event` a `Kick` notifies the device if and only if one of the requests enqueued
since the `Kick` before has passed it. -/

namespace SimpleKernel.Virtio

variable {m m' : Machine} {h : History} {a : Action} {b : VirtioBlk} {n k event : ℕ}

/-- The state in which the step calls `Kick` on the queue, if it does. -/
def Machine.kickState (m : Machine) : Action → Option VirtioBlk
  | .kick queueIndex => if queueIndex = 0 then some m.blk else none
  | .sync type sector data =>
    if data = 0 then none
    else
      match m.blk.doEnqueue type 0 sector [⟨m.blk.virtToPhys data, sectorSize⟩] 0 with
      | (.ok _, b) => some b
      | (.error _, _) => none
  | _ => none

/-- The runs with their record and the number of the requests at the last `Kick` that has read
`avail_event`. -/
def kickSystem : Transition ((Machine × History) × ℕ) Action :=
  recordedSystem.recorded 0 fun p a p' k =>
    if (p.1.kickState a).any (·.vq.eventIdxEnabled) then p'.2.requests.length else k

/-- The index has passed `avail_event` between the requests `k` and `n`. -/
def Passed (event k n : ℕ) : Prop := ∃ j, k < j ∧ j ≤ n ∧ j % 2 ^ 16 = (event + 1) % 2 ^ 16

theorem vringNeedEvent_iff (hevent : event < 2 ^ 16) (hle : k ≤ n) (hlt : n - k < 2 ^ 16) :
    vringNeedEvent event (n % 2 ^ 16) (k % 2 ^ 16) ↔ Passed event k n := by
  simp only [vringNeedEvent, decide_eq_true_eq]
  constructor
  · intro hneed
    exact ⟨n - (n % 2 ^ 16 + 2 ^ 17 - event - 1) % 2 ^ 16, by omega, by omega, by omega⟩
  · rintro ⟨j, hj, hjn, heq⟩
    omega

/-! ## The index of the last `Kick` -/

namespace VirtioBlk

theorem kick_oldAvailIdx (b : VirtioBlk) : (b.kick 0).oldAvailIdx =
    if b.vq.eventIdxEnabled then b.vq.availIdx else b.oldAvailIdx := by
  by_cases he : b.vq.eventIdxEnabled
  · simp [kick, he]
  · simp [kick, he, notifyQueue]

theorem doEnqueue_oldAvailIdx (b : VirtioBlk) (type : ReqType) (queueIndex sector : ℕ)
    (buffers : List IoVec) (token : ℕ) :
    (b.doEnqueue type queueIndex sector buffers token).2.oldAvailIdx = b.oldAvailIdx := by
  unfold doEnqueue
  rcases b.takeSlot_cases queueIndex buffers with
    ⟨e, b', heq, -, rfl | rfl, -⟩ | ⟨i, heq, -, -, hlt, -⟩
  · rw [heq]
  · rw [heq]
    rfl
  · simp only [heq, freeRequestSlot, if_pos (show i < maxInflight from hlt)]
    split <;> rfl

theorem releaseCompletion_oldAvailIdx {b' : VirtioBlk} {c : Completion}
    (h : b.releaseCompletion c = some b') : b'.oldAvailIdx = b.oldAvailIdx := by
  obtain ⟨p, -, rfl⟩ := Option.map_eq_some_iff.mp h
  dsimp only
  split
  · unfold freeRequestSlot
    split <;> rfl
  · rfl

end VirtioBlk

theorem step_oldAvailIdx (hstep : m.step a = some m') :
    (∃ b, m.kickState a = some b ∧ m'.blk = b.kick 0 ∧ b.oldAvailIdx = m.blk.oldAvailIdx) ∨
      m.kickState a = none ∧ m'.blk.oldAvailIdx = m.blk.oldAvailIdx := by
  cases a with
  | enqueue type queueIndex sector buffers token =>
    simp only [Machine.step] at hstep
    split at hstep <;> cases hstep
    exact .inr ⟨rfl, m.blk.doEnqueue_oldAvailIdx type queueIndex sector buffers token⟩
  | kick queueIndex =>
    simp only [Machine.step] at hstep
    split at hstep <;> cases hstep
    by_cases h0 : queueIndex = 0
    · subst h0
      exact .inl ⟨_, rfl, rfl, rfl⟩
    · exact .inr ⟨if_neg h0, by simp [VirtioBlk.kick, if_pos h0]⟩
  | sync type sector data =>
    have hold := m.blk.doEnqueue_oldAvailIdx type 0 sector [⟨m.blk.virtToPhys data, sectorSize⟩] 0
    simp only [Machine.step] at hstep
    split at hstep <;> cases hstep
    simp only [Machine.kickState, Machine.readWrite, Machine.submitSyncRequest]
    by_cases h0 : data = 0
    · simp [h0]
    simp only [h0, if_false]
    generalize m.blk.doEnqueue type 0 sector _ 0 = r at hold ⊢
    obtain ⟨_ | _, b⟩ := r
    · exact .inr ⟨rfl, hold⟩
    · exact .inl ⟨b, rfl, rfl, hold⟩
  | next =>
    refine .inr ⟨rfl, ?_⟩
    simp only [Machine.step, Machine.next] at hstep
    split at hstep
    · cases hstep
    · split at hstep <;> (cases hstep; rfl)
    · split at hstep <;> (cases hstep; rfl)
    · split at hstep
      · rename_i hpop
        cases hstep
        rw [(VirtioBlk.popCompletion_eq_some hpop).2.2]
      cases hstep
      unfold VirtioBlk.updateUsedEvent
      split <;> rfl
    · obtain ⟨b', hrel, rfl⟩ := Option.map_eq_some_iff.mp hstep
      exact VirtioBlk.releaseCompletion_oldAvailIdx hrel
    · cases hstep
      rfl
  | handleInterrupt | fetch | use =>
    simp only [Machine.step, Machine.fetch, Machine.use] at hstep
    split at hstep <;> cases hstep
    exact .inr ⟨rfl, rfl⟩
  | writeStatus entry status =>
    simp only [Machine.step, Machine.writeStatus] at hstep
    split at hstep
    · cases hstep
    · obtain ⟨idx, -, rfl⟩ := Option.map_eq_some_iff.mp hstep
      exact .inr ⟨rfl, rfl⟩
  | setAvailEvent idx =>
    cases hstep
    exact .inr ⟨rfl, rfl⟩

/-! ## The notifications -/

/-- `old_avail_idx_` is the index at the last `Kick`. -/
structure Kicked (p : Machine × History) (k : ℕ) : Prop where
  served : Served p.1 p.2
  old : p.1.blk.oldAvailIdx = k % 2 ^ 16
  le : k ≤ p.2.requests.length

theorem Kicked.kick (hk : Kicked (m, h) k) (hstep : m.step a = some m')
    (hblk : m'.blk = b.kick 0) :
    b.vq.availIdx = (History.record m a m' h).requests.length % 2 ^ 16 ∧
      k ≤ (History.record m a m' h).requests.length := by
  constructor
  · rw [← (hk.served.step hstep).tracked.availIdx, hblk, (b.kick_frame 0).1]
  · exact hk.le.trans (by simp)

theorem kicked_of_reachable {p : (Machine × History) × ℕ} (hr : kickSystem.Reachable p) :
    Kicked p.1 p.2 := by
  refine Transition.ReachableBy.recorded (P := Kicked) ?_ ?_ hr
  · rintro ⟨m, h⟩ ⟨hinit, rfl⟩
    exact ⟨served_of_init hinit, hinit.2.2.1, le_rfl⟩
  · rintro ⟨m, h⟩ k a ⟨m', h'⟩ hk - hs
    obtain ⟨hstep, hh⟩ := Transition.step_recorded hs
    change h' = History.record m a m' h at hh
    subst hh
    have hserved := hk.served.step hstep
    rcases step_oldAvailIdx hstep with ⟨b, hb, hblk, hold⟩ | ⟨hb, hold⟩
    · obtain ⟨hidx, hle⟩ := hk.kick hstep hblk
      have hkick := b.kick_oldAvailIdx
      rw [← hblk, hidx, hold, hk.old] at hkick
      simp only [hb, Option.any_some]
      split_ifs with he
      · rw [if_pos he] at hkick
        exact ⟨hserved, hkick, le_rfl⟩
      · rw [if_neg he] at hkick
        exact ⟨hserved, hkick, hle⟩
    · simp only [hb, Option.any_none]
      exact ⟨hserved, hold.trans hk.old, hk.le.trans (by simp)⟩

/-- With `avail_event`, a `Kick` notifies the device exactly if one of the requests since the
`Kick` before has passed it, as long as they are fewer than `2 ^ 16`. -/
theorem kick_notifies_iff {k : ℕ} (hr : kickSystem.Reachable ((m, h), k))
    (hstep : m.step a = some m') (hb : m.kickState a = some b) (henabled : b.vq.eventIdxEnabled)
    (hevent : b.vq.availEvent < 2 ^ 16)
    (hlt : (History.record m a m' h).requests.length - k < 2 ^ 16) :
    m'.blk.notified = b.notified + 1 ∧
        Passed b.vq.availEvent k (History.record m a m' h).requests.length ∨
      m'.blk.notified = b.notified ∧
        ¬ Passed b.vq.availEvent k (History.record m a m' h).requests.length := by
  have hk := kicked_of_reachable hr
  rcases step_oldAvailIdx hstep with ⟨b', hb', hblk, hold⟩ | ⟨hb', -⟩
  · cases hb.symm.trans hb'
    obtain ⟨hidx, hle⟩ := hk.kick hstep hblk
    rw [← vringNeedEvent_iff hevent hle hlt, ← hidx, ← hk.old, ← hold, hblk]
    simp only [VirtioBlk.kick, henabled, ne_eq, not_true, if_false, if_true]
    split
    · exact .inl ⟨rfl, ‹_›⟩
    · exact .inr ⟨rfl, ‹_›⟩
  · rw [hb] at hb'
    cases hb'

/-- The device waits for the second request; the first `Kick` is elided, the second is not. -/
theorem kick_notifies_iff_second : ∃ m m' : Machine, ∃ h k,
    kickSystem.Reachable ((m, h), k) ∧ k = 1 ∧ m.step (.kick 0) = some m' ∧
      m.blk.vq.availEvent = 1 ∧ m.blk.notified = 0 ∧ m'.blk.notified = 1 := by
  obtain ⟨⟨⟨m, h⟩, k⟩, hr, rfl, hlen, hevent, henabled, hzero, m', hstep, hlen'⟩ :=
    kickSystem.exists_of_run (fun _ _ => True)
    [.setAvailEvent 1, readFive, .kick 0, .enqueue .kOut 0 9 ⟨[⟨2048, 512⟩], by decide⟩ 8]
    (fun p => p.2 = 1 ∧ p.1.2.requests.length = 2 ∧ p.1.1.blk.vq.availEvent = 1 ∧
      p.1.1.blk.vq.eventIdxEnabled ∧ p.1.1.blk.notified = 0 ∧
      ∃ m' ∈ p.1.1.step (.kick 0), (History.record p.1.1 (.kick 0) m' p.1.2).requests.length = 2)
    (s := ((newEventMachine.toMachine, {}), 0)) ⟨⟨newEventMachine_init.1.1, rfl⟩, rfl⟩
    (by decide +kernel)
  refine ⟨m, m', h, 1, hr, rfl, hstep, hevent, hzero, ?_⟩
  rcases kick_notifies_iff hr hstep rfl henabled (by rw [hevent]; decide)
    (by rw [hlen']; decide) with ⟨hnotified, -⟩ | ⟨-, hpassed⟩
  · rw [hnotified, hzero]
  · rw [hevent, hlen'] at hpassed
    exact absurd ⟨2, by decide, le_rfl, rfl⟩ hpassed

end SimpleKernel.Virtio
