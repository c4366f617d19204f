import SimpleKernel.Verification.Virtio.Completions

/-! What `Read` and `Write` return. They take the status of the last request that is completed
while they wait, so it is their own one if no other request is in flight. -/

namespace SimpleKernel.Virtio

def isDeviceError (e : ErrorCode) : Bool := e = .ioError || e = .notSupported || e = .deviceError

/-- The result is that of the request that the call enqueued. -/
def OwnOutcome (h : History) : Expected Unit → Prop
  | .ok _ => ∃ r, h.current = some r ∧ (r, 0) ∈ h.completed
  | .error e => isDeviceError e → ∃ r status, h.current = some r ∧ (r, status) ∈ h.completed ∧
      mapBlkStatus status = e

/-- `Read` and `Write` are called while no request is in flight. -/
def Action.callsAlone (m : Machine) : Action → Bool
  | .sync _ _ _ => m.blk.slotBitmap = 0#64
  | _ => true

/-- The request of the current call is the only one that may be in flight, and `result` is its
status if `done` is set. -/
structure Waiting (h : History) (done : Bool) (result : ErrorCode) : Prop where
  alone : ∃ r, h.current = some r ∧ ∀ r' ∈ h.unreleased, r' = r
  status : done → ∃ r status, h.current = some r ∧ (r, status) ∈ h.completed ∧
    mapBlkStatus status = result

def Synchronous (pc : Pc) (h : History) : Prop :=
  match pc with
  | .polling _ | .polled => Waiting h false .success
  | .completing (.sync done result) | .callback (.sync done result) _ => Waiting h done result
  | .returned result => OwnOutcome h result
  | _ => True

theorem mapBlkStatus_eq_success {status : UInt8} : mapBlkStatus status = .success ↔ status = 0 := by
  unfold mapBlkStatus
  split_ifs with h0 h1 h2 <;> simp [h0]

variable {h h' : History} {done : Bool} {result : ErrorCode}

theorem Waiting.ownOutcome
    (hw : Waiting h done result) : OwnOutcome h (Machine.syncResult done result) := by
  unfold Machine.syncResult
  cases done with
  | false =>
    intro he
    cases he
  | true =>
    obtain ⟨r, status, hr, hmem, rfl⟩ := hw.status rfl
    by_cases hsuccess : mapBlkStatus status = .success
    · simp only [Bool.not_true, Bool.false_eq_true, if_false, hsuccess, ne_eq, not_true_eq_false]
      exact ⟨r, hr, mapBlkStatus_eq_success.mp hsuccess ▸ hmem⟩
    simp only [Bool.not_true, Bool.false_eq_true, if_false, ne_eq, hsuccess, not_false_eq_true,
      if_true]
    exact fun _ => ⟨r, status, hr, hmem, rfl⟩

theorem OwnOutcome.mono {result : Expected Unit} (ho : OwnOutcome h result)
    (hcurrent : h'.current = h.current) (hcompleted : h.completed ⊆ h'.completed) :
    OwnOutcome h' result := by
  cases result with
  | ok _ =>
    obtain ⟨r, hr, hmem⟩ := ho
    exact ⟨r, hcurrent.trans hr, hcompleted hmem⟩
  | error e =>
    intro he
    obtain ⟨r, status, hr, hmem, hstatus⟩ := ho he
    exact ⟨r, status, hcurrent.trans hr, hcompleted hmem, hstatus⟩

theorem Waiting.mono (hw : Waiting h done result)
    (hcurrent : h'.current = h.current) (hunreleased : h'.unreleased ⊆ h.unreleased)
    (hcompleted : h.completed ⊆ h'.completed) : Waiting h' done result := by
  obtain ⟨r, hr, halone⟩ := hw.alone
  refine ⟨⟨r, hcurrent.trans hr, fun r' hr' => halone r' (hunreleased hr')⟩, fun hdone => ?_⟩
  obtain ⟨r, status, hr, hmem, hstatus⟩ := hw.status hdone
  exact ⟨r, status, hcurrent.trans hr, hcompleted hmem, hstatus⟩

theorem Synchronous.mono {pc : Pc} (hw : Synchronous pc h)
    (hcurrent : h'.current = h.current) (hunreleased : h'.unreleased ⊆ h.unreleased)
    (hcompleted : h.completed ⊆ h'.completed) : Synchronous pc h' := by
  cases pc with
  | idle => trivial
  | polling _ | polled => exact Waiting.mono hw hcurrent hunreleased hcompleted
  | completing caller | callback caller _ =>
    cases caller with
    | handleInterrupt => trivial
    | sync _ _ => exact Waiting.mono hw hcurrent hunreleased hcompleted
  | returned _ => exact OwnOutcome.mono hw hcurrent hcompleted

theorem Served.not_mem_unreleased {m : Machine} (hs : Served m h)
    (hbits : m.blk.slotBitmap = 0#64) (r : ℕ) : r ∉ h.unreleased := by
  intro hr
  have hmem : h.request r ∈ (h.flying m.device).map h.request :=
    List.mem_map_of_mem (hs.mem_flying_iff.mpr hr)
  have hbit := (hs.tracked.inFlight.bits _).mpr (List.mem_map_of_mem hmem)
  rw [hbits] at hbit
  simp at hbit

theorem Synchronous.effect {pc pc' : Pc} {a : Action} (hw : Synchronous pc h)
    (ha : ∀ type sector data, a = .sync type sector data → ∀ r, r ∉ h.unreleased)
    (he : Effect h pc a pc' h') : Synchronous pc' h' := by
  cases he with
  | keep | poll | polled | found => exact hw
  | enqueue new hmay =>
    rcases hmay with rfl | ⟨c, rfl⟩
    · trivial
    · trivial
  | interrupt | handled | returned => trivial
  | call new _ =>
    refine ⟨⟨h.requests.length, rfl, fun r hr => ?_⟩, (by simp)⟩
    have hlt := hr.1
    rw [List.length_append, List.length_singleton] at hlt
    by_contra hne
    exact ha _ _ _ rfl r ⟨by omega, hr.2⟩
  | refuse hcode =>
    intro he
    rcases hcode with rfl | rfl
    · cases he
    · cases he
  | timeout =>
    intro he
    cases he
  | pop caller c hc hr =>
    cases caller with
    | handleInterrupt => trivial
    | sync done result =>
      obtain ⟨r, hcurrent, halone⟩ := hw.alone
      refine ⟨⟨r, hcurrent, halone⟩, fun _ => ⟨r, c.2, hcurrent, ?_, rfl⟩⟩
      rw [← halone c.1 hr]
      exact hc
  | result => exact hw.ownOutcome
  | release caller hle =>
    cases caller with
    | handleInterrupt => trivial
    | sync done result => exact Waiting.mono hw rfl hle (List.Subset.refl _)
  | use c hle => exact hw.mono rfl hle (List.subset_append_left _ _)

/-- In every run in which `Read` and `Write` are called while no other request is in flight, they
return success only if the device has completed their own request with the status OK, and a
device error only if it has completed it with that status. -/
theorem sync_own_outcome {m : Machine} {h : History}
    (hr : recordedSystem.ReachableBy (fun p a => a.callsAlone p.1) (m, h)) {result : Expected Unit}
    (hpc : m.pc = .returned result) : OwnOutcome h result := by
  obtain ⟨-, hw⟩ : Served m h ∧ Synchronous m.pc h := by
    refine hr.recorded (P := fun m h => Served m h ∧ Synchronous m.pc h) ?_ ?_
    · intro m hinit
      have hidle : m.pc = .idle := hinit.2.2.2.2.2
      refine ⟨served_of_init hinit, ?_⟩
      simp only [hidle]
      trivial
    · rintro m h a m' ⟨hs, hw⟩ ha hstep
      obtain ⟨he, hs'⟩ := hs.effect hstep
      refine ⟨hs', hw.effect (fun type sector data hcall => ?_) he⟩
      subst hcall
      exact hs.not_mem_unreleased (of_decide_eq_true ha)
  rw [hpc] at hw
  exact hw

/-- A `Write` that the device completes with an error, after an asynchronous request has been
handled. -/
theorem sync_own_outcome_error : ∃ m h,
    recordedSystem.ReachableBy (fun p a => a.callsAlone p.1) (m, h) ∧
      m.pc = .returned (.error .ioError) ∧ h.requests.length = 2 ∧
      OwnOutcome h (.error .ioError) := by
  obtain ⟨⟨m, h⟩, hr, hp⟩ := recordedSystem.exists_of_run (fun p a => a.callsAlone p.1)
    [readFive, .fetch, .writeStatus 0 0, .use 0 513,
      .handleInterrupt, .next, .next, .next, .sync .kOut 3 2048, .next, .fetch, .writeStatus 1 1,
      .use 1 1, .next, .next, .next, .next, .next]
    (fun p => p.1.pc = .returned (.error .ioError) ∧ p.2.requests.length = 2)
    newMachine_init (by decide +kernel)
  exact ⟨m, h, hr, hp.1, hp.2, sync_own_outcome hr hp.1⟩

/-- `Read` returns success for an asynchronous request that the device completes while its own is
not even read. -/
theorem sync_of_other_request : ¬ ∀ m h result, recordedSystem.Reachable (m, h) →
    m.pc = .returned result → OwnOutcome h result := by
  intro hall
  obtain ⟨⟨m, h⟩, hr, hpc, hcurrent, hcompleted⟩ :=
    recordedSystem.exists_of_run (fun _ _ => True)
    [readFive, .fetch, .sync .kIn 3 2048, .writeStatus 0 0,
      .use 0 513, .next, .next, .next, .next, .next]
    (fun p => p.1.pc = .returned (.ok ()) ∧ p.2.current = some 1 ∧ p.2.completed = [(0, 0)])
    newMachine_init (by decide +kernel)
  obtain ⟨r, hr, hmem⟩ := hall m h _ hr hpc
  rw [hcurrent] at hr
  cases hr
  rw [hcompleted] at hmem
  cases List.mem_singleton.mp hmem

end SimpleKernel.Virtio
