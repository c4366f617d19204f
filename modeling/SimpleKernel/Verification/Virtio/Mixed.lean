import SimpleKernel.Verification.Virtio.Completions

/-! Synchronous and asynchronous requests in one run. `Read` and `Write` take every request that
is completed while they wait from the ring of used chains, also those of others. -/

namespace SimpleKernel.Virtio

open List

/-- The calls of callbacks of `HandleInterrupt` for the request. The calls are made for the
completed requests in their order. -/
def History.handlerReports (h : History) (r : ℕ) : List Report :=
  ((h.completed.zip h.reported).filter fun p => p.1.1 = r && !p.2.sync).map Prod.snd

/-- Asynchronous requests have a token, synchronous ones have none. -/
def Action.hasToken : Action → Bool
  | .enqueue _ _ _ _ token => token ≠ 0
  | _ => true

def VirtioBlk.noTokenInFlight (b : VirtioBlk) : Bool :=
  (range maxInflight).all fun i => !b.slotBitmap.getLsbD i || (b.slots i).token = 0

/-- `Read` and `Write` are called while no asynchronous request is in flight. -/
def Action.syncsApart (m : Machine) : Action → Bool
  | .sync _ _ _ => m.blk.noTokenInFlight
  | _ => true

/-! ## Tokens in flight -/

def History.Tokenless (h : History) : Prop := ∀ r ∈ h.unreleased, (h.request r).token = 0

def Pc.isSync : Pc → Bool
  | .polling _ | .polled | .completing (.sync _ _) | .callback (.sync _ _) _ => true
  | _ => false

/-- No asynchronous request is in flight while a synchronous one is waited for, so the callbacks
of synchronous requests are called for requests without a token. -/
structure Apart (m : Machine) (h : History) : Prop where
  waiting : m.pc.isSync → h.Tokenless
  reported : ∀ r ∈ h.reported, r.sync → r.token = 0

variable {m : Machine} {h : History}

theorem Served.tokenless (hs : Served m h) (hb : m.blk.noTokenInFlight) : h.Tokenless := by
  intro r hr
  have hmem : h.request r ∈ (h.flying m.device).map h.request :=
    mem_map_of_mem (hs.mem_flying_iff.mpr hr)
  have hfly := hs.tracked.inFlight
  have hbit := (hfly.bits _).mpr (mem_map_of_mem hmem)
  have hslot := all_eq_true.mp hb _ (mem_range.mpr (hfly.slot_lt hmem))
  rw [hbit, Bool.not_true, Bool.false_or, decide_eq_true_eq] at hslot
  rw [← (hfly.held _ hmem).2, hslot]

theorem Apart.effect {m' : Machine} {h' : History} {a : Action} (hm : Apart m h)
    (ha : ∀ type sector data, a = .sync type sector data → h.Tokenless)
    (he : Effect h m.pc a m'.pc h') : Apart m' h' := by
  obtain ⟨blk, device, pc⟩ := m
  obtain ⟨blk', device', pc'⟩ := m'
  obtain ⟨hwaiting, hreported⟩ := hm
  cases he with
  | keep => exact ⟨hwaiting, hreported⟩
  | enqueue new hmay =>
    refine ⟨fun hsync => ?_, hreported⟩
    rcases hmay with rfl | ⟨c, rfl⟩
    · cases hsync
    · cases hsync
  | interrupt | handled | returned | refuse | timeout | result =>
    refine ⟨fun hsync => ?_, hreported⟩
    cases hsync
  | poll | polled | found => exact ⟨fun _ => hwaiting rfl, hreported⟩
  | call new htoken =>
    refine ⟨fun _ r hr => ?_, hreported⟩
    have hlt := hr.1
    rw [length_append, length_singleton] at hlt
    simp only [History.request]
    by_cases hlt' : r < h.requests.length
    · rw [getD_append _ _ _ _ hlt']
      exact ha _ _ _ rfl r ⟨hlt', hr.2⟩
    obtain rfl : r = h.requests.length := by omega
    rw [getD_append_right _ _ _ _ le_rfl, Nat.sub_self]
    exact htoken
  | pop caller c _ hr =>
    cases caller with
    | handleInterrupt =>
      refine ⟨fun hsync => ?_, fun r hmem hsync => ?_⟩
      · cases hsync
      · rcases mem_append.mp hmem with hmem | hmem
        · exact hreported r hmem hsync
        · rw [mem_singleton.mp hmem] at hsync
          cases hsync
    | sync done result =>
      refine ⟨fun _ => hwaiting rfl, fun r hmem hsync => ?_⟩
      rcases mem_append.mp hmem with hmem | hmem
      · exact hreported r hmem hsync
      · rw [mem_singleton.mp hmem]
        exact hwaiting rfl c.1 hr
  | release caller hle =>
    refine ⟨fun hsync r hr => hwaiting ?_ r (hle hr), hreported⟩
    cases caller with
    | handleInterrupt => cases hsync
    | sync done result => rfl
  | use c hle => exact ⟨fun hsync r hr => hwaiting hsync r (hle hr), hreported⟩

/-! ## Exactly one report -/

theorem Served.length_handlerReports (hs : Served m h) {j : ℕ}
    {c : ℕ × UInt8} {report : Report} (hc : h.completed[j]? = some c)
    (hreport : h.reported[j]? = some report) (hsync : report.sync = false) :
    (h.handlerReports c.1).length = 1 := by
  have hnodup : (h.completed.map Prod.fst).Nodup :=
    (nodup_append.mp (hs.tracked.stages.nodup_iff.mpr nodup_range)).2.1
  have hmem : (c, report) ∈ h.completed.zip h.reported := by
    refine mem_of_getElem? (i := j) ?_
    rw [getElem?_zip_eq_some]
    exact ⟨hc, hreport⟩
  have hkeys : ((h.completed.zip h.reported).map fun p => p.1.1).Nodup := by
    have hfst : (h.completed.zip h.reported).map Prod.fst =
        h.completed.take (min h.completed.length h.reported.length) := by
      rw [zip_eq_zip_take_min]
      refine map_fst_zip ?_
      simp only [length_take]
      omega
    have hcomp : (fun p : (ℕ × UInt8) × Report => p.1.1) = Prod.fst ∘ Prod.fst := rfl
    rw [hcomp, ← map_map, hfst]
    exact hnodup.sublist ((take_sublist _ _).map _)
  have hcount : ((h.completed.zip h.reported).map fun p => p.1.1).count c.1 = 1 :=
    count_eq_one_of_mem hkeys (mem_map_of_mem (f := fun p => p.1.1) hmem)
  rw [History.handlerReports, length_map, ← countP_eq_length_filter, ← hcount, count, countP_map]
  refine countP_congr fun p hp => ?_
  simp only [Bool.and_eq_true, decide_eq_true_eq, Function.comp_apply, beq_iff_eq]
  constructor
  · exact fun hand => hand.1
  · intro heq
    obtain rfl := inj_on_of_nodup_map hkeys hp hmem heq
    exact ⟨rfl, by rw [hsync]; rfl⟩

/-- In every run in which `Read` and `Write` are called while no asynchronous request is in flight,
every asynchronous request that the device has completed and whose chain has been released was
reported to a callback of `HandleInterrupt` once. -/
theorem async_reported_once {m : Machine} {h : History}
    (hr : recordedSystem.ReachableBy (fun p a => a.hasToken ∧ a.syncsApart p.1) (m, h)) :
    ∀ c ∈ h.completed.take h.released, (h.request c.1).token ≠ 0 →
      (h.handlerReports c.1).length = 1 := by
  obtain ⟨hs, hm⟩ : Served m h ∧ Apart m h := by
    refine hr.recorded (P := fun m h => Served m h ∧ Apart m h) ?_ ?_
    · intro m hinit
      have hidle : m.pc = .idle := hinit.2.2.2.2.2
      refine ⟨served_of_init hinit, fun hsync => ?_, (by simp)⟩
      rw [hidle] at hsync
      cases hsync
    · rintro m h a m' ⟨hs, hm⟩ ⟨-, ha⟩ hstep
      obtain ⟨he, hs'⟩ := hs.effect hstep
      refine ⟨hs', hm.effect (fun type sector data hcall => ?_) he⟩
      subst hcall
      exact hs.tokenless ha
  intro c hc htoken
  obtain ⟨j, hj⟩ := mem_iff_getElem?.mp hc
  rw [getElem?_take] at hj
  obtain ⟨hlt, hget⟩ := Option.ite_none_right_eq_some.mp hj
  have hlen : j < h.reported.length := hlt.trans_le hs.progress.released_le
  have hreport := getElem?_eq_getElem hlen
  have hpair := congrArg (fun l => l[j]?) hs.tracked.reported
  simp only [getElem?_map, hreport, getElem?_take_of_lt hlen, hget, Option.map_some,
    Option.some.injEq, Prod.mk.injEq] at hpair
  refine hs.length_handlerReports hget hreport ?_
  by_contra hsync
  exact htoken (hpair.1 ▸ hm.reported _ (getElem_mem hlen) (by simpa using hsync))

/-- A `Read` between two asynchronous requests. -/
theorem async_reported_once_around : ∃ m h,
    recordedSystem.ReachableBy (fun p a => a.hasToken ∧ a.syncsApart p.1) (m, h) ∧
      h.completed = [(0, 0), (1, 0), (2, 0)] ∧ h.released = 3 ∧
      (h.handlerReports 0).length = 1 ∧ (h.handlerReports 2).length = 1 := by
  obtain ⟨⟨m, h⟩, hr, hcompleted, hreleased, htoken, htoken'⟩ :=
    recordedSystem.exists_of_run (fun p a => a.hasToken ∧ a.syncsApart p.1)
    [readFive, .fetch, .writeStatus 0 0, .use 0 513,
      .handleInterrupt, .next, .next, .next, .sync .kIn 3 2048, .next, .fetch, .writeStatus 1 0,
      .use 1 1, .next, .next, .next, .next, .next, .next,
      .enqueue .kOut 0 9 ⟨[⟨1024, 512⟩], by decide⟩ 8, .fetch, .writeStatus 2 0, .use 2 1,
      .handleInterrupt, .next, .next, .next]
    (fun p => p.2.completed = [(0, 0), (1, 0), (2, 0)] ∧ p.2.released = 3 ∧
      (p.2.request 0).token = 7 ∧ (p.2.request 2).token = 8)
    newMachine_init (by decide +kernel)
  have hmem : ∀ c ∈ [(0, 0), (1, 0), (2, 0)], c ∈ h.completed.take h.released := by
    rw [hcompleted, hreleased]
    exact fun c hc => hc
  refine ⟨m, h, hr, hcompleted, hreleased, ?_, ?_⟩
  · exact async_reported_once hr (0, 0) (hmem _ (by simp)) (by simp [htoken])
  · exact async_reported_once hr (2, 0) (hmem _ (by simp)) (by simp [htoken'])

/-- A `Read` that waits takes the completed asynchronous request, and its own callback is called
for it. -/
theorem read_swallows_completion : ¬ ∀ m h,
    recordedSystem.ReachableBy (fun _ a => a.hasToken) (m, h) →
      ∀ c ∈ h.completed.take h.released, (h.request c.1).token ≠ 0 →
        (h.handlerReports c.1).length = 1 := by
  intro hall
  obtain ⟨⟨m, h⟩, hr, hcompleted, hreleased, htoken, hreported⟩ :=
    recordedSystem.exists_of_run (fun _ a => a.hasToken)
    [readFive, .kick 0, .fetch, .sync .kIn 3 2048,
      .writeStatus 0 0, .use 0 513, .next, .next, .next, .next, .next]
    (fun p => p.2.completed = [(0, 0)] ∧ p.2.released = 1 ∧ (p.2.request 0).token = 7 ∧
      p.2.reported = [⟨true, 7, .success⟩])
    newMachine_init (by decide +kernel)
  dsimp only at hcompleted hreleased htoken hreported
  have hmem : (0, 0) ∈ h.completed.take h.released := by simp [hcompleted, hreleased]
  have hone := hall m h hr (0, 0) hmem (by simp [htoken])
  simp [History.handlerReports, hcompleted, hreported] at hone

end SimpleKernel.Virtio
