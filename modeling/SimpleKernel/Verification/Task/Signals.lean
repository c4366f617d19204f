import SimpleKernel.Model.Task.Signals

/-! The signals that are sent stay pending until they are delivered, one by each call, in the order
of their numbers. -/

namespace SimpleKernel

open Function List

variable {m m' : SignalMachine} {call signum : ℕ} {pending blocked mask : BitVec 32}
  {c : SignalCall} {rest : List SignalCall}

/-! ## Masks -/

namespace SignalState

theorem getLsbD_setPending (s : SignalState) {signum i : ℕ} (hi : i < 32) :
    (s.setPending signum).pending.getLsbD i = (s.pending.getLsbD i || decide (i = signum)) := by
  by_cases h : signum = i
  · simp [setPending, h, hi]
  · simp [setPending, h, Ne.symm h]

theorem getLsbD_clearPending (s : SignalState) {signum i : ℕ} (hi : i < 32) :
    (s.clearPending signum).pending.getLsbD i = (s.pending.getLsbD i && decide (i ≠ signum)) := by
  by_cases h : signum = i
  · simp [clearPending, h, hi]
  · simp [clearPending, Ne.symm h, hi]

end SignalState

/-- The signal is the lowest one of the mask. Bit 0 is not a signal. -/
structure Lowest (mask : BitVec 32) (signum : ℕ) : Prop where
  valid : 1 ≤ signum ∧ signum < 32
  mem : mask.getLsbD signum = true
  le : ∀ i, 1 ≤ i → i < signum → mask.getLsbD i = false

def NoSignal (mask : BitVec 32) : Prop := ∀ i, 1 ≤ i → i < 32 → mask.getLsbD i = false

theorem noSignal_of_not_has (h : ¬ SignalState.hasDeliverableSignal { pending, blocked } = true) :
    NoSignal (pending &&& ~~~blocked) := by
  unfold SignalState.hasDeliverableSignal at h
  rw [decide_eq_true_eq, not_not] at h
  intro i _ _
  rw [h]
  exact BitVec.getLsbD_zero

theorem getNext_cases (pending blocked : BitVec 32) :
    SignalState.getNextDeliverableSignal { pending, blocked } = sigNone ∧
        NoSignal (pending &&& ~~~blocked) ∨
      SignalState.getNextDeliverableSignal { pending, blocked } ≠ sigNone ∧
        Lowest (pending &&& ~~~blocked)
          (SignalState.getNextDeliverableSignal { pending, blocked }) := by
  unfold SignalState.getNextDeliverableSignal
  generalize pending &&& ~~~blocked = mask
  cases hfind : (range' 1 (maxSignals - 1)).find? mask.getLsbD with
  | none =>
    left
    refine ⟨rfl, ?_⟩
    intro i hi hlt
    exact (Bool.not_eq_true' _).mp (find?_range'_eq_none.mp hfind i hi hlt)
  | some signum =>
    right
    obtain ⟨hmem, hrange, hbefore⟩ := find?_range'_eq_some.mp hfind
    have hvalid := mem_range'_1.mp hrange
    refine ⟨?_, hvalid, hmem, ?_⟩
    · exact Nat.ne_of_gt hvalid.1
    · intro i hi hlt
      exact (Bool.not_eq_true' _).mp (hbefore i hi hlt)

/-! ## Events -/

/-- `looked` tells which signals were pending and not blocked when a call loaded the pending ones.
`cleared` has the pending signals before and after. -/
inductive SignalEvent where
  | sent (signum : ℕ)
  | looked (call : ℕ) (deliverable : BitVec 32)
  | cleared (call signum : ℕ) (before after : BitVec 32)
  | delivered (call signum : ℕ)
  | returned (call : ℕ)
  deriving DecidableEq, Repr

def SignalEvent.call? : SignalEvent → Option ℕ
  | .sent _ => none
  | .looked call _ | .cleared call _ _ _ | .delivered call _ | .returned call => some call

def nextEvent (m m' : SignalMachine) : SignalCall → Option SignalEvent
  | .look call next (some pending) (some blocked) =>
    match SignalMachine.looked call next pending blocked with
    | none => some (.returned call)
    | some _ => none
  | .clear call signum => some (.cleared call signum m.signals.pending m'.signals.pending)
  | .deliver call signum => some (.delivered call signum)
  | .look .. | .mask .. | .strip => none

def signalEvent (m : SignalMachine) (a : SignalAction) (m' : SignalMachine) : Option SignalEvent :=
  match a, m.calls with
  | .sendSignal signum, _ => if SignalState.isValid signum then some (.sent signum.toNat) else none
  | .loadPending, .look call _ _ _ :: _ =>
    some (.looked call (m.signals.pending &&& ~~~m.signals.blocked))
  | .next, call :: _ => nextEvent m m' call
  | _, _ => none

def recordSignals (m : SignalMachine) (a : SignalAction) (m' : SignalMachine)
    (events : List SignalEvent) : List SignalEvent :=
  (signalEvent m a m').toList ++ events

def recordedSignals : Transition (SignalMachine × List SignalEvent) SignalAction :=
  signalSystem.recorded [] recordSignals

def traceOf (events : List SignalEvent) (call : ℕ) : List SignalEvent :=
  events.filter fun e => e.call? = some call

/-- What a call that has ended has done: it found no signal, in `HasDeliverableSignal` or in
`GetNextDeliverableSignal`, or it cleared and delivered the lowest one. -/
inductive Ended (call : ℕ) : List SignalEvent → Prop where
  | first {d : BitVec 32} (none : NoSignal d) : Ended call [.returned call, .looked call d]
  | second {d d₀ : BitVec 32} (none : NoSignal d) :
      Ended call [.returned call, .looked call d, .looked call d₀]
  | delivered {d d₀ before after : BitVec 32} {signum : ℕ} (lowest : Lowest d signum)
      (only : after = before &&& ~~~BitVec.twoPow 32 signum) :
      Ended call [.delivered call signum, .cleared call signum before after, .looked call d,
        .looked call d₀]

/-- How far a call is, and what it has done. -/
inductive Stage (mask : BitVec 32) : SignalCall → List SignalEvent → Prop where
  | first {call : ℕ} {blocked : Option (BitVec 32)} (same : ∀ b ∈ blocked, b = mask) :
      Stage mask (.look call false none blocked) []
  | firstLoaded {call : ℕ} {blocked : Option (BitVec 32)} {pending : BitVec 32}
      (same : ∀ b ∈ blocked, b = mask) :
      Stage mask (.look call false (some pending) blocked) [.looked call (pending &&& ~~~mask)]
  | second {call : ℕ} {blocked : Option (BitVec 32)} {d : BitVec 32}
      (same : ∀ b ∈ blocked, b = mask) :
      Stage mask (.look call true none blocked) [.looked call d]
  | secondLoaded {call : ℕ} {blocked : Option (BitVec 32)} {pending d : BitVec 32}
      (same : ∀ b ∈ blocked, b = mask) :
      Stage mask (.look call true (some pending) blocked)
        [.looked call (pending &&& ~~~mask), .looked call d]
  | clear {call signum : ℕ} {d d₀ : BitVec 32} (lowest : Lowest d signum) :
      Stage mask (.clear call signum) [.looked call d, .looked call d₀]
  | deliver {call signum : ℕ} {d d₀ before after : BitVec 32} (lowest : Lowest d signum)
      (only : after = before &&& ~~~BitVec.twoPow 32 signum) :
      Stage mask (.deliver call signum)
        [.cleared call signum before after, .looked call d, .looked call d₀]

/-! ## Steps -/

def SignalCall.call? : SignalCall → Option ℕ
  | .look call _ _ _ | .clear call _ | .deliver call _ => some call
  | .mask .. | .strip => none

/-- The mask blocks neither `SIGKILL` nor `SIGSTOP`. -/
structure Catchable (mask : BitVec 32) : Prop where
  kill : mask.getLsbD sigKill = false
  stop : mask.getLsbD sigStop = false

theorem catchable_and_not (mask : BitVec 32) : Catchable (mask &&& ~~~uncatchableMask) := by
  constructor
  all_goals simp [uncatchableMask, sigKill, sigStop]

theorem Catchable.and (h : Catchable mask) (set : BitVec 32) : Catchable (mask &&& set) := by
  constructor
  · rw [BitVec.getLsbD_and, h.kill, Bool.false_and]
  · rw [BitVec.getLsbD_and, h.stop, Bool.false_and]

theorem Catchable.or {set : BitVec 32} (h : Catchable mask) (hset : Catchable set) :
    Catchable (mask ||| set) := by
  constructor
  · rw [BitVec.getLsbD_or, h.kill, hset.kill, Bool.false_or]
  · rw [BitVec.getLsbD_or, h.stop, hset.stop, Bool.false_or]

/-- Only the outermost call may be one of `SetSignalMask`. -/
inductive Nested : List SignalCall → Prop where
  | nil : Nested []
  | mask {how : SignalMaskOp} {set : BitVec 32} (catchable : Catchable set) :
      Nested [.mask how set]
  | strip : Nested [.strip]
  | check {c : SignalCall} {rest : List SignalCall} (call : c.call? ≠ none) (nested : Nested rest) :
      Nested (c :: rest)

theorem Nested.tail (h : Nested (c :: rest)) : Nested rest := by
  cases h with
  | mask | strip => exact .nil
  | check _ nested => exact nested

/-- The call `c` goes on as `next`, or ends; `pending` is what is then pending. -/
inductive CallStep (s : SignalState) :
    SignalCall → Option SignalCall → BitVec 32 → Option SignalEvent → Prop where
  | loadPending {call : ℕ} {next : Bool} {blocked : Option (BitVec 32)} :
      CallStep s (.look call next none blocked) (some (.look call next (some s.pending) blocked))
        s.pending (some (.looked call (s.pending &&& ~~~s.blocked)))
  | loadBlocked {call : ℕ} {next : Bool} {pending : Option (BitVec 32)} :
      CallStep s (.look call next pending none) (some (.look call next pending (some s.blocked)))
        s.pending none
  | found {call : ℕ} {next : Bool} {pending blocked : BitVec 32} {c : SignalCall}
      (looked : SignalMachine.looked call next pending blocked = some c) :
      CallStep s (.look call next (some pending) (some blocked)) (some c) s.pending none
  | returned {call : ℕ} {next : Bool} {pending blocked : BitVec 32}
      (looked : SignalMachine.looked call next pending blocked = none) :
      CallStep s (.look call next (some pending) (some blocked)) none s.pending
        (some (.returned call))
  | clear {call signum : ℕ} :
      CallStep s (.clear call signum) (some (.deliver call signum))
        (s.clearPending signum).pending
        (some (.cleared call signum s.pending (s.clearPending signum).pending))
  | deliver {call signum : ℕ} :
      CallStep s (.deliver call signum) none s.pending (some (.delivered call signum))

/-- What the steps do, with their events. The mask changes while no call of `CheckPendingSignals`
is open. -/
inductive SignalStep (m : SignalMachine) : SignalMachine → Option SignalEvent → Prop where
  | idle : SignalStep m m none
  | sent {signum : ℕ} (valid : signum < 32) :
      SignalStep m { m with signals := m.signals.setPending signum } (some (.sent signum))
  | check : SignalStep m
      { m with calls := .look m.started false none none :: m.calls, started := m.started + 1 } none
  | call {c : SignalCall} {rest : List SignalCall} {next : Option SignalCall} {pending : BitVec 32}
      {e : Option SignalEvent} {exited : Bool} (calls : m.calls = c :: rest)
      (step : CallStep m.signals c next pending e) :
      SignalStep m
        { m with signals := { m.signals with pending }, calls := next.toList ++ rest, exited } e
  | mask {calls : List SignalCall} {blocked : BitVec 32}
      (ids : m.calls.filterMap SignalCall.call? = []) (ids' : calls.filterMap SignalCall.call? = [])
      (nested : Nested calls) (catchable : Catchable blocked) :
      SignalStep m { m with signals := { m.signals with blocked }, calls } none

theorem nextStep_cases (hnested : Nested m.calls) (hcatchable : Catchable m.signals.blocked)
    (hcalls : m.calls = c :: rest)
    (hs : m.nextStep c rest = some m') : SignalStep m m' (nextEvent m m' c) := by
  have hids : c.call? = none →
      m.calls.filterMap SignalCall.call? = rest.filterMap SignalCall.call? :=
    fun hc => hcalls ▸ filterMap_cons_none hc
  cases c with
  | look call next pending blocked =>
    cases pending with
    | none => cases hs
    | some pending =>
      cases blocked with
      | none => cases hs
      | some blocked =>
        cases hs
        simp only [nextEvent]
        cases hlooked : SignalMachine.looked call next pending blocked with
        | none => exact .call hcalls (.returned hlooked)
        | some c => exact .call hcalls (.found hlooked)
  | clear call signum =>
    cases hs
    exact .call hcalls .clear
  | deliver call signum =>
    cases hs
    exact .call hcalls .deliver
  | mask how set =>
    specialize hids rfl
    rw [hcalls] at hnested
    cases hnested with
    | check call => exact absurd rfl call
    | mask hset =>
      cases how with
      | sigBlock =>
        cases hs
        exact .mask hids rfl .strip (hcatchable.or hset)
      | sigUnblock =>
        cases hs
        exact .mask hids rfl .strip (hcatchable.and _)
      | sigSetmask =>
        cases hs
        exact .mask hids rfl .strip hset
      | other =>
        cases hs
        exact .mask hids rfl .nil hcatchable
  | strip =>
    specialize hids rfl
    rw [hcalls] at hnested
    cases hs
    cases hnested with
    | check call => exact absurd rfl call
    | strip => exact .mask hids rfl .nil (catchable_and_not _)

theorem step_cases (hnested : Nested m.calls) (hcatchable : Catchable m.signals.blocked)
    {a : SignalAction} (hs : m.step a = some m') : SignalStep m m' (signalEvent m a m') := by
  unfold SignalMachine.step at hs
  split at hs
  · rename_i signum
    simp only [signalEvent]
    split_ifs at hs with hvalid
    · cases hs
      have hbound : 1 ≤ signum ∧ signum < 32 := decide_eq_true_eq.mp hvalid
      rw [if_pos hvalid]
      exact .sent (by omega)
    · cases hs
      rw [if_neg hvalid]
      exact .idle
  · rename_i how set
    obtain ⟨hidle, ⟨⟩⟩ := Option.ite_none_right_eq_some.mp hs
    exact .mask (by rw [hidle.2]; rfl) rfl (.mask (catchable_and_not set)) hcatchable
  · obtain ⟨-, ⟨⟩⟩ := Option.ite_none_right_eq_some.mp hs
    exact .check
  all_goals
    split at hs
    case h_2 => cases hs
    rename_i hcalls
  · cases hs
    simp only [signalEvent, hcalls]
    exact .call hcalls .loadPending
  · cases hs
    exact .call hcalls .loadBlocked
  · simp only [signalEvent, hcalls]
    exact nextStep_cases hnested hcatchable hcalls hs

/-! ## The calls of a run -/

variable {events : List SignalEvent} {blocked : BitVec 32} {calls rest : List SignalCall}
  {started : ℕ} {trace : ℕ → List SignalEvent} {s : SignalState} {c : SignalCall}
  {next : Option SignalCall} {pending : BitVec 32} {e : Option SignalEvent}

/-- The open calls, the latest first, and what the calls have done. -/
structure Traced (blocked : BitVec 32) (calls : List SignalCall) (started : ℕ)
    (trace : ℕ → List SignalEvent) : Prop where
  catchable : Catchable blocked
  nested : Nested calls
  sorted : (started :: calls.filterMap SignalCall.call?).Pairwise (· > ·)
  stages : ∀ c ∈ calls, ∀ call ∈ c.call?, Stage blocked c (trace call)
  ended : ∀ call < started, call ∉ calls.filterMap SignalCall.call? → Ended call (trace call)
  later : ∀ call, started ≤ call → trace call = []

theorem traceOf_append (h : ∀ x ∈ e, x.call? = some call) : traceOf (e.toList ++ events) =
    update (traceOf events) call (e.toList ++ traceOf events call) := by
  cases e with
  | none => exact (update_eq_self call (traceOf events)).symm
  | some e =>
    have he : e.call? = some call := h e rfl
    funext x
    by_cases hx : x = call
    · simp [traceOf, he, hx]
    · simp [traceOf, he, hx, Ne.symm hx]

theorem CallStep.call_ne_none (h : CallStep s c next pending e) : c.call? ≠ none := by
  cases h <;> exact nofun

theorem looked_stage {next : Bool} {trace : List SignalEvent}
    (hstage : Stage mask (.look call next (some pending) (some blocked)) trace) :
    (∀ c, SignalMachine.looked call next pending blocked = some c →
      c.call? = some call ∧ Stage mask c trace) ∧
    (SignalMachine.looked call next pending blocked = none →
      Ended call (.returned call :: trace)) := by
  unfold SignalMachine.looked
  cases hstage with
  | firstLoaded same =>
    simp only [Bool.not_false, if_true]
    split
    · refine ⟨?_, nofun⟩
      rintro _ ⟨⟩
      exact ⟨rfl, .second nofun⟩
    · rename_i hhas
      rw [← same blocked rfl]
      exact ⟨nofun, fun _ => .first (noSignal_of_not_has hhas)⟩
  | secondLoaded same =>
    simp only [Bool.not_true, Bool.false_eq_true, if_false]
    rw [← same blocked rfl]
    obtain ⟨hnone, hnoSignal⟩ | ⟨hsome, hlowest⟩ := getNext_cases pending blocked
    · rw [if_pos hnone]
      exact ⟨nofun, fun _ => .second hnoSignal⟩
    · rw [if_neg hsome]
      refine ⟨?_, nofun⟩
      rintro _ ⟨⟩
      exact ⟨rfl, .clear hlowest⟩

theorem CallStep.stage (h : CallStep s c next pending e) (hcall : c.call? = some call)
    {trace : List SignalEvent} (hstage : Stage s.blocked c trace) :
    (∀ x ∈ e, x.call? = some call) ∧
      (∀ x ∈ next, x.call? = some call ∧ Stage s.blocked x (e.toList ++ trace)) ∧
      (next = none → Ended call (e.toList ++ trace)) := by
  cases h with
  | loadPending =>
    refine ⟨?_, ?_, nofun⟩
    · rintro _ ⟨⟩
      exact hcall
    · rintro _ ⟨⟩
      cases hstage with
      | first same => exact ⟨hcall, .firstLoaded same⟩
      | second same => exact ⟨hcall, .secondLoaded same⟩
  | loadBlocked =>
    have hsame : ∀ b ∈ some s.blocked, b = s.blocked := fun _ hb => (Option.some.inj hb).symm
    refine ⟨nofun, ?_, nofun⟩
    rintro _ ⟨⟩
    cases hstage with
    | first => exact ⟨hcall, .first hsame⟩
    | firstLoaded => exact ⟨hcall, .firstLoaded hsame⟩
    | second => exact ⟨hcall, .second hsame⟩
    | secondLoaded => exact ⟨hcall, .secondLoaded hsame⟩
  | found hlooked =>
    cases hcall
    refine ⟨nofun, ?_, nofun⟩
    rintro _ ⟨⟩
    exact (looked_stage hstage).1 _ hlooked
  | returned hlooked =>
    cases hcall
    refine ⟨?_, nofun, fun _ => (looked_stage hstage).2 hlooked⟩
    rintro _ ⟨⟩
    rfl
  | clear =>
    refine ⟨?_, ?_, nofun⟩
    · rintro _ ⟨⟩
      exact hcall
    · rintro _ ⟨⟩
      cases hstage with
      | clear lowest => exact ⟨hcall, .deliver lowest rfl⟩
  | deliver =>
    cases hcall
    refine ⟨?_, nofun, fun _ => ?_⟩
    · rintro _ ⟨⟩
      rfl
    · cases hstage with
      | deliver lowest only => exact .delivered lowest only

namespace Traced

theorem advance (h : Traced s.blocked (c :: rest) started (traceOf events))
    (hstep : CallStep s c next pending e) :
    Traced s.blocked (next.toList ++ rest) started (traceOf (e.toList ++ events)) := by
  obtain ⟨call, hcall⟩ := Option.ne_none_iff_exists'.mp hstep.call_ne_none
  obtain ⟨hevent, hnext, hended⟩ := hstep.stage hcall (h.stages c mem_cons_self call hcall)
  have hsorted := h.sorted
  rw [filterMap_cons_some hcall] at hsorted
  have hlt := rel_of_pairwise_cons hsorted mem_cons_self
  have hnot : call ∉ rest.filterMap SignalCall.call? := fun hmem =>
    Nat.lt_irrefl _ (rel_of_pairwise_cons (pairwise_cons.mp hsorted).2 hmem)
  have hids : (next.toList ++ rest).filterMap SignalCall.call? =
      (next.map fun _ => call).toList ++ rest.filterMap SignalCall.call? := by
    cases next with
    | none => rfl
    | some x => simp [(hnext x rfl).1]
  rw [traceOf_append hevent]
  constructor
  case catchable => exact h.catchable
  case nested =>
    cases next with
    | none => exact h.nested.tail
    | some x => exact .check (by rw [(hnext x rfl).1]; exact nofun) h.nested.tail
  case sorted =>
    rw [hids]
    refine hsorted.sublist (.cons_cons _ ?_)
    cases next with
    | none => exact sublist_cons_self ..
    | some x => exact .refl _
  case stages =>
    intro x hx id hid
    obtain hx | hx := mem_append.mp hx
    · have hx := Option.mem_toList.mp hx
      obtain rfl : id = call := Option.some.inj (hid.symm.trans (hnext x hx).1)
      rw [update_self]
      exact (hnext x hx).2
    · have hne : id ≠ call := fun heq => hnot (heq ▸ mem_filterMap.mpr ⟨x, hx, hid⟩)
      rw [update_of_ne hne]
      exact h.stages x (mem_cons_of_mem c hx) id hid
  case ended =>
    intro id hid hclosed
    rw [hids, mem_append, not_or] at hclosed
    by_cases hne : id = call
    · subst hne
      rw [update_self]
      cases next with
      | none => exact hended rfl
      | some x => exact absurd mem_cons_self hclosed.1
    rw [update_of_ne hne]
    apply h.ended id hid
    rw [filterMap_cons_some hcall, mem_cons, not_or]
    exact ⟨hne, hclosed.2⟩
  case later =>
    intro id hid
    rw [update_of_ne (Nat.ne_of_gt (hlt.trans_le hid))]
    exact h.later id hid

theorem check (h : Traced blocked calls started trace) :
    Traced blocked (.look started false none none :: calls) (started + 1) trace := by
  have hids : (SignalCall.look started false none none :: calls).filterMap SignalCall.call? =
      started :: calls.filterMap SignalCall.call? := filterMap_cons_some rfl
  constructor
  case catchable => exact h.catchable
  case nested => exact .check nofun h.nested
  case sorted =>
    refine pairwise_cons.mpr ⟨fun call hcall => ?_, h.sorted⟩
    obtain rfl | hcall := mem_cons.mp hcall
    · exact Nat.lt_succ_self _
    · exact Nat.lt_succ_of_lt (rel_of_pairwise_cons h.sorted hcall)
  case stages =>
    intro c hc call hcall
    obtain rfl | hc := mem_cons.mp hc
    · cases hcall
      rw [h.later started (Nat.le_refl _)]
      exact .first nofun
    · exact h.stages c hc call hcall
  case ended =>
    rw [hids]
    intro call hcall hclosed
    rw [mem_cons, not_or] at hclosed
    exact h.ended call (by omega) hclosed.2
  case later => exact fun call hcall => h.later call (Nat.le_of_succ_le hcall)

theorem step (h : Traced m.signals.blocked m.calls m.started (traceOf events))
    (hs : SignalStep m m' e) :
    Traced m'.signals.blocked m'.calls m'.started (traceOf (e.toList ++ events)) := by
  cases hs with
  | idle => exact h
  | sent => exact h
  | check => exact h.check
  | call hcalls hstep =>
    rw [hcalls] at h
    exact h.advance hstep
  | mask ids ids' nested catchable =>
    have hsorted := h.sorted
    have hended := h.ended
    rw [ids] at hsorted hended
    refine ⟨catchable, nested, ids' ▸ hsorted, fun c hc call hcall => ?_, ids' ▸ hended, h.later⟩
    have hmem := mem_filterMap.mpr ⟨c, hc, hcall⟩
    rw [ids'] at hmem
    cases hmem

end Traced

theorem traced_init (h : signalSystem.init m) :
    Traced m.signals.blocked m.calls m.started (traceOf []) := by
  obtain ⟨_, hblocked, hcalls, hstarted, _⟩ := h
  rw [hblocked, hcalls, hstarted]
  exact ⟨⟨rfl, rfl⟩, .nil, pairwise_singleton _ _, nofun, nofun, fun _ _ => rfl⟩

/-! ## No signal is dropped -/

/-- Since a signal was sent it has been pending, or a call has cleared it that delivers it. -/
def Kept (m : SignalMachine) (events : List SignalEvent) : Prop :=
  ∀ signum since earlier, events = since ++ .sent signum :: earlier →
    m.signals.pending.getLsbD signum = true ∨
      ∃ call before after, .cleared call signum before after ∈ since ∧
        (.delivered call signum ∈ since ∨ .deliver call signum ∈ m.calls)

namespace Kept

theorem of_event (h : Kept m events)
    (hpending : ∀ i, m.signals.pending.getLsbD i = true → m'.signals.pending.getLsbD i = true ∨
      ∃ call before after, e = some (.cleared call i before after) ∧ .deliver call i ∈ m'.calls)
    (hcalls : ∀ call signum, .deliver call signum ∈ m.calls →
      .deliver call signum ∈ m'.calls ∨ e = some (.delivered call signum))
    (hsent : ∀ signum, e = some (.sent signum) → m'.signals.pending.getLsbD signum = true) :
    Kept m' (e.toList ++ events) := by
  intro signum since earlier heq
  have hsince : e = some (.sent signum) ∨ ∃ since₀, since = e.toList ++ since₀ ∧
      events = since₀ ++ .sent signum :: earlier := by
    cases e with
    | none => exact .inr ⟨since, rfl, heq⟩
    | some e =>
      cases since with
      | nil => exact .inl (congrArg some (cons.inj heq).1)
      | cons e' since => exact .inr ⟨since, by rw [(cons.inj heq).1]; rfl, (cons.inj heq).2⟩
  obtain he | ⟨since, rfl, hevents⟩ := hsince
  · exact .inl (hsent signum he)
  obtain hp | ⟨call, before, after, hcleared, hnow⟩ := h signum since earlier hevents
  · obtain hp | ⟨call, before, after, rfl, hmem⟩ := hpending signum hp
    · exact .inl hp
    · exact .inr ⟨call, before, after, mem_cons_self, .inr hmem⟩
  refine .inr ⟨call, before, after, mem_append_right _ hcleared, ?_⟩
  obtain hdelivered | hmem := hnow
  · exact .inl (mem_append_right _ hdelivered)
  obtain hmem | rfl := hcalls call signum hmem
  · exact .inr hmem
  · exact .inl mem_cons_self

theorem step (h : Kept m events) (hs : SignalStep m m' e) : Kept m' (e.toList ++ events) := by
  cases hs with
  | idle => exact h
  | sent valid =>
    refine h.of_event (fun i hi => .inl ?_) (fun _ _ hmem => .inl hmem) fun i hsent => ?_
    · rw [SignalState.getLsbD_setPending _ (BitVec.lt_of_getLsbD hi), hi, Bool.true_or]
    · cases hsent
      rw [SignalState.getLsbD_setPending _ valid, decide_eq_true rfl, Bool.or_true]
  | check => exact h.of_event (fun _ => .inl) (fun _ _ hmem => .inl (mem_cons_of_mem _ hmem)) nofun
  | mask ids =>
    refine h.of_event (fun _ => .inl) (fun call signum hmem => ?_) nofun
    have hid : call ∈ m.calls.filterMap SignalCall.call? := mem_filterMap.mpr ⟨_, hmem, rfl⟩
    rw [ids] at hid
    cases hid
  | call calls hstep =>
    refine h.of_event (fun i hi => ?_) (fun call signum hmem => ?_) ?_
    · cases hstep
      case clear call signum =>
        by_cases hi' : i = signum
        · subst hi'
          exact .inr ⟨call, _, _, rfl, mem_cons_self⟩
        left
        rw [SignalState.getLsbD_clearPending _ (BitVec.lt_of_getLsbD hi), hi, Bool.true_and,
          decide_eq_true_eq]
        exact hi'
      all_goals exact .inl hi
    · rw [calls] at hmem
      obtain rfl | hmem := mem_cons.mp hmem
      · cases hstep
        exact .inr rfl
      · exact .inl (mem_append_right _ hmem)
    · cases hstep <;> exact nofun

end Kept

/-! ## Runs -/

/-- In every run of `SendSignal` calls from other cores with the calls of the task, `SIGKILL` and
`SIGSTOP` are never blocked, a call of `CheckPendingSignals` that has ended has delivered the lowest
signal that was pending and not blocked when it looked, or nothing if there was none, and a signal
that was sent is pending until a call clears it that delivers it afterwards. -/
theorem signals_delivered {m : SignalMachine} {events : List SignalEvent}
    (h : recordedSignals.Reachable (m, events)) :
    (m.signals.blocked.getLsbD sigKill = false ∧ m.signals.blocked.getLsbD sigStop = false) ∧
      (∀ call < m.started,
        (∃ c ∈ m.calls, c.call? = some call) ∨ Ended call (traceOf events call)) ∧
      Kept m events := by
  obtain ⟨htraced, hkept⟩ := h.recorded (P := fun m events =>
      Traced m.signals.blocked m.calls m.started (traceOf events) ∧ Kept m events)
    (fun m hinit => ⟨traced_init hinit, fun _ since _ heq => by cases since <;> cases heq⟩)
    fun m events a m' hm _ hs =>
      have hstep := step_cases hm.1.nested hm.1.catchable hs
      ⟨hm.1.step hstep, hm.2.step hstep⟩
  refine ⟨⟨htraced.catchable.kill, htraced.catchable.stop⟩, ?_, hkept⟩
  intro call hlt
  by_cases hopen : call ∈ m.calls.filterMap SignalCall.call?
  · exact .inl (mem_filterMap.mp hopen)
  · exact .inr (htraced.ended call hlt hopen)

/-- Signal 15 is blocked and signal 10 comes too late, so the call delivers `SIGCHLD`. -/
theorem signals_delivered_sigChld : ∃ m events,
    recordedSignals.Reachable (m, events) ∧
      traceOf events 0 = [.delivered 0 sigChld,
        .cleared 0 sigChld (BitVec.ofNat 32 0x28400) (BitVec.ofNat 32 0x8400),
        .looked 0 (BitVec.ofNat 32 0x20000), .looked 0 (BitVec.ofNat 32 0x20000)] ∧
      m.signals.blocked.getLsbD sigKill = false ∧ Ended 0 (traceOf events 0) := by
  have hinit : recordedSignals.init ({}, []) := ⟨⟨rfl, rfl, rfl, rfl, rfl⟩, rfl⟩
  obtain ⟨⟨m, events⟩, hr, hstarted, hcalls, htrace⟩ :=
    recordedSignals.exists_of_run (fun _ _ => True)
    [.sendSignal 17, .sendSignal 15, .setSignalMask .sigSetmask (BitVec.ofNat 32 0x8200), .next,
      .next, .checkPendingSignals, .loadBlocked, .loadPending, .next, .loadPending, .sendSignal 10,
      .loadBlocked, .next, .next, .next]
    (fun p => p.1.started = 1 ∧ p.1.calls = [] ∧
      traceOf p.2 0 = [.delivered 0 sigChld,
        .cleared 0 sigChld (BitVec.ofNat 32 0x28400) (BitVec.ofNat 32 0x8400),
        .looked 0 (BitVec.ofNat 32 0x20000), .looked 0 (BitVec.ofNat 32 0x20000)])
    hinit (by decide +kernel)
  obtain ⟨⟨hkill, _⟩, hended, _⟩ := signals_delivered hr
  refine ⟨m, events, hr, htrace, hkill, ?_⟩
  obtain ⟨c, hc, _⟩ | hended := hended 0 (by rw [hstarted]; decide)
  · rw [hcalls] at hc
    cases hc
  · exact hended

end SimpleKernel
