import SimpleKernel.Verification.Virtio.Completions

/-! A device that misbehaves: it puts any ids into the ring of used chains. `ProcessCompletions`
passes every id to `FreeChain`, whether a slot has been found for it or not. -/

namespace SimpleKernel.Virtio

open List Function SplitVirtqueue

/-! ## The driver and a device that writes what it likes -/

inductive RogueAction where
  | driver (a : Action)
  | use (id len : UInt32)
  | writeStatus (slot : ℕ) (status : UInt8)
  | setAvailEvent (idx : ℕ)

namespace Machine

def permits (m : Machine) : Action → Bool
  | .enqueue _ _ _ _ _ | .kick _ =>
    match m.pc with
    | .callback _ c => c.slotIdx < maxInflight
    | _ => true
  | .handleInterrupt | .sync _ _ _ | .next => true
  | _ => false

def rogueStep (m : Machine) : RogueAction → Option Machine
  | .driver a => if m.permits a then m.step a else none
  | .use id len =>
    let vq := m.blk.vq
    some { m with blk := { m.blk with vq := { vq with
      usedRing := update vq.usedRing (vq.usedIdx % vq.queueSize) ⟨id.toNat, len.toNat⟩
      usedIdx := (vq.usedIdx + 1) % 2 ^ 16 } } }
  | .writeStatus slot status => some { m with blk := m.blk.setSlot slot ({ · with status }) }
  | .setAvailEvent idx =>
    some { m with blk := { m.blk with vq := { m.blk.vq with availEvent := idx } } }

end Machine

def recordInFlight (m : Machine) (a : RogueAction) (_ : Machine) (fl : List Request) :
    List Request :=
  match a with
  | .driver .next =>
    match m.pc with
    | .callback _ c => fl.eraseP fun r => r.head = c.head
    | _ => fl
  | .driver a => (m.enqueued a).toList ++ fl
  | _ => fl

def rogueSystem : Transition (Machine × List Request) RogueAction :=
  Transition.recorded ⟨blkSystem.init, Machine.rogueStep⟩ [] recordInFlight

/-! ## What the driver should withstand -/

def SplitVirtqueue.withOutside (q : SplitVirtqueue) (desc : ℕ → Desc) : SplitVirtqueue :=
  { q with desc := fun i => if i < q.queueSize then q.desc i else desc i }

def StaysInTable (q : SplitVirtqueue) (head : ℕ) : Prop :=
  ∀ fuel desc, (q.withOutside desc).freeChain fuel head =
    (q.freeChain fuel head).map fun (result, q') => (result, q'.withOutside desc)

/-- The free list, the slots and the chains in flight are the same. -/
structure Unchanged (b b' : VirtioBlk) (fl : List Request) : Prop where
  freeList : b'.vq.freeList = b.vq.freeList
  numFree : b'.vq.numFree = b.vq.numFree
  slotBitmap : b'.slotBitmap = b.slotBitmap
  chains : ∀ r ∈ fl, ∀ x ∈ r.chain, b'.vq.desc x = b.vq.desc x

/-- Every round of `ProcessCompletions` stays in the table and ends, and it changes nothing for an
id that is not the head of a chain in flight. -/
structure Robust (m : Machine) (fl : List Request) : Prop where
  inTable : ∀ caller c, m.pc = .callback caller c → StaysInTable m.blk.vq c.head
  ends : ∀ caller c, m.pc = .callback caller c → ∃ fuel, (m.blk.vq.freeChain fuel c.head).isSome
  unknown : ∀ caller c b b', m.pc = .completing caller → (∀ r ∈ fl, r.head ≠ m.blk.nextUsed.id) →
    m.blk.popCompletion = some (c, b) → b.releaseCompletion c = some b' → Unchanged m.blk b' fl

def VirtioBlk.expectsUsed (b : VirtioBlk) : Bool :=
  !b.vq.hasUsed || (b.nextUsed.id < 2 ^ 16 && b.findSlotByDescHead b.nextUsed.id < maxInflight) ||
    b.vq.queueSize ≤ b.nextUsed.id % 2 ^ 16

/-- `ProcessCompletions` finds such elements only. -/
def RogueAction.isExpected (m : Machine) : RogueAction → Bool
  | .driver .next =>
    match m.pc with
    | .completing _ => m.blk.expectsUsed
    | _ => true
  | _ => true

/-! ## The table -/

theorem putFree_withOutside {q : SplitVirtqueue} {idx : ℕ} (hidx : idx < q.queueSize)
    (desc : ℕ → Desc) : (q.withOutside desc).putFree idx = (q.putFree idx).withOutside desc := by
  simp only [withOutside, putFree, setDesc, if_pos hidx, SplitVirtqueue.mk.injEq, true_and, and_true]
  funext i
  by_cases hi : i = idx
  · subst hi
    simp [if_pos hidx]
  · simp [update_of_ne hi]

theorem freeChainLoop_withOutside (fuel idx : ℕ) (q : SplitVirtqueue) (desc : ℕ → Desc) :
    freeChainLoop fuel idx (q.withOutside desc) =
      (freeChainLoop fuel idx q).map fun (result, q') => (result, q'.withOutside desc) := by
  induction fuel generalizing idx q with
  | zero => rfl
  | succ fuel ih =>
    have hsize : (q.withOutside desc).queueSize = q.queueSize := rfl
    simp only [freeChainLoop, hsize]
    by_cases hidx : q.queueSize ≤ idx
    · simp [if_pos hidx]
    have hlt : idx < q.queueSize := not_le.mp hidx
    have hdesc : (q.withOutside desc).desc idx = q.desc idx := if_pos hlt
    simp only [if_neg hidx, hdesc, putFree_withOutside hlt]
    split
    · exact ih _ _
    · rfl

theorem staysInTable (q : SplitVirtqueue) (head : ℕ) : StaysInTable q head := by
  intro fuel desc
  have hsize : (q.withOutside desc).queueSize = q.queueSize := rfl
  simp only [freeChain, hsize]
  split
  · rfl
  · exact freeChainLoop_withOutside fuel head q desc

theorem freeChainLoop_endless {q : SplitVirtqueue} {idx : ℕ} (fuel : ℕ) (hidx : idx < q.queueSize)
    (hnext : (q.desc idx).hasNext) (hself : (q.desc idx).next = idx) (hhead : q.freeHead = idx) :
    freeChainLoop fuel idx q = none := by
  induction fuel generalizing q with
  | zero => rfl
  | succ fuel ih =>
    simp only [freeChainLoop, if_neg (not_le.mpr hidx), hnext, if_true, hself]
    apply ih
    · exact hidx
    · simp only [putFree, setDesc, update_self]
      exact hnext
    · simp only [putFree, setDesc, update_self]
      exact hhead
    · rfl

/-! ## Runs with the expected elements -/

/-- The completion is that of a request in flight, or none at all. -/
def Found (b : VirtioBlk) (fl : List Request) (c : VirtioBlk.Completion) : Prop :=
  (∃ r ∈ fl, c.slotIdx = r.slot ∧ c.head = r.head) ∨
    (¬ c.slotIdx < maxInflight ∧ b.vq.queueSize ≤ c.head)

structure Withstands (m : Machine) (fl : List Request) : Prop where
  inFlight : InFlight m.blk fl
  found : ∀ caller c, m.pc = .callback caller c → Found m.blk fl c

variable {b : VirtioBlk} {fl : List Request} {c : VirtioBlk.Completion}

theorem InFlight.popped {b' : VirtioBlk}
    (h : InFlight b fl) (hexpected : b.expectsUsed) (hpop : b.popCompletion = some (c, b')) :
    InFlight b' fl ∧ Unchanged b b' fl ∧ Found b' fl c ∧
      (c.slotIdx < maxInflight → c.head = b.nextUsed.id) := by
  obtain ⟨hused, rfl, rfl⟩ := VirtioBlk.popCompletion_eq_some hpop
  refine ⟨{ h with part := { h.part with } },
    ⟨rfl, rfl, rfl, fun _ _ _ _ => rfl⟩, ?_⟩
  simp only [VirtioBlk.expectsUsed, hused, Bool.not_true, Bool.false_or, Bool.or_eq_true,
    Bool.and_eq_true, decide_eq_true_eq] at hexpected
  rcases hexpected with ⟨hid, hslot⟩ | hid
  · rw [Nat.mod_eq_of_lt hid]
    exact ⟨.inl (h.findSlot_spec hslot), fun _ => rfl⟩
  have hslot : ¬ b.findSlotByDescHead (b.nextUsed.id % 2 ^ 16) < maxInflight := by
    intro hslot
    obtain ⟨r, hr, -, hhead⟩ := h.findSlot_spec hslot
    have hlt := h.head_lt hr
    rw [← hhead] at hlt
    exact absurd hid (not_le.mpr hlt)
  exact ⟨.inr ⟨hslot, hid⟩, fun h => absurd h hslot⟩

theorem releaseCompletion_of_outside
    (hslot : ¬ c.slotIdx < maxInflight) (hhead : b.vq.queueSize ≤ c.head) :
    b.releaseCompletion c = some b := by
  simp [VirtioBlk.releaseCompletion, if_neg hslot, freeChain, if_pos hhead]

theorem Found.release (hf : Found b fl c) (h : InFlight b fl) :
    ∃ b', b.releaseCompletion c = some b' ∧ InFlight b' (fl.eraseP fun r => r.head = c.head) := by
  rcases hf with ⟨r, hr, hslot, hhead⟩ | ⟨hslot, hhead⟩
  · obtain ⟨r', fl₁, fl₂, -, hr', rfl, herase⟩ :=
      exists_of_eraseP (p := fun r => decide (r.head = c.head)) hr (decide_eq_true hhead.symm)
    rw [decide_eq_true_eq, hhead] at hr'
    obtain rfl := h.eq_of_head (mem_append_right _ mem_cons_self) hr hr'
    obtain ⟨b', hb', h', -⟩ := (h.perm perm_middle).release hslot hhead
    exact ⟨b', hb', herase ▸ h'⟩
  refine ⟨b, releaseCompletion_of_outside hslot hhead, ?_⟩
  rw [eraseP_of_forall_not]
  · exact h
  · intro r hr
    have hlt := h.head_lt hr
    rw [decide_eq_true_eq]
    omega

namespace Withstands

variable {m m' : Machine} {fl : List Request} {b : VirtioBlk}

theorem of_pc (h : InFlight m.blk fl) (hpc : ∀ caller c, m.pc ≠ .callback caller c) :
    Withstands m fl :=
  ⟨h, fun caller c hc => absurd hc (hpc caller c)⟩

section

variable (hw : Withstands m fl)
include hw

theorem of_blk {fl' : List Request} (h : InFlight b fl') (hfl : fl ⊆ fl')
    (hsize : b.vq.queueSize = m.blk.vq.queueSize) : Withstands { m with blk := b } fl' := by
  refine ⟨h, fun caller c hc => ?_⟩
  rcases hw.found caller c hc with ⟨r, hr, hmatch⟩ | ⟨hslot, hhead⟩
  · exact .inl ⟨r, hfl hr, hmatch⟩
  · exact .inr ⟨hslot, hsize ▸ hhead⟩

theorem enqueue (type : ReqType) (queueIndex sector : ℕ) (buffers : Buffers) (token : ℕ) :
    Withstands { m with blk := (m.blk.doEnqueue type queueIndex sector buffers token).2 }
      ((m.enqueued (.enqueue type queueIndex sector buffers token)).toList ++ fl) := by
  rcases hw.inFlight.doEnqueue type queueIndex sector buffers.2 token with
    ⟨b', heq, he⟩ | ⟨e, b', heq, -, hr⟩
  · simp only [Machine.enqueued, heq, Option.toList_some, singleton_append]
    refine hw.of_blk he.inFlight (subset_cons_self _ _) ?_
    rw [he.vq]
    rfl
  · simp only [Machine.enqueued, heq, Option.toList_none, nil_append]
    exact hw.of_blk hr.inFlight (List.Subset.refl _) (by rw [hr.vq])

theorem sync (type : ReqType) (sector data : ℕ) :
    Withstands (m.readWrite type sector data)
      ((m.enqueued (.sync type sector data)).toList ++ fl) := by
  by_cases h0 : data = 0
  · simp only [Machine.readWrite, Machine.enqueued, if_pos h0, Option.toList_none, nil_append]
    exact of_pc hw.inFlight (by simp)
  have hlen : [(⟨m.blk.virtToPhys data, sectorSize⟩ : IoVec)].length < 2 ^ 60 := by simp
  rcases hw.inFlight.doEnqueue type 0 sector hlen 0 with ⟨b', heq, he⟩ | ⟨e, b', heq, -, hr⟩
  · simp only [Machine.readWrite, Machine.submitSyncRequest, Machine.enqueued, if_neg h0, heq,
      Option.toList_some, singleton_append]
    exact of_pc (he.inFlight.kick 0) (by simp)
  · simp only [Machine.readWrite, Machine.submitSyncRequest, Machine.enqueued, if_neg h0, heq,
      Option.toList_none, nil_append]
    exact of_pc hr.inFlight (by simp)

theorem next (hexpected : (RogueAction.driver .next).isExpected m)
    (hstep : m.next = some m') : Withstands m' (recordInFlight m (.driver .next) m' fl) := by
  have hfl := hw.inFlight
  unfold Machine.next at hstep
  cases hpc : m.pc with
  | idle =>
    rw [hpc] at hstep
    cases hstep
  | polling i | polled =>
    simp only [recordInFlight, hpc] at hstep ⊢
    split at hstep
    all_goals
      cases hstep
      exact of_pc hfl (by simp)
  | completing caller =>
    simp only [RogueAction.isExpected, hpc] at hexpected
    simp only [recordInFlight, hpc] at hstep ⊢
    cases hpop : m.blk.popCompletion with
    | none =>
      simp only [hpop] at hstep
      cases hstep
      refine of_pc ?_ fun _ _ => ?_
      · dsimp [VirtioBlk.updateUsedEvent]
        split
        · exact { hfl with part := { hfl.part with } }
        · exact hfl
      · cases caller with
        | handleInterrupt => simp
        | sync done result => simp
    | some p =>
      simp only [hpop] at hstep
      cases hstep
      obtain ⟨hfl', -, hfound, -⟩ := hfl.popped hexpected hpop
      refine ⟨hfl', fun caller' c' hc' => ?_⟩
      cases hc'
      exact hfound
  | callback caller c =>
    simp only [recordInFlight, hpc] at hstep ⊢
    obtain ⟨b, hb, hfl'⟩ := (hw.found caller c hpc).release hfl
    rw [hb, Option.map_some] at hstep
    cases hstep
    exact of_pc hfl' (by simp)
  | returned result =>
    simp only [recordInFlight, hpc] at hstep ⊢
    cases hstep
    exact of_pc hfl (by simp)

theorem step {a : RogueAction} (hexpected : a.isExpected m)
    (hstep : m.rogueStep a = some m') : Withstands m' (recordInFlight m a m' fl) := by
  have hfl := hw.inFlight
  cases a with
  | driver a =>
    obtain ⟨hpermits, hstep⟩ := Option.ite_none_right_eq_some.mp hstep
    cases a with
    | enqueue type queueIndex sector buffers token =>
      obtain ⟨-, ⟨⟩⟩ := Option.ite_none_right_eq_some.mp hstep
      exact hw.enqueue type queueIndex sector buffers token
    | kick queueIndex =>
      obtain ⟨-, ⟨⟩⟩ := Option.ite_none_right_eq_some.mp hstep
      refine hw.of_blk (hfl.kick queueIndex) (List.Subset.refl _) ?_
      rw [(m.blk.kick_frame queueIndex).1]
    | handleInterrupt =>
      obtain ⟨-, ⟨⟩⟩ := Option.ite_none_right_eq_some.mp hstep
      refine of_pc ({ hfl with part := { hfl.part with } }) (by simp)
    | sync type sector data =>
      obtain ⟨-, ⟨⟩⟩ := Option.ite_none_right_eq_some.mp hstep
      exact hw.sync type sector data
    | next => exact hw.next hexpected hstep
    | fetch | writeStatus | use | setAvailEvent => cases hpermits
  | use id len | setAvailEvent idx =>
    cases hstep
    exact hw.of_blk ({ hfl with part := { hfl.part with } })
      (List.Subset.refl _) rfl
  | writeStatus slot status =>
    cases hstep
    refine hw.of_blk (hfl.congr ⟨rfl, rfl, rfl, rfl⟩ rfl rfl fun r _ => ?_) (List.Subset.refl _) rfl
    simp only [VirtioBlk.setSlot, update_apply]
    split_ifs with heq
    · simp [heq]
    · exact ⟨rfl, rfl⟩

end

end Withstands

theorem withstands_of_init {m : Machine} (hinit : blkSystem.init m) : Withstands m [] := by
  have hidle : m.pc = .idle := hinit.2.2.2.2.2
  refine Withstands.of_pc ?_ fun caller c hpc => ?_
  · have hfl := (served_of_init hinit).tracked.inFlight
    rw [hinit.2.2.2.2.1] at hfl
    exact hfl
  · rw [hidle] at hpc
    cases hpc

/-- In every run in which `ProcessCompletions` finds expected elements only, it withstands the
device. -/
theorem withstands_device {m : Machine} {fl : List Request}
    (hr : rogueSystem.ReachableBy (fun p a => a.isExpected p.1) (m, fl))
    (hnext : (RogueAction.driver .next).isExpected m) : Robust m fl := by
  have hw : Withstands m fl := by
    refine hr.recorded (P := Withstands) ?_ ?_
    · exact fun m hinit => withstands_of_init hinit
    · exact fun m fl a m' hw ha hstep => hw.step ha hstep
  refine ⟨fun _ c _ => staysInTable _ c.head, ?_, ?_⟩
  · intro caller c hpc
    obtain ⟨b', hb', -⟩ := (hw.found caller c hpc).release hw.inFlight
    obtain ⟨result, hfree⟩ := VirtioBlk.releaseCompletion_eq_some hb'
    exact ⟨_, Option.isSome_of_eq_some hfree⟩
  · intro caller c b b' hpc hunknown hpop hrelease
    simp only [RogueAction.isExpected, hpc] at hnext
    obtain ⟨hfl, hsame, hfound, hid⟩ := hw.inFlight.popped hnext hpop
    rcases hfound with ⟨r, hr, hslot, hhead⟩ | ⟨hslot, hhead⟩
    · rw [hid (hslot ▸ hfl.slot_lt hr)] at hhead
      exact absurd hhead.symm (hunknown r hr)
    rw [releaseCompletion_of_outside hslot hhead] at hrelease
    cases hrelease
    exact hsame

/-- The device completes a request, then repeats ids that it never got. -/
theorem withstands_device_ids : ∃ m fl,
    rogueSystem.ReachableBy (fun p a => a.isExpected p.1) (m, fl) ∧
      m.blk.vq.numFree = 8 ∧ m.blk.nextUsed.id = 99 ∧ Robust m fl := by
  obtain ⟨⟨m, fl⟩, hr, hp⟩ := rogueSystem.exists_of_run (fun p a => a.isExpected p.1)
    [.driver readFive, .use 0 513, .use 99 1,
      .driver .handleInterrupt, .driver .next, .driver .next]
    (fun p => p.1.blk.vq.numFree = 8 ∧ p.1.blk.nextUsed.id = 99 ∧
      (RogueAction.driver .next).isExpected p.1)
    (s := (newMachine, [])) ⟨newMachine_init.1, rfl⟩ (by decide +kernel)
  exact ⟨m, fl, hr, hp.1, hp.2.1, withstands_device hr hp.2.2⟩

/-- An id that no chain in flight has is put into the free list, which has nine descriptors of
eight then. -/
theorem unknown_id_is_freed : ¬ ∀ m fl, rogueSystem.Reachable (m, fl) → Robust m fl := by
  intro hall
  obtain ⟨⟨m, fl⟩, hr, hpc, hfl, hnum, ⟨c, b⟩, hpop, b', hrelease, hnum'⟩ :=
    rogueSystem.exists_of_run (fun _ _ => True)
    [.use 0 1, .driver .handleInterrupt]
    (fun p => p.1.pc = .completing .handleInterrupt ∧ p.2 = [] ∧ p.1.blk.vq.numFree = 8 ∧
      ∃ q ∈ p.1.blk.popCompletion, ∃ b ∈ q.2.releaseCompletion q.1, b.vq.numFree = 9)
    (s := (newMachine, [])) ⟨newMachine_init.1, rfl⟩ (by decide +kernel)
  dsimp only at hfl hnum hnum'
  have hsame := (hall m fl hr).unknown _ c b b' hpc (by rw [hfl]; simp) hpop hrelease
  rw [hsame.numFree, hnum] at hnum'
  cases hnum'

theorem unknown_id_is_endless : ∃ m fl, rogueSystem.Reachable (m, fl) ∧
    ∃ caller c, m.pc = .callback caller c ∧ ∀ fuel, m.blk.vq.freeChain fuel c.head = none := by
  obtain ⟨⟨m, fl⟩, hr, hpc, hsize, hnext, hself, hhead⟩ :=
    rogueSystem.exists_of_run (fun _ _ => True)
    [.use 2 1, .driver .handleInterrupt, .driver .next, .driver .next, .driver .next,
      .driver readFive, .use 2 1,
      .driver .handleInterrupt, .driver .next, .driver .next, .driver .next,
      .driver (.enqueue .kIn 0 5 ⟨[], by decide⟩ 8), .use 2 1, .driver .handleInterrupt,
      .driver .next]
    (fun p => p.1.pc = .callback .handleInterrupt ⟨2, 1, 64⟩ ∧ p.1.blk.vq.queueSize = 8 ∧
      (p.1.blk.vq.desc 2).hasNext ∧ (p.1.blk.vq.desc 2).next = 2 ∧ p.1.blk.vq.freeHead = 2)
    (s := (newMachine, [])) ⟨newMachine_init.1, rfl⟩ (by decide +kernel)
  refine ⟨m, fl, hr, _, _, hpc, fun fuel => ?_⟩
  dsimp only at hsize
  have hlt : 2 < m.blk.vq.queueSize := by omega
  rw [freeChain, if_neg (not_le.mpr hlt)]
  exact freeChainLoop_endless fuel hlt hnext hself hhead

end SimpleKernel.Virtio
