import SimpleKernel.Model.SpinLock
import SimpleKernel.Shared.OwnedLock

/-! # Mutual exclusion of the spin lock

`locked_` and `core_id_` are written one after the other, so neither decides alone who
holds the lock. The invariant says for every half-finished call how far they agree. -/

namespace SimpleKernel.SpinLock

open List

variable {N : CoreCount} {ι : Type*} {s s' : State N ι} {c d : N.Core} {l m : ι} {k : Core ι}

/-! ## Computation rules -/

section

variable (s c k)

@[simp] theorem setCore_cores_self : (s.setCore c k).cores c = k := by
  simp [State.setCore]

theorem setCore_cores_of_ne {c d : N.Core} (h : d ≠ c) (k : Core ι) :
    (s.setCore c k).cores d = s.cores d := by
  simp [State.setCore, h]

@[simp] theorem setCore_locks : (s.setCore c k).locks = s.locks := rfl

end

attribute [simp] Core.goto Core.return

theorem holds_iff : s.Holds c l ↔ l ∈ (s.cores c).held.map Prod.fst := Iff.rfl

section

variable [DecidableEq ι] {held : List (ι × Bool)}

section

variable (s l) (v : Data)

@[simp] theorem setLock_cores : (s.setLock l v).cores = s.cores := rfl

@[simp] theorem setLock_locks_self : (s.setLock l v).locks l = v := by
  simp [State.setLock]

theorem setLock_locks_of_ne {l m : ι} (h : m ≠ l) (v : Data) :
    (s.setLock l v).locks m = s.locks m := by
  simp [State.setLock, h]

end

theorem setLock_member {β : Type*} (f : Data → β) {v : Data} (hv : f v = f (s.locks l)) (m : ι) :
    f ((s.setLock l v).locks m) = f (s.locks m) := by
  by_cases hm : m = l
  · subst hm; rw [setLock_locks_self, hv]
  · rw [setLock_locks_of_ne s hm]

theorem mem_keys_release (hn : (held.map Prod.fst).Nodup) :
    m ∈ (release l held).map Prod.fst ↔ m ≠ l ∧ m ∈ held.map Prod.fst := by
  induction held with
  | nil => simp [release]
  | cons e held ih =>
    obtain ⟨he, hn⟩ := nodup_cons.mp hn
    by_cases h : e.1 = l
    · have hr : release l (e :: held) = held := by simp [release, h]
      rw [hr, map_cons, mem_cons, h]
      refine ⟨fun hm => ⟨?_, .inr hm⟩, fun hm => hm.2.resolve_left hm.1⟩
      rintro rfl
      exact he (h ▸ hm)
    have hr : release l (e :: held) = e :: release l held := by simp [release, h]
    rw [hr, map_cons, map_cons, mem_cons, mem_cons, ih hn]
    constructor
    · rintro (rfl | hm)
      · exact ⟨h, .inl rfl⟩
      · exact ⟨hm.1, .inr hm.2⟩
    · rintro ⟨hm, rfl | hk⟩
      · exact .inl rfl
      · exact .inr ⟨hm, hk⟩

theorem nodup_keys_release (hn : (held.map Prod.fst).Nodup) :
    ((release l held).map Prod.fst).Nodup :=
  hn.sublist ((eraseP_sublist).map Prod.fst)

end

/-! ## The invariant -/

def answer (r : CallRecord ι) : Expected Unit :=
  match r.call with
  | .lock _ => if r.held then .error .spinLockRecursiveLock else .ok ()
  | .unLock _ => if r.held then .ok () else .error .spinLockNotOwned

def Settled (k : Core ι) (r : CallRecord ι) : Prop :=
  match r.call with
  | .lock l => l ∈ k.held.map Prod.fst
  | .unLock l => l ∉ k.held.map Prod.fst

def ControlOk (k : Core ι) : Prop :=
  match k.pc with
  | .outside => ∀ r res, k.record = some r → k.result = some res → res = answer r ∧ Settled k r
  | .getInterruptStatus l | .disableInterrupt l _ | .testAndSet l _ | .loadCoreId l _ =>
    ∃ r, k.record = some r ∧ r.call = .lock l ∧ (r.held = true ↔ l ∈ k.held.map Prod.fst)
  | .restoreInterrupt l _ =>
    ∃ r, k.record = some r ∧ r.call = .lock l ∧ r.held = true ∧ l ∈ k.held.map Prod.fst
  | .storeCoreId l _ | .storeSaved l _ =>
    ∃ r, k.record = some r ∧ r.call = .lock l ∧ r.held = false ∧ l ∈ k.held.map Prod.fst
  | .testLocked l | .testCoreId l =>
    ∃ r, k.record = some r ∧ r.call = .unLock l ∧ (r.held = true ↔ l ∈ k.held.map Prod.fst)
  | .resetCoreId l | .clear l =>
    ∃ r, k.record = some r ∧ r.call = .unLock l ∧ r.held = true ∧ l ∈ k.held.map Prod.fst
  | .loadSaved l | .enableInterrupt l _ =>
    ∃ r, k.record = some r ∧ r.call = .unLock l ∧ r.held = true ∧ l ∉ k.held.map Prod.fst

theorem controlOk_return {r : CallRecord ι} {res : Expected Unit}
    (hr : k.record = some r) (hres : res = answer r) (hk : Settled k r) :
    ControlOk (k.return res) := by
  intro r' res' hr' hres'
  cases hr.symm.trans hr'
  obtain rfl : res = res' := Option.some.inj hres'
  exact ⟨hres, hk⟩

/-! ## The spin lock as a lock of two words -/

def coreNames (N : CoreCount) : OwnedLock.Names N.Core where
  name c := c.val
  mark := sizeMax
  injective := Fin.val_injective
  ne_mark := CoreCount.Core.ne_max

def Pc.window : Pc ι → Option (ι × OwnedLock.Phase)
  | .storeCoreId l _ => some (l, .won)
  | .clear l => some (l, .leaving)
  | _ => none

attribute [simp] Pc.window

variable [DecidableEq ι]

def Core.phase (k : Core ι) (l : ι) : OwnedLock.Phase :=
  if l ∈ k.held.map Prod.fst then
    match k.pc.window with
    | some (m, p) => if m = l then p else .owning
    | none => .owning
  else .out

def State.view (s : State N ι) (l : ι) : OwnedLock.State N.Core where
  locked := (s.locks l).locked
  owner := (s.locks l).coreId
  phase c := (s.cores c).phase l

structure Inv (s : State N ι) : Prop where
  nodup : ∀ c, ((s.cores c).held.map Prod.fst).Nodup
  owned : ∀ l, OwnedLock.Inv (coreNames N) (s.view l)
  control : ∀ c, ControlOk (s.cores c)

theorem Core.phase_of_away (h : ∀ p, k.pc.window ≠ some (l, p)) :
    k.phase l = if l ∈ k.held.map Prod.fst then .owning else .out := by
  unfold Core.phase
  cases hw : k.pc.window with
  | none => rfl
  | some w =>
    obtain ⟨m, p⟩ := w
    have hm : m ≠ l := by
      rintro rfl
      exact h p hw
    simp [hm]

theorem holds_iff_phase : s.Holds c l ↔ (s.cores c).phase l ≠ .out := by
  unfold Core.phase
  split_ifs with hmem
  · refine iff_of_true hmem ?_
    cases hpc : (s.cores c).pc
    all_goals simp [Pc.window]
    all_goals try split
    all_goals nofun
  · exact iff_of_false hmem (by simp)

theorem Inv.excl (hi : Inv s) (c d : N.Core) (l : ι) (hc : s.Holds c l) (hd : s.Holds d l) :
    c = d :=
  (hi.owned l).excl c d (holds_iff_phase.mp hc) (holds_iff_phase.mp hd)

theorem Inv.locked (hi : Inv s) (c : N.Core) (l : ι) (hc : s.Holds c l) :
    (s.locks l).locked = true :=
  (hi.owned l).locked c (holds_iff_phase.mp hc)

theorem Inv.not_holds_of_unlocked (hi : Inv s) (hl : (s.locks l).locked = false) :
    ¬ s.Holds c l := by
  rw [holds_iff_phase, not_not]
  exact (hi.owned l).out_of_unlocked hl c

theorem Inv.coreId_iff (hi : Inv s) {pc : Pc ι} (hpc : (s.cores c).pc = pc)
    (hw : pc.window = none) :
    (s.locks l).coreId = c.val ↔ s.Holds c l := by
  have hiff : (s.locks l).coreId = c.val ↔ (s.cores c).phase l = .owning := (hi.owned l).owner_iff
  rw [hiff, Core.phase_of_away (by rw [hpc, hw]; nofun), holds_iff]
  split <;> simp [*]

theorem inv_initial (h : Initial s) : Inv s := by
  obtain ⟨hl, hc⟩ := h
  refine ⟨?_, ?_, ?_⟩
  · intro c; rw [hc c]; simp
  · intro l
    apply OwnedLock.inv_initial
    · intro c
      simp only [State.view]
      rw [hc c]
      rfl
    · simp [State.view, hl l, coreNames]
  · intro c; rw [hc c]; simp [ControlOk]

section

variable (hi : Inv s)
include hi

theorem Inv.coreStep (hothers : ∀ d, d ≠ c → s'.cores d = s.cores d)
    (hn : ((s'.cores c).held.map Prod.fst).Nodup)
    (hstep : ∀ l, OwnedLock.Step (coreNames N) (s.view l) (s'.view l))
    (hk : ControlOk (s'.cores c)) : Inv s' := by
  refine ⟨fun d => ?_, fun l => (hi.owned l).step (hstep l), fun d => ?_⟩
  · by_cases hd : d = c
    · subst hd; exact hn
    · rw [hothers d hd]; exact hi.nodup d
  · by_cases hd : d = c
    · subst hd; exact hk
    · rw [hothers d hd]; exact hi.control d

theorem Inv.setCore {pc : Pc ι} (hpc : (s.cores c).pc = pc) (hold : pc.window = none)
    (hheld : k.held = (s.cores c).held) (hnew : k.pc.window = none) (hk : ControlOk k) :
    Inv (s.setCore c k) := by
  apply hi.coreStep (c := c) (fun d hd => setCore_cores_of_ne s hd k)
  · rw [setCore_cores_self, hheld]; exact hi.nodup c
  · intro l
    refine .stutter rfl rfl fun d => ?_
    simp only [State.view]
    by_cases hd : d = c
    · subst hd
      rw [setCore_cores_self, Core.phase_of_away (by rw [hnew]; nofun),
        Core.phase_of_away (by rw [hpc, hold]; nofun), hheld]
    · rw [setCore_cores_of_ne s hd]
  · rw [setCore_cores_self]; exact hk

theorem Inv.lockStep {v : Data} (hn : (k.held.map Prod.fst).Nodup)
    (hkeys : ∀ m, m ≠ l → (m ∈ k.held.map Prod.fst ↔ m ∈ (s.cores c).held.map Prod.fst))
    (hold : ∀ m p, m ≠ l → (s.cores c).pc.window ≠ some (m, p))
    (hnew : ∀ m p, m ≠ l → k.pc.window ≠ some (m, p))
    (hstep : ∀ w : OwnedLock.State N.Core, w.locked = v.locked → w.owner = v.coreId →
      w.phase c = k.phase l → (∀ d, d ≠ c → w.phase d = (s.cores d).phase l) →
      OwnedLock.Step (coreNames N) (s.view l) w)
    (hk : ControlOk k) : Inv ((s.setLock l v).setCore c k) := by
  have hothers : ∀ d m, d ≠ c →
      (((s.setLock l v).setCore c k).view m).phase d = (s.view m).phase d := by
    intro d m hd
    simp only [State.view]
    rw [setCore_cores_of_ne _ hd, setLock_cores]
  apply hi.coreStep (c := c)
  · intro d hd; rw [setCore_cores_of_ne _ hd, setLock_cores]
  · rw [setCore_cores_self]; exact hn
  · intro m
    by_cases hm : m = l
    · subst hm
      apply hstep
      · simp [State.view]
      · simp [State.view]
      · simp [State.view]
      · exact fun d => hothers d m
    refine .stutter ?_ ?_ fun d => ?_
    · simp only [State.view]; rw [setCore_locks, setLock_locks_of_ne s hm]
    · simp only [State.view]; rw [setCore_locks, setLock_locks_of_ne s hm]
    · by_cases hd : d = c
      · subst hd
        simp only [State.view]
        rw [setCore_cores_self, Core.phase_of_away fun p => hnew m p hm,
          Core.phase_of_away fun p => hold m p hm]
        simp [hkeys m hm]
      · exact hothers d m hd
  · rw [setCore_cores_self]; exact hk

/-! ## Every step -/

theorem inv_memoryStep (h : memoryStep s c = some s') : Inv s' := by
  have hk := hi.control c
  unfold memoryStep at h
  dsimp only at h
  cases hpc : (s.cores c).pc with simp only [ControlOk, hpc] at h hk
  | outside => cases h
  | getInterruptStatus l | disableInterrupt l b | loadSaved l =>
    cases h
    exact hi.setCore hpc rfl rfl rfl hk
  | testAndSet l b =>
    split_ifs at h with hl
    · cases h
      exact hi.setCore hpc rfl rfl rfl hk
    cases h
    have hl' : (s.locks l).locked = false := by simpa using hl
    obtain ⟨r, hr, hcall, hheld⟩ := hk
    have hno : ¬ s.Holds c l := hi.not_holds_of_unlocked hl'
    have hfalse : r.held = false := Bool.eq_false_iff.mpr fun hb => hno (hheld.mp hb)
    refine hi.lockStep ?_ ?_ ?_ ?_ ?_ ⟨r, hr, hcall, hfalse, by simp⟩
    · exact nodup_cons.mpr ⟨hno, hi.nodup c⟩
    · intro m hm; simp [hm]
    · intro m p _; simp [hpc]
    · intro m p hm; simp [Ne.symm hm]
    · refine fun w hlocked howner hself hothers => .acquire c hl' hlocked howner ?_ hothers
      simp only [hself, Core.phase, map_cons, mem_cons, true_or, Pc.window, if_true]
  | loadCoreId l b =>
    split_ifs at h with hid
    · cases h
      obtain ⟨r, hr, hcall, hheld⟩ := hk
      have hmem := (hi.coreId_iff hpc rfl).mp hid
      exact hi.setCore hpc rfl rfl rfl ⟨r, hr, hcall, hheld.mpr hmem, hmem⟩
    · cases h
      exact hi.setCore hpc rfl rfl rfl hk
  | restoreInterrupt l b | enableInterrupt l b =>
    cases h
    obtain ⟨r, hr, hcall, hheld, hmem⟩ := hk
    exact hi.setCore hpc rfl rfl rfl
      (controlOk_return hr (by simp [answer, hcall, hheld]) (by simpa only [Settled, hcall] using hmem))
  | storeCoreId l b =>
    cases h
    obtain ⟨r, hr, hcall, hheld, hmem⟩ := hk
    refine hi.lockStep (hi.nodup c) (fun _ _ => Iff.rfl) ?_ ?_ ?_ ⟨r, hr, hcall, hheld, hmem⟩
    · intro m p hm; simp [hpc, Ne.symm hm]
    · intro m p _; simp
    · refine fun w hlocked howner hself hothers =>
        .publish c ?_ hlocked howner (hself.trans (if_pos hmem)) hothers
      simp only [State.view, Core.phase, if_pos hmem, hpc, Pc.window, if_true]
  | storeSaved l b =>
    cases h
    obtain ⟨r, hr, hcall, hheld, hmem⟩ := hk
    refine hi.lockStep (hi.nodup c) (fun _ _ => Iff.rfl) ?_ ?_ ?_ (controlOk_return hr
      (by simp [answer, hcall, hheld]) (by simpa only [Settled, hcall] using hmem))
    · intro m p _; simp [hpc]
    · intro m p _; simp
    · refine fun w hlocked howner hself hothers => .stutter hlocked howner fun d => ?_
      by_cases hd : d = c
      · subst hd
        simp only [State.view, Core.phase, if_pos hmem, hpc, Pc.window]
        exact hself.trans (if_pos hmem)
      · exact hothers d hd
  | testLocked l =>
    split_ifs at h with hl
    · cases h
      exact hi.setCore hpc rfl rfl rfl hk
    cases h
    obtain ⟨r, hr, hcall, hheld⟩ := hk
    have hno : ¬ s.Holds c l := hi.not_holds_of_unlocked (by simpa using hl)
    have hfalse : r.held = false := Bool.eq_false_iff.mpr fun hb => hno (hheld.mp hb)
    exact hi.setCore hpc rfl rfl rfl
      (controlOk_return hr (by simp [answer, hcall, hfalse])
        (by simpa only [Settled, hcall, holds_iff] using hno))
  | testCoreId l =>
    obtain ⟨r, hr, hcall, hheld⟩ := hk
    split_ifs at h with hid
    · cases h
      have hmem := (hi.coreId_iff hpc rfl).mp hid
      exact hi.setCore hpc rfl rfl rfl ⟨r, hr, hcall, hheld.mpr hmem, hmem⟩
    cases h
    have hno : ¬ s.Holds c l :=
      fun hh => hid ((hi.coreId_iff hpc rfl).mpr hh)
    have hfalse : r.held = false := Bool.eq_false_iff.mpr fun hb => hno (hheld.mp hb)
    exact hi.setCore hpc rfl rfl rfl
      (controlOk_return hr (by simp [answer, hcall, hfalse])
        (by simpa only [Settled, hcall, holds_iff] using hno))
  | resetCoreId l =>
    cases h
    obtain ⟨r, hr, hcall, hheld, hmem⟩ := hk
    refine hi.lockStep (hi.nodup c) (fun _ _ => Iff.rfl) ?_ ?_ ?_ ⟨r, hr, hcall, hheld, hmem⟩
    · intro m p _; simp [hpc]
    · intro m p hm; simp [Ne.symm hm]
    · refine fun w hlocked howner hself hothers => .retract c ?_ hlocked howner ?_ hothers
      · simp only [State.view, Core.phase, if_pos hmem, hpc, Pc.window]
      · simp only [hself, Core.phase, Core.goto, if_pos hmem, Pc.window, if_true]
  | clear l =>
    cases h
    obtain ⟨r, hr, hcall, hheld, hmem⟩ := hk
    have hno : l ∉ (release l (s.cores c).held).map Prod.fst := by
      rw [mem_keys_release (hi.nodup c)]
      exact fun hm => hm.1 rfl
    refine hi.lockStep (nodup_keys_release (hi.nodup c)) ?_ ?_ ?_ ?_ ⟨r, hr, hcall, hheld, hno⟩
    · intro m hm
      rw [mem_keys_release (hi.nodup c)]
      exact and_iff_right hm
    · intro m p hm; simp [hpc, Ne.symm hm]
    · intro m p _; simp
    · refine fun w hlocked howner hself hothers =>
        .release c ?_ hlocked howner (hself.trans (if_neg hno)) hothers
      simp only [State.view, Core.phase, if_pos hmem, hpc, Pc.window, if_true]

theorem inv_next {a : Action N ι} (h : next s a = some s') : Inv s' := by
  cases a with
  | call c f =>
    obtain ⟨hpc, ⟨⟩⟩ := Option.ite_none_right_eq_some.mp h
    refine hi.setCore hpc rfl rfl (by cases f <;> rfl) ?_
    cases f with
    | lock l | unLock l => exact ⟨_, rfl, rfl, by simp [Call.target, holds_iff]⟩
  | step c => exact inv_memoryStep hi h
  | setInterrupt c b =>
    obtain ⟨hpc, ⟨⟩⟩ := Option.ite_none_right_eq_some.mp h
    have hk := hi.control c
    simp only [ControlOk, hpc] at hk
    refine hi.setCore hpc rfl rfl (by rw [hpc]; rfl) ?_
    simp only [ControlOk, hpc]
    exact hk

end

theorem inv_reachable (h : (system N ι).Reachable s) : Inv s :=
  h.invariant (P := Inv) (fun _ => inv_initial) fun _ _ _ hi => inv_next hi

/-! ## Recursion and ownership checks -/

def remaining : Pc ι → ℕ
  | .getInterruptStatus _ => 5
  | .disableInterrupt _ _ => 4
  | .testAndSet _ _ => 3
  | .loadCoreId _ _ => 2
  | .restoreInterrupt _ _ => 1
  | _ => 0

def InCall (k : Core ι) (f : Call ι) (held : Bool) : Prop :=
  k.pc ≠ .outside ∧ ∃ r, k.record = some r ∧ r.call = f ∧ r.held = held

theorem Inv.recursive_progress (hi : Inv s) (hc : InCall (s.cores c) (.lock l) true) :
    ∃ s', memoryStep s c = some s' ∧ remaining (s'.cores c).pc < remaining (s.cores c).pc := by
  obtain ⟨hout, r, hr, hcall, hheld⟩ := hc
  have hk := hi.control c
  unfold memoryStep
  dsimp only
  cases hpc : (s.cores c).pc with
    simp only [ControlOk, hpc, hr, Option.some.injEq, exists_eq_left', hcall, hheld] at hk
  | outside => exact absurd hpc hout
  | getInterruptStatus m => exact ⟨_, rfl, by simp [remaining]⟩
  | disableInterrupt m b => exact ⟨_, rfl, by simp [remaining]⟩
  | testAndSet m b =>
    have hl := hi.locked c m (hk.2.mp trivial)
    exact ⟨_, if_pos hl, by simp [remaining]⟩
  | loadCoreId m b =>
    have hid : (s.locks m).coreId = c.val :=
      (hi.coreId_iff hpc rfl).mpr (hk.2.mp trivial)
    exact ⟨_, if_pos hid, by simp [remaining]⟩
  | restoreInterrupt m b => exact ⟨_, rfl, by simp [remaining]⟩
  | storeCoreId m b | storeSaved m b => simp at hk
  | testLocked m | testCoreId m | resetCoreId m | clear m | loadSaved m | enableInterrupt m b =>
    simp at hk

theorem Inv.unowned_readOnly (hi : Inv s) (hc : InCall (s.cores c) (.unLock l) false)
    (h : memoryStep s c = some s') : s'.locks = s.locks := by
  obtain ⟨hout, r, hr, hcall, hheld⟩ := hc
  have hk := hi.control c
  unfold memoryStep at h
  cases hpc : (s.cores c).pc with
    simp only [ControlOk, hpc, hr, Option.some.injEq, exists_eq_left', hcall, hheld] at hk
  | outside => exact absurd hpc hout
  | testLocked m | testCoreId m =>
    simp only [hpc] at h
    split at h <;> (cases h; rfl)
  | getInterruptStatus m | disableInterrupt m b | testAndSet m b | loadCoreId m b
  | restoreInterrupt m b | storeCoreId m b | storeSaved m b => simp at hk
  | resetCoreId m | clear m | loadSaved m | enableInterrupt m b => simp at hk

/-- The lock's contract in a state: at most one holder; a returned call has answered
according to whether its caller held the lock when it called; a recursive `Lock` gets its
answer without waiting; and an `UnLock` without ownership leaves all locks as they are. -/
structure Contract (s : State N ι) : Prop where
  exclusive : ∀ l c d, s.Holds c l → s.Holds d l → c = d
  answers : ∀ c r res, (s.cores c).pc = .outside → (s.cores c).record = some r →
    (s.cores c).result = some res → res = answer r ∧ Settled (s.cores c) r
  recursive : ∀ c l, InCall (s.cores c) (.lock l) true →
    ∃ s', next s (.step c) = some s' ∧ remaining (s'.cores c).pc < remaining (s.cores c).pc
  unowned : ∀ c l s', InCall (s.cores c) (.unLock l) false →
    next s (.step c) = some s' → s'.locks = s.locks

/-- Whatever the cores do, in every reachable state the lock keeps its contract. -/
theorem spinLock_contract (h : (system N ι).Reachable s) : Contract s := by
  have hi := inv_reachable h
  refine ⟨fun l c d => hi.excl c d l, ?_, fun c l => hi.recursive_progress,
    fun c l s' => hi.unowned_readOnly⟩
  intro c r res hpc hr hres
  have hk := hi.control c
  simp only [ControlOk, hpc] at hk
  exact hk r res hr hres

/-- Two cores and one lock; core 0 runs with interrupts enabled, core 1 without. -/
def twoCores : CoreCount := ⟨2, two_le_sizeMax⟩

def core0 : twoCores.Core := ⟨0, by decide⟩

def core1 : twoCores.Core := ⟨1, by decide⟩

def sharedLock : State twoCores Unit where
  locks _ := {}
  cores c := { intr := c == core0 }

theorem sharedLock_initial : Initial sharedLock := ⟨fun _ => rfl, fun _ => rfl⟩

/-- Core 0 takes the lock and calls `Lock` again; core 1 calls `UnLock`. Both calls
fail, each with its own error. -/
theorem spinLock_contract_misused : ∃ s : State twoCores Unit, s.Holds core0 () ∧
    (s.cores core0).result = some (.error .spinLockRecursiveLock) ∧
    (s.cores core1).result = some (.error .spinLockNotOwned) ∧ Contract s := by
  obtain ⟨s, hs, hp⟩ := (system twoCores Unit).exists_of_run (fun _ _ => True)
    (.call core0 (.lock ()) :: replicate 5 (.step core0) ++
      .call core0 (.lock ()) :: replicate 5 (.step core0) ++
      .call core1 (.unLock ()) :: replicate 2 (.step core1))
    (fun s => s.Holds core0 () ∧
      (s.cores core0).result = some (.error .spinLockRecursiveLock) ∧
      (s.cores core1).result = some (.error .spinLockNotOwned))
    sharedLock_initial (by decide)
  exact ⟨s, hp.1, hp.2.1, hp.2.2, spinLock_contract hs⟩

end SimpleKernel.SpinLock
