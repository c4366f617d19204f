import SimpleKernel.Verification.Mutex.Ownership

/-! # No wakeup of the mutex is lost

`UnLock` scans the cores one scheduler lock at a time, so a task may block on a core that
the scan has passed. The invariant says for every core why its waiting tasks will be
looked at again. -/

namespace SimpleKernel.Mutex

open List

variable {N : CoreCount} {τ : Type*}

def Pc.inside : Pc N → Option N.Core
  | .recheck c | .storeOwnerLocked c | .block c | .leaveSched c _ => some c
  | _ => none

def Pc.Parked (pc : Pc N) : Prop := pc = .schedule ∨ pc = .retry

def Pc.isPlain : Pc N → Bool
  | .leaveSched _ false | .schedule | .retry | .wakeupOne _ => false
  | _ => true

theorem Pc.not_parked_of_isPlain {pc : Pc N} (h : pc.isPlain = true) : ¬ pc.Parked := by
  rintro (rfl | rfl) <;> cases h

/-- A task that was woken and has not yet retried its compare-exchange. -/
def State.Retries (s : State N τ) (t : τ) : Prop :=
  s.woken t = true ∧ (s.tasks t).pc.Parked

def State.Scans (s : State N τ) (t : τ) (c : N.Core) : Prop :=
  ∃ i, (s.tasks t).pc = .wakeupOne i ∧ i ≤ c.val

def State.Awaited (s : State N τ) (c : N.Core) : Prop :=
  s.waiting c ≠ [] ∨ ∃ t, (s.tasks t).pc = .block c

def State.Served (s : State N τ) (c : N.Core) : Prop :=
  s.mutex.locked = true ∨ (∃ t, s.Scans t c) ∨ ∃ t, s.Retries t

/-- The waiting lists hold the blocked tasks, each of them once. -/
structure Queues (s : State N τ) : Prop where
  blocked : ∀ t, s.status t = .blocked → ∃ c, t ∈ s.waiting c
  waiting : ∀ c, ∀ t ∈ s.waiting c, s.status t = .blocked ∧
    ((s.tasks t).pc = .leaveSched c false ∨ (s.tasks t).pc.Parked)
  nodup : ∀ c, (s.waiting c).Nodup
  unique : ∀ c d t, t ∈ s.waiting c → t ∈ s.waiting d → c = d

/-- A list that a task waits on, or is about to wait on, will be looked at again. -/
structure WaitInv (s : State N τ) : Prop extends Queues s where
  inside : ∀ t c, (s.tasks t).pc.inside = some c → s.schedLock c = some t
  woken : ∀ t, s.woken t = true → (s.tasks t).pc.Parked
  served : ∀ c, s.Awaited c → s.Served c

variable {s s' : State N τ} {t : τ} {c : N.Core}

theorem waitInv_initial (h : Initial s) : WaitInv s := by
  obtain ⟨hs, hstatus⟩ := h
  rw [hs]
  refine ⟨⟨fun t ht => ?_, ?_, ?_, ?_⟩, ?_, ?_, ?_⟩
  · rcases hstatus t with h | h
    all_goals rw [h] at ht; cases ht
  · intro c t ht; cases ht
  · intro c; exact nodup_nil
  · intro c d t ht; cases ht
  · intro t c ht; cases ht
  · intro t ht; cases ht
  · rintro c (h | ⟨t, h⟩)
    · exact absurd rfl h
    · cases h

theorem Queues.not_mem (hq : Queues s) (h : s.status t ≠ .blocked) : t ∉ s.waiting c :=
  fun ht => h (hq.waiting c t ht).1

theorem Queues.frame (hq : Queues s) (hstatus : ∀ u, s'.status u = .blocked ↔ s.status u = .blocked)
    (hwaiting : s'.waiting = s.waiting)
    (hpc : ∀ c, ∀ u ∈ s.waiting c,
      (s'.tasks u).pc = .leaveSched c false ∨ (s'.tasks u).pc.Parked) : Queues s' := by
  refine ⟨?_, ?_, ?_, ?_⟩
  · intro u hu; rw [hwaiting]; exact hq.blocked u ((hstatus u).mp hu)
  · intro c u hu
    rw [hwaiting] at hu
    exact ⟨(hstatus u).mpr (hq.waiting c u hu).1, hpc c u hu⟩
  · intro c; rw [hwaiting]; exact hq.nodup c
  · intro c d u; rw [hwaiting]; exact hq.unique c d u

theorem State.Served.of_others (hs : s.Served c) (hothers : ∀ u, u ≠ t → s'.tasks u = s.tasks u)
    (hwoken : ∀ u, u ≠ t → s'.woken u = s.woken u)
    (hlocked : s.mutex.locked = true → s'.Served c) (hscan : s.Scans t c → s'.Served c)
    (hretry : s.Retries t → s'.Served c) : s'.Served c := by
  rcases hs with h | ⟨u, hu⟩ | ⟨u, hu⟩
  · exact hlocked h
  · by_cases hut : u = t
    · subst hut; exact hscan hu
    · obtain ⟨i, hi, hle⟩ := hu
      exact .inr (.inl ⟨u, i, by rw [hothers u hut]; exact hi, hle⟩)
  · by_cases hut : u = t
    · subst hut; exact hretry hu
    · exact .inr (.inr ⟨u, by rw [hwoken u hut]; exact hu.1, by rw [hothers u hut]; exact hu.2⟩)

theorem WaitInv.taskStep (hw : WaitInv s) (hq : Queues s')
    (hothers : ∀ u, u ≠ t → s'.tasks u = s.tasks u)
    (hself : ∀ c, (s'.tasks t).pc.inside = some c → s'.schedLock c = some t)
    (hinside : ∀ u c, u ≠ t → s.schedLock c = some u → s'.schedLock c = some u)
    (hwoken : ∀ u, u ≠ t → s'.woken u = s.woken u)
    (hwoken' : s'.woken t = true → (s'.tasks t).pc.Parked)
    (hserved : ∀ c, s.Awaited c → s.Served c → s'.Served c)
    (hblock : ∀ c, (s'.tasks t).pc = .block c → s'.Served c)
    (hwait : ∀ c, s'.waiting c ≠ [] → s.waiting c ≠ [] ∨ (s.tasks t).pc = .block c) :
    WaitInv s' := by
  refine ⟨hq, ?_, ?_, ?_⟩
  · intro u c hu
    by_cases hut : u = t
    · subst hut; exact hself c hu
    · rw [hothers u hut] at hu
      exact hinside u c hut (hw.inside u c hu)
  · intro u hu
    by_cases hut : u = t
    · subst hut; exact hwoken' hu
    rw [hwoken u hut] at hu
    rw [hothers u hut]
    exact hw.woken u hu
  · rintro c (h | ⟨u, hu⟩)
    · have hc : s.Awaited c := (hwait c h).imp_right fun h => ⟨t, h⟩
      exact hserved c hc (hw.served c hc)
    · by_cases hut : u = t
      · subst hut; exact hblock c hu
      · rw [hothers u hut] at hu
        exact hserved c (.inr ⟨u, hu⟩) (hw.served c (.inr ⟨u, hu⟩))

/-! ## The steps of a task -/

theorem WaitInv.wake (hw : WaitInv s) (ws rest : List τ) (hne : ws ≠ [])
    (hfree : s.schedLock c = none) (hsplit : s.waiting c = ws ++ rest)
    (htasks : ∀ u, s'.tasks u = s.tasks u ∨ (¬ (s.tasks u).pc.Parked ∧
      (s.tasks u).pc.inside = none ∧ (s'.tasks u).pc.inside = none))
    (hsched : s'.schedLock = s.schedLock) (hself : s'.waiting c = rest)
    (hwaiting : ∀ d, d ≠ c → s'.waiting d = s.waiting d)
    (hstatus : ∀ u, u ∉ ws → s'.status u = s.status u) (hready : ∀ u ∈ ws, s'.status u ≠ .blocked)
    (hwoken : ∀ u, s'.woken u = true ↔ u ∈ ws ∨ s.woken u = true) : WaitInv s' := by
  have hparked : ∀ u ∈ ws, (s.tasks u).pc.Parked := by
    intro u hu
    rcases (hw.waiting c u (by rw [hsplit]; exact mem_append_left _ hu)).2 with h | h
    · have hlock := hw.inside u c (by rw [h]; rfl)
      rw [hfree] at hlock
      cases hlock
    · exact h
  have hkeep : ∀ u, (s.tasks u).pc.Parked ∨ (∃ d, (s.tasks u).pc.inside = some d) →
      s'.tasks u = s.tasks u := by
    intro u hu
    refine (htasks u).resolve_right fun ⟨hp, hin, _⟩ => ?_
    rcases hu with h | ⟨d, h⟩
    · exact hp h
    · rw [hin] at h; cases h
  have hsub : ∀ d, (s'.waiting d).Sublist (s.waiting d) := by
    intro d
    by_cases hd : d = c
    · subst hd; rw [hself, hsplit]; exact sublist_append_right ws rest
    · rw [hwaiting d hd]
  have hgone : ∀ d, ∀ u ∈ s'.waiting d, u ∉ ws := by
    intro d u hu hws
    have hc : u ∈ s.waiting c := by rw [hsplit]; exact mem_append_left _ hws
    obtain rfl := hw.unique d c u ((hsub d).subset hu) hc
    have hn := hw.nodup d
    rw [hsplit, nodup_append] at hn
    rw [hself] at hu
    exact hn.2.2 u hws u hu rfl
  have hretry : ∀ d, s'.Served d := by
    intro d
    obtain ⟨x, hx⟩ := exists_mem_of_ne_nil ws hne
    refine .inr (.inr ⟨x, (hwoken x).mpr (.inl hx), ?_⟩)
    rw [hkeep x (.inl (hparked x hx))]
    exact hparked x hx
  refine ⟨⟨?_, ?_, ?_, ?_⟩, ?_, ?_, fun d _ => hretry d⟩
  · intro u hu
    have hws : u ∉ ws := fun h => hready u h hu
    rw [hstatus u hws] at hu
    obtain ⟨d, hd⟩ := hw.blocked u hu
    refine ⟨d, ?_⟩
    by_cases hdc : d = c
    · subst hdc
      rw [hsplit, mem_append] at hd
      rw [hself]
      exact hd.resolve_left hws
    · rw [hwaiting d hdc]; exact hd
  · intro d u hu
    obtain ⟨hb, hp⟩ := hw.waiting d u ((hsub d).subset hu)
    rw [hstatus u (hgone d u hu), hkeep u (hp.symm.imp_right fun h => ⟨d, by rw [h]; rfl⟩)]
    exact ⟨hb, hp⟩
  · intro d; exact (hw.nodup d).sublist (hsub d)
  · intro d e u hd he; exact hw.unique d e u ((hsub d).subset hd) ((hsub e).subset he)
  · intro u d hu
    rw [hsched]
    rcases htasks u with h | ⟨-, -, h⟩
    · rw [h] at hu; exact hw.inside u d hu
    · rw [h] at hu; cases hu
  · intro u hu
    have hp : (s.tasks u).pc.Parked := by
      rcases (hwoken u).mp hu with h | h
      · exact hparked u h
      · exact hw.woken u h
    rw [hkeep u (.inl hp)]
    exact hp

variable [DecidableEq τ] {mutex : Data} {schedLock : N.Core → Option τ} {k : Task N} {pid : τ → ℕ}

theorem WaitInv.receive (hw : WaitInv s) {msg : Msg} (hold : s.status t ≠ .blocked)
    (hnew : (s.status t).receive msg ≠ .blocked) : WaitInv (s.receive t msg) := by
  refine ⟨hw.frame (fun u => ?_) rfl fun c u hu => (hw.waiting c u hu).2, hw.inside, hw.woken,
    hw.served⟩
  by_cases hut : u = t
  · subst hut; rw [receive_status_self]; exact iff_of_false hnew hold
  · rw [receive_status_of_ne s hut]

/-! ## Every step -/

theorem WaitInv.quietStep (hw : WaitInv s)
    (hpark : (∃ c, (s.tasks t).pc = .leaveSched c false) ∨ (s.tasks t).pc.Parked → k.pc.Parked)
    (hself : ∀ c, k.pc.inside = some c → schedLock c = some t)
    (hinside : ∀ u c, u ≠ t → s.schedLock c = some u → schedLock c = some u)
    (hlocked : s.mutex.locked = true → mutex.locked = true ∨ k.pc = .wakeupOne 0)
    (hscan : ∀ c i, s.Awaited c → (s.tasks t).pc = .wakeupOne i → i ≤ c.val →
      k.pc = .wakeupOne (i + 1) ∧ i ≠ c.val)
    (hblock : ∀ c, k.pc = .block c → mutex.locked = true) :
    WaitInv ({ s with mutex, schedLock }.setTask t k) := by
  have hothers : ∀ u, u ≠ t → ({ s with mutex, schedLock }.setTask t k).tasks u = s.tasks u :=
    fun u hu => setTask_tasks_of_ne _ hu _
  have hk : ({ s with mutex, schedLock }.setTask t k).tasks t = k := setTask_tasks_self ..
  refine hw.taskStep (t := t) ?_ hothers (fun c h => hself c (hk ▸ h)) hinside (fun _ _ => rfl)
    (fun h => by rw [hk]; exact hpark (.inr (hw.woken t h))) (fun c hc hs => ?_)
    (fun c h => .inl (hblock c (hk ▸ h))) fun _ h => .inl h
  · refine hw.frame (fun _ => .rfl) rfl fun c u hu => ?_
    have hp := (hw.waiting c u hu).2
    by_cases hut : u = t
    · subst hut
      rw [hk]
      exact .inr (hpark (hp.imp_left fun h => ⟨c, h⟩))
    · rw [hothers u hut]
      exact hp
  · refine hs.of_others hothers (fun _ _ => rfl) (fun h => ?_) (fun ⟨i, hi, hle⟩ => ?_) fun h => ?_
    · rcases hlocked h with h | h
      · exact .inl h
      · exact .inr (.inl ⟨t, 0, by rw [hk]; exact h, Nat.zero_le _⟩)
    · obtain ⟨hnext, hne⟩ := hscan c i hc hi hle
      exact .inr (.inl ⟨t, i + 1, by rw [hk]; exact hnext, by omega⟩)
    · exact .inr (.inr ⟨t, h.1, by rw [hk]; exact hpark (.inr h.2)⟩)

section

variable {pc : Pc N} (hw : WaitInv s) (hpc : (s.tasks t).pc = pc) (hplain : pc.isPlain = true)
include hw hpc hplain

theorem WaitInv.move (hlocked : s.mutex.locked = true → mutex.locked = true ∨ k.pc = .wakeupOne 0)
    (hself : ∀ c, k.pc.inside = some c → schedLock c = some t)
    (hinside : ∀ u c, u ≠ t → s.schedLock c = some u → schedLock c = some u)
    (hblock : ∀ c, k.pc = .block c → mutex.locked = true) :
    WaitInv ({ s with mutex, schedLock }.setTask t k) := by
  refine hw.quietStep ?_ hself hinside hlocked (fun c i _ hi => ?_) hblock
  · rw [hpc]
    rintro (⟨c, rfl⟩ | h)
    · cases hplain
    · exact absurd h (Pc.not_parked_of_isPlain hplain)
  · cases hpc.symm.trans hi
    cases hplain

theorem WaitInv.goto (hin : k.pc.inside = none)
    (hlocked : s.mutex.locked = true → mutex.locked = true ∨ k.pc = .wakeupOne 0)
    (hinside : ∀ u c, u ≠ t → s.schedLock c = some u → schedLock c = some u) :
    WaitInv ({ s with mutex, schedLock }.setTask t k) := by
  refine hw.move hpc hplain hlocked (fun c hc => ?_) hinside fun c hc => ?_
  · rw [hin] at hc
    cases hc
  · rw [hc] at hin
    cases hin

end

section

variable (hw : WaitInv s)
include hw

theorem WaitInv.park (hscan : ∀ i, (s.tasks t).pc ≠ .wakeupOne i) (hnew : k.pc.Parked)
    (hinside : ∀ u c, u ≠ t → s.schedLock c = some u → schedLock c = some u) :
    WaitInv ({ s with schedLock }.setTask t k) := by
  have hpc : ∀ c, k.pc.inside ≠ some c ∧ k.pc ≠ .block c := by
    rcases hnew with h | h <;> simp [h, Pc.inside]
  exact hw.quietStep (fun _ => hnew) (fun c h => absurd h (hpc c).1) hinside .inl
    (fun _ i _ hi => absurd hi (hscan i)) fun c h => absurd h (hpc c).2

theorem WaitInv.retry (hrun : s.status t = .running) (hlocked : mutex.locked = true)
    (hin : k.pc.inside = none) : WaitInv ({ s.setWoken t false with mutex }.setTask t k) := by
  refine hw.taskStep (t := t) ?_ (fun u hu => setTask_tasks_of_ne _ hu _) (fun c h => ?_)
    (fun _ _ _ h => h) (fun u hu => Function.update_of_ne hu ..) (fun h => ?_)
    (fun _ _ _ => .inl hlocked) (fun _ _ => .inl hlocked) fun _ h => .inl h
  · refine hw.frame (fun _ => .rfl) rfl fun c u hu => ?_
    have hut : u ≠ t := by
      rintro rfl
      exact hw.not_mem (by simp [hrun]) hu
    rw [setTask_tasks_of_ne _ hut]
    exact (hw.waiting c u hu).2
  · rw [setTask_tasks_self, hin] at h
    cases h
  · simp at h

theorem WaitInv.block (hpc : (s.tasks t).pc = .block c) (hnew : k.pc = .leaveSched c false)
    (hrun : s.status t = .running) :
    WaitInv (({ s with waiting := Function.update s.waiting c (s.waiting c ++ [t]) }.setTask t
      k).receive t .block) := by
  have hnot : ∀ d, t ∉ s.waiting d := fun d => hw.not_mem (by simp [hrun])
  have hmem : ∀ d u, u ∈ Function.update s.waiting c (s.waiting c ++ [t]) d ↔
      u ∈ s.waiting d ∨ (u = t ∧ d = c) := by
    intro d u
    by_cases hd : d = c
    · subst hd; simp
    · simp [hd]
  have hparked : ¬ (s.tasks t).pc.Parked := by
    rw [hpc]
    rintro (h | h) <;> cases h
  refine hw.taskStep (t := t) ⟨?_, ?_, ?_, ?_⟩ (fun u hu => setTask_tasks_of_ne _ hu _)
    (fun d h => ?_) (fun _ _ _ h => h) (fun _ _ => rfl)
    (fun h => absurd (hw.woken t h) hparked) (fun d _ hs => ?_) (fun d h => ?_) (fun d h => ?_)
  · intro u hu
    by_cases hut : u = t
    · exact ⟨c, (hmem c u).mpr (.inr ⟨hut, rfl⟩)⟩
    rw [receive_status_of_ne _ hut] at hu
    obtain ⟨d, hd⟩ := hw.blocked u hu
    exact ⟨d, (hmem d u).mpr (.inl hd)⟩
  · intro d u hu
    rcases (hmem d u).mp hu with hold | ⟨rfl, rfl⟩
    · have hut : u ≠ t := by
        rintro rfl
        exact hnot d hold
      rw [receive_status_of_ne _ hut]
      simpa [hut] using hw.waiting d u hold
    · simp only [State.receive, State.setTask, Function.update_self, hnew, hrun]
      exact ⟨rfl, .inl trivial⟩
  · intro d
    by_cases hd : d = c
    · subst hd
      have hne : ∀ u ∈ s.waiting d, u ≠ t := fun u hu hut => hnot d (hut ▸ hu)
      simpa [nodup_append] using ⟨hw.nodup d, hne⟩
    · simpa [hd] using hw.nodup d
  · intro d e u hd he
    rcases (hmem d u).mp hd with hd' | ⟨rfl, rfl⟩
    · rcases (hmem e u).mp he with he' | ⟨rfl, rfl⟩
      · exact hw.unique d e u hd' he'
      · exact absurd hd' (hnot d)
    rcases (hmem e u).mp he with he' | ⟨-, rfl⟩
    · exact absurd he' (hnot e)
    · rfl
  · simp only [State.receive, setTask_tasks_self, hnew] at h
    cases h
    exact hw.inside t c (by rw [hpc]; rfl)
  · refine hs.of_others (fun u hu => setTask_tasks_of_ne _ hu _) (fun _ _ => rfl) (fun h => .inl h)
      (fun h => ?_) (fun h => absurd h.2 hparked)
    obtain ⟨i, hi, -⟩ := h
    cases hpc.symm.trans hi
  · simp only [State.receive, setTask_tasks_self, hnew] at h
    cases h
  · by_cases hd : d = c
    · subst hd; exact .inr hpc
    · exact .inl (by simpa [hd] using h)

theorem WaitInv.scan {i : ℕ} (hpc : (s.tasks t).pc = .wakeupOne i) (hin : k.pc.inside = none)
    (hscan : ∀ d, s.Awaited d → i ≤ d.val → k.pc = .wakeupOne (i + 1) ∧ i ≠ d.val) :
    WaitInv (s.setTask t k) := by
  refine hw.quietStep ?_ (fun c hc => ?_) (fun _ _ _ h => h) .inl (fun c j hc hj hle => ?_)
    fun c hc => ?_
  · rw [hpc]
    rintro (⟨c, h⟩ | h | h) <;> cases h
  · rw [hin] at hc
    cases hc
  · rw [hpc] at hj
    cases hj
    exact hscan c hc hle
  · rw [hc] at hin
    cases hin

theorem WaitInv.wakeOne {x : τ} {rest : List τ} {i : ℕ}
    (hpc : (s.tasks t).pc = .wakeupOne i) (hfree : s.schedLock c = none)
    (hlist : s.waiting c = x :: rest) (hin : k.pc.inside = none) :
    WaitInv (({ s with waiting := Function.update s.waiting c rest }.setTask t k).wake x) := by
  refine hw.wake (c := c) [x] rest (by simp) hfree hlist (fun u => ?_) rfl ?_ (fun d hd => ?_)
    (fun u hu => ?_) (fun u hu => ?_) (fun u => ?_)
  · by_cases hu : u = t
    · subst hu
      exact .inr ⟨by simp [hpc, Pc.Parked], by rw [hpc]; rfl,
        (congrArg (Pc.inside ∘ Task.pc) (setTask_tasks_self _ u _)).trans hin⟩
    · exact .inl (setTask_tasks_of_ne _ hu _)
  · simp
  · simp [hd]
  · exact wake_status_of_ne _ (by simpa using hu)
  · obtain rfl : u = x := by simpa using hu
    exact wake_status_ne_blocked _ u
  · rw [wake_woken]
    simp

theorem waitInv_atomicStep {here : N.Core} (hx : s.Executes t)
    (h : atomicStep pid s t here = some s') : WaitInv s' := by
  unfold atomicStep at h
  cases hpc : (s.tasks t).pc with simp only [hpc] at h
  | outside => cases h
  | loadLocked f | loadOwner f =>
    split at h <;> cases h
    all_goals
      refine hw.goto hpc rfl ?_ .inl fun _ _ _ h => h
      cases f <;> rfl
  | compareExchange f =>
    split at h
    · split at h <;> cases h
      all_goals exact hw.goto hpc rfl rfl .inl fun _ _ _ h => h
    · cases h
      exact hw.goto hpc rfl rfl (fun _ => .inl rfl) fun _ _ _ h => h
  | storeOwner | resetOwner =>
    cases h
    exact hw.goto hpc rfl rfl .inl fun _ _ _ h => h
  | enterSched =>
    obtain ⟨hfree, ⟨⟩⟩ := Option.ite_none_right_eq_some.mp h
    refine hw.move hpc rfl .inl
      (fun _ hd => Option.some.inj hd ▸ Function.update_self ..) (fun u c _ hu => ?_)
      fun c hc => by cases hc
    have hne : c ≠ here := by
      rintro rfl
      rw [hfree] at hu
      cases hu
    simpa [hne] using hu
  | recheck c =>
    have hlock := hw.inside t c (by rw [hpc]; rfl)
    split_ifs at h with hl
    · cases h
      exact hw.move hpc rfl .inl
        (fun _ hd => Option.some.inj hd ▸ hlock) (fun _ _ _ h => h) fun _ _ => hl
    cases h
    exact hw.move hpc rfl (fun _ => .inl rfl)
      (fun _ hd => Option.some.inj hd ▸ hlock) (fun _ _ _ h => h) fun _ _ => rfl
  | storeOwnerLocked c =>
    have hlock := hw.inside t c (by rw [hpc]; rfl)
    cases h
    exact hw.move hpc rfl .inl
      (fun _ hd => Option.some.inj hd ▸ hlock) (fun _ _ _ h => h) fun _ hc => by cases hc
  | block c =>
    split at h
    · cases h
      exact hw.block hpc rfl (hx.resolve_left (by simp [hpc, Pc.leaving]))
    cases h
    exact hw.move hpc rfl .inl
      (fun _ hd => Option.some.inj hd ▸ hw.inside t c (by rw [hpc]; rfl)) (fun _ _ _ h => h)
      fun _ hc => by cases hc
  | leaveSched c acquired =>
    have hlock := hw.inside t c (by rw [hpc]; rfl)
    have hothers : ∀ u d, u ≠ t → s.schedLock d = some u →
        Function.update s.schedLock c none d = some u := by
      intro u d hu hd
      have hne : d ≠ c := by
        rintro rfl
        exact hu (Option.some.inj (hd.symm.trans hlock))
      simpa [hne] using hd
    cases h
    cases acquired with
    | true => exact hw.goto hpc rfl rfl .inl hothers
    | false => exact hw.park (by simp [hpc]) (.inl rfl) hothers
  | schedule =>
    cases h
    have hpark : ∀ s₁ : State N τ, WaitInv s₁ → s₁.tasks = s.tasks →
        WaitInv (s₁.setTask t ((s.tasks t).goto .retry)) := fun s₁ hw₁ h₁ =>
      hw₁.park (by simp [h₁, hpc]) (.inr rfl) fun _ _ _ h => h
    split_ifs with hrun
    · exact hpark _ (hw.receive (by rw [hrun]; decide) (by rw [hrun]; decide)) rfl
    · exact hpark s hw rfl
  | retry =>
    have hrun : s.status t = .running := hx.resolve_left (by simp [hpc, Pc.leaving])
    split_ifs at h with hl
    · cases h
      exact hw.retry hrun hl rfl
    · cases h
      exact hw.retry hrun rfl rfl
  | storeLocked =>
    cases h
    exact hw.goto hpc rfl rfl (fun _ => .inr rfl) fun _ _ _ h => h
  | wakeupOne i =>
    split at h
    · rename_i hi
      obtain ⟨hfree, h⟩ := Option.ite_none_right_eq_some.mp h
      split at h
      · rename_i hempty
        cases h
        refine hw.scan hpc rfl fun d hd _ => ⟨rfl, ?_⟩
        rintro rfl
        rcases hd with hd | ⟨u, hu⟩
        · exact hd hempty
        have hlock := hw.inside u d (by rw [hu]; rfl)
        rw [show s.schedLock d = none from hfree] at hlock
        cases hlock
      · rename_i x rest hlist
        cases h
        exact hw.wakeOne hpc hfree hlist rfl
    · rename_i hi
      cases h
      exact hw.scan hpc rfl fun d _ hle => absurd (Nat.lt_of_le_of_lt hle d.isLt) hi

theorem waitInv_next {a : Action N τ} (h : next pid s a = some s') : WaitInv s' := by
  cases a with simp only [next] at h
  | call t f =>
    split at h
    · rename_i hcall
      cases h
      exact hw.goto hcall.1 rfl rfl .inl fun _ _ _ h => h
    · cases h
  | step t c =>
    split at h
    · rename_i hx
      exact waitInv_atomicStep hw hx h
    · cases h
  | dispatch t | preempt t =>
    split at h
    · rename_i hst
      cases h
      exact hw.receive (by rw [hst]; decide) (by rw [hst]; decide)
    · cases h
  | wakeup c =>
    obtain ⟨hfree, ⟨⟩⟩ := Option.ite_none_right_eq_some.mp h
    by_cases hempty : s.waiting c = []
    · rw [hempty, foldl_nil, ← hempty, Function.update_eq_self]
      exact hw
    refine hw.wake (c := c) (s.waiting c) [] hempty hfree (by simp) (fun u => .inl ?_) ?_ ?_
      (fun d hd => ?_) (fun u hu => ?_) (fun u hu hb => ?_) (fun u => ?_)
    · rw [foldl_wake_tasks]
    · rw [foldl_wake_schedLock]
    · simp
    · simp [hd]
    · rw [foldl_wake_status_of_not_mem _ _ hu]
    · exact (foldl_wake_status_eq_blocked _ _ hb).1 hu
    · rw [foldl_wake_woken]
      simp

end

theorem waitInv_reachable (h : (system N pid).Reachable s) : WaitInv s :=
  h.invariant (P := WaitInv) (fun _ => waitInv_initial) fun _ _ _ hw => waitInv_next hw

/-- No wakeup is lost: a task that is blocked on the mutex waits for a holder, for a scan
that has not come to an end, or for a woken task that has not retried. -/
theorem no_lost_wakeup {pid : τ → ℕ} (h : (system N pid).Reachable s) (t : τ)
    (hb : s.status t = .blocked) :
    s.mutex.locked = true ∨ (∃ u i, (s.tasks u).pc = .wakeupOne i ∧ i < N.val) ∨
      ∃ u, s.Retries u := by
  have hw := waitInv_reachable h
  obtain ⟨c, hc⟩ := hw.blocked t hb
  rcases hw.served c (.inl (ne_nil_of_mem hc)) with hl | ⟨u, i, hu, hi⟩ | hr
  · exact .inl hl
  · exact .inr (.inl ⟨u, i, hu, Nat.lt_of_le_of_lt hi c.isLt⟩)
  · exact .inr (.inr hr)

/-- Task 2 blocks while task 1 holds the mutex; task 1 has just cleared `locked_`. -/
theorem no_lost_wakeup_released : ∃ s : State oneCore Bool, s.status true = .blocked ∧
    s.mutex.locked = false ∧
    (s.mutex.locked = true ∨ (∃ u i, (s.tasks u).pc = .wakeupOne i ∧ i < oneCore.val) ∨
      ∃ u, s.Retries u) := by
  obtain ⟨s, hs, hp⟩ := (system oneCore twoTasks.pid).exists_of_run (fun _ _ => True)
    (.call false .lock :: replicate 3 (.step false boot) ++
      .call true .lock :: replicate 8 (.step true boot) ++
      .call false .unLock :: replicate 4 (.step false boot))
    (fun s => s.status true = .blocked ∧ s.mutex.locked = false) (freshMutex_initial Bool)
    (by decide)
  exact ⟨s, hp.1, hp.2, no_lost_wakeup hs true hp.1⟩

end SimpleKernel.Mutex
