import SimpleKernel.Verification.SpinLock.Exclusion

/-! # What the spin lock does to the interrupt flag

`UnLock` reads `saved_intr_enable_` after it has released the lock. Another core may by
then have acquired the lock and stored its own flag there. -/

namespace SimpleKernel.SpinLock

variable {N : CoreCount} {ι : Type*} [DecidableEq ι] {s s' : State N ι} {c d : N.Core} {l m : ι}
  {held : List (ι × Bool)} {locks : ι → Data} {k k' : Core ι}

/-- Lock pairs are properly nested, and a core that holds a lock leaves its interrupt
flag to the lock functions. -/
def Nested (s : State N ι) : Action N ι → Prop
  | .call c (.unLock l) => s.Holds c l → (s.cores c).held.head?.map Prod.fst = some l
  | .call _ (.lock _) => True
  | .step _ => True
  | .setInterrupt c _ => (s.cores c).held = []

def KeepsSaved (s : State N ι) (d : N.Core) : Pc ι → Prop
  | .storeSaved l b => ∀ c, c ≠ d → (s.cores c).pc = .loadSaved l → b = (s.locks l).savedIntrEnable
  | _ => True

def SavedKept (s : State N ι) : Action N ι → Prop
  | .step d => KeepsSaved s d (s.cores d).pc
  | .call _ _ => True
  | .setInterrupt _ _ => True

instance (s : State N ι) : DecidablePred (Nested s)
  | .call _ (.unLock _) => inferInstanceAs (Decidable (_ → _))
  | .call _ (.lock _) => .isTrue trivial
  | .step _ => .isTrue trivial
  | .setInterrupt _ _ => inferInstanceAs (Decidable (_ = _))

instance (s : State N ι) (d : N.Core) : DecidablePred (KeepsSaved s d)
  | .storeSaved _ _ => inferInstanceAs (Decidable (∀ _, _))
  | .outside | .getInterruptStatus _ | .disableInterrupt _ _ | .testAndSet _ _ | .loadCoreId _ _
  | .restoreInterrupt _ _ | .storeCoreId _ _ | .testLocked _ | .testCoreId _ | .resetCoreId _
  | .clear _ | .loadSaved _ | .enableInterrupt _ _ => .isTrue trivial

instance (s : State N ι) : DecidablePred (SavedKept s)
  | .step _ => inferInstanceAs (Decidable (KeepsSaved _ _ _))
  | .call _ _ => .isTrue trivial
  | .setInterrupt _ _ => .isTrue trivial

/-- Every `UnLock` that closes a pair leaves the interrupt flag as it was just before
the `Lock` of that pair. -/
def RestoresInterrupt (s : State N ι) : Prop :=
  ∀ c l b s', (s.cores c).pc = .enableInterrupt l b → next s (.step c) = some s' →
    (s'.cores c).intr = (s.cores c).closing

/-! ## The invariant -/

def OuterOnly : List (ι × Bool) → Prop
  | [] => True
  | e :: rest => (rest ≠ [] → e.2 = false) ∧ OuterOnly rest

def IntrOk (k : Core ι) : Prop :=
  OuterOnly k.held ∧
  match k.pc with
  | .outside => k.held ≠ [] → k.intr = false
  | .getInterruptStatus _ => k.entryIntr = k.intr ∧ (k.held ≠ [] → k.intr = false)
  | .disableInterrupt _ b => k.entryIntr = b ∧ (k.held ≠ [] → b = false)
  | .testAndSet _ b | .loadCoreId _ b =>
    k.intr = false ∧ k.entryIntr = b ∧ (k.held ≠ [] → b = false)
  | .restoreInterrupt _ b => k.intr = false ∧ b = false
  | .storeCoreId l b | .storeSaved l b => k.intr = false ∧ k.held.head? = some (l, b)
  | .testLocked l | .testCoreId l =>
    (k.held ≠ [] → k.intr = false) ∧ (l ∈ k.held.map Prod.fst → k.held.head?.map Prod.fst = some l)
  | .resetCoreId l | .clear l => k.intr = false ∧ k.held.head?.map Prod.fst = some l
  | .loadSaved _ => k.intr = false ∧ (k.held ≠ [] → k.closing = false)
  | .enableInterrupt _ b => k.intr = false ∧ (k.held ≠ [] → k.closing = false) ∧ b = k.closing

def SavedOk (locks : ι → Data) (k : Core ι) : Prop :=
  (∀ l ∈ k.held.map Prod.fst, (∀ b, k.pc ≠ .storeCoreId l b) → (∀ b, k.pc ≠ .storeSaved l b) →
    (locks l).savedIntrEnable = flagOf l k.held) ∧
  ∀ l, k.pc = .loadSaved l → (locks l).savedIntrEnable = k.closing

def IntrInv (s : State N ι) : Prop := ∀ c, IntrOk (s.cores c) ∧ SavedOk s.locks (s.cores c)

theorem flagOf_cons_of_ne (h : l ≠ m) (b : Bool) (held : List (ι × Bool)) :
    flagOf l ((m, b) :: held) = flagOf l held := by
  have hlm : (l == m) = false := by simpa using h
  simp [flagOf, List.lookup_cons, hlm]

theorem release_head (h : held.head?.map Prod.fst = some l) :
    held = (l, flagOf l held) :: release l held := by
  cases held with
  | nil => simp at h
  | cons e rest =>
    obtain ⟨m, b⟩ := e
    obtain rfl : m = l := by simpa using h
    simp [flagOf, release]

theorem intrInv_initial (h : Initial s) : IntrInv s := by
  intro c
  rw [h.2 c]
  simp [IntrOk, SavedOk, OuterOnly]

theorem IntrInv.frame (hj : IntrInv s) (hothers : ∀ d, d ≠ c → s'.cores d = s.cores d)
    (hsaved : ∀ l, (s'.locks l).savedIntrEnable = (s.locks l).savedIntrEnable)
    (hk : IntrOk (s'.cores c)) (hv : SavedOk s.locks (s'.cores c)) : IntrInv s' := by
  have hcongr : ∀ k : Core ι, SavedOk s.locks k → SavedOk s'.locks k := by
    intro k hk
    refine ⟨fun l hl h1 h2 => ?_, fun l hl => ?_⟩
    · rw [hsaved l]; exact hk.1 l hl h1 h2
    · rw [hsaved l]; exact hk.2 l hl
  intro d
  by_cases hd : d = c
  · subst hd; exact ⟨hk, hcongr _ hv⟩
  · rw [hothers d hd]; exact ⟨(hj d).1, hcongr _ (hj d).2⟩

theorem SavedOk.congr (h : SavedOk locks k)
    (hheld : k'.held = k.held) (hstore : ∀ l b, k.pc ≠ .storeCoreId l b ∧ k.pc ≠ .storeSaved l b)
    (hload : ∀ l, k'.pc ≠ .loadSaved l) : SavedOk locks k' := by
  refine ⟨fun l hl _ _ => ?_, fun l hl => absurd hl (hload l)⟩
  rw [hheld] at hl ⊢
  exact h.1 l hl (fun b => (hstore l b).1) fun b => (hstore l b).2

section

variable (hj : IntrInv s)
include hj

theorem IntrInv.setCore (hheld : k.held = (s.cores c).held)
    (hstore : ∀ l b, (s.cores c).pc ≠ .storeCoreId l b ∧ (s.cores c).pc ≠ .storeSaved l b)
    (hload : ∀ l, k.pc ≠ .loadSaved l) (hk : IntrOk k) : IntrInv (s.setCore c k) := by
  refine hj.frame (fun d hd => setCore_cores_of_ne _ hd _) (fun _ => rfl) ?_ ?_
  · rw [setCore_cores_self]
    exact hk
  · rw [setCore_cores_self]
    exact (hj c).2.congr hheld hstore hload

theorem IntrInv.setLock {v : Data} (hsaved : v.savedIntrEnable = (s.locks l).savedIntrEnable)
    (hk : IntrOk k) (hv : SavedOk s.locks k) : IntrInv ((s.setLock l v).setCore c k) := by
  refine hj.frame (c := c) (fun d hd => setCore_cores_of_ne _ hd _)
    (setLock_member Data.savedIntrEnable hsaved) ?_ ?_
  · rw [setCore_cores_self]
    exact hk
  · rw [setCore_cores_self]
    exact hv

end

omit [DecidableEq ι] in
theorem ne_nil_of_mem_keys (h : l ∈ held.map Prod.fst) : held ≠ [] := by
  rintro rfl
  simp at h

/-! ## Every step -/

theorem SavedOk.acquire {b : Bool} (h : SavedOk locks k)
    (hpc : k.pc = .testAndSet l b) (hheld : k'.held = (l, k.entryIntr) :: k.held)
    (hpc' : k'.pc = .storeCoreId l b) : SavedOk locks k' := by
  refine ⟨fun m hm hstore _ => ?_, fun m hm => ?_⟩
  · have hml : m ≠ l := by
      rintro rfl
      exact hstore b hpc'
    rw [hheld] at hm ⊢
    rw [flagOf_cons_of_ne hml]
    simp only [List.map_cons, List.mem_cons] at hm
    exact h.1 m (hm.resolve_left hml) (by simp [hpc]) (by simp [hpc])
  · rw [hpc'] at hm; cases hm

theorem SavedOk.clear (h : SavedOk locks k)
    (hpc : k.pc = .clear l) (hhead : k.held.head?.map Prod.fst = some l)
    (hn : (k.held.map Prod.fst).Nodup) (hheld : k'.held = release l k.held)
    (hclosing : k'.closing = flagOf l k.held) (hpc' : k'.pc = .loadSaved l) : SavedOk locks k' := by
  have hk := release_head hhead
  refine ⟨fun m hm _ _ => ?_, fun m hm => ?_⟩
  · rw [hheld] at hm ⊢
    obtain ⟨hml, hmem⟩ := (mem_keys_release hn).mp hm
    have hflag := h.1 m hmem (by simp [hpc]) (by simp [hpc])
    rw [hk, flagOf_cons_of_ne hml] at hflag
    exact hflag
  · rw [hpc'] at hm
    cases hm
    rw [hclosing]
    refine h.1 l ?_ (by simp [hpc]) (by simp [hpc])
    rw [hk]
    simp

theorem intrInv_memoryStep (hi : Inv s) (hj : IntrInv s) (hok : SavedKept s (.step c))
    (h : memoryStep s c = some s') : IntrInv s' := by
  have hctl := hi.control c
  obtain ⟨⟨hout, hk⟩, hv⟩ := hj c
  unfold memoryStep at h
  cases hpc : (s.cores c).pc with simp only [hpc] at h hk
  | outside => cases h
  | getInterruptStatus l =>
    cases h
    exact hj.setCore rfl (by simp [hpc]) (by simp) ⟨hout, hk⟩
  | disableInterrupt l b =>
    cases h
    exact hj.setCore rfl (by simp [hpc]) (by simp) ⟨hout, rfl, hk⟩
  | testAndSet l b =>
    obtain ⟨hintr, hentry, hb⟩ := hk
    split at h
    · cases h
      exact hj.setCore rfl (by simp [hpc]) (by simp)
        ⟨hout, hintr, hentry, hb⟩
    cases h
    refine hj.setLock rfl ?_ (hv.acquire hpc rfl rfl)
    exact ⟨⟨fun hne => hentry.trans (hb hne), hout⟩, hintr, by simp [hentry]⟩
  | loadCoreId l b =>
    obtain ⟨hintr, hentry, hb⟩ := hk
    split_ifs at h with hid
    · cases h
      refine hj.setCore rfl (by simp [hpc]) (by simp) ?_
      have hmem := (hi.coreId_iff hpc rfl).mp hid
      exact ⟨hout, hintr, hb (ne_nil_of_mem_keys hmem)⟩
    · cases h
      exact hj.setCore rfl (by simp [hpc]) (by simp)
        ⟨hout, hintr, hentry, hb⟩
  | restoreInterrupt l b =>
    cases h
    refine hj.setCore rfl (by simp [hpc]) (by simp) ?_
    refine ⟨hout, fun _ => ?_⟩
    simp [hk]
  | storeCoreId l b =>
    cases h
    refine hj.setLock rfl ⟨hout, hk⟩ ⟨fun m hm _ hsaved => ?_, fun m hm => ?_⟩
    · refine hv.1 m hm (fun b' hp => ?_) (by simp [hpc])
      rw [hpc] at hp
      cases hp
      exact hsaved b rfl
    · cases hm
  | storeSaved l b =>
    obtain ⟨hintr, hhead⟩ := hk
    simp only [ControlOk, hpc] at hctl
    obtain ⟨_, _, _, _, hmem⟩ := hctl
    simp only [SavedKept, KeepsSaved, hpc] at hok
    cases h
    have hself : ∀ m, ((s.setLock l { s.locks l with savedIntrEnable := b }).locks m).savedIntrEnable
        = if m = l then b else (s.locks m).savedIntrEnable := by
      intro m
      by_cases hm : m = l
      · subst hm; rw [setLock_locks_self, if_pos rfl]
      · rw [setLock_locks_of_ne s hm, if_neg hm]
    intro d
    by_cases hd : d = c
    · subst hd
      rw [setCore_cores_self, setCore_locks]
      refine ⟨⟨hout, fun _ => hintr⟩, fun m hm _ _ => ?_, fun m hm => by cases hm⟩
      rw [hself m]
      split_ifs with hml
      · subst hml
        have hcons : (s.cores d).held = (m, b) :: _ := List.eq_cons_of_mem_head? hhead
        simp only [Core.return]
        rw [hcons]
        simp [flagOf]
      refine hv.1 m hm (by simp [hpc]) (fun b' hp => ?_)
      rw [hpc] at hp
      cases hp
      exact hml rfl
    · rw [setCore_cores_of_ne _ hd, setCore_locks, setLock_cores]
      obtain ⟨hk', hv'⟩ := hj d
      refine ⟨hk', fun m hm h1 h2 => ?_, fun m hm => ?_⟩
      · have hml : m ≠ l := by
          rintro rfl
          exact hd (hi.excl d c m hm hmem)
        rw [hself m, if_neg hml]
        exact hv'.1 m hm h1 h2
      · rw [hself m, ← hv'.2 m hm]
        split_ifs with hml
        · subst hml
          exact hok d hd hm
        · rfl
  | testLocked l =>
    split at h
    · cases h
      exact hj.setCore rfl (by simp [hpc]) (by simp) ⟨hout, hk⟩
    · cases h
      exact hj.setCore rfl (by simp [hpc]) (by simp) ⟨hout, hk.1⟩
  | testCoreId l =>
    split_ifs at h with hid
    · have hmem := (hi.coreId_iff hpc rfl).mp hid
      cases h
      exact hj.setCore rfl (by simp [hpc]) (by simp)
        ⟨hout, hk.1 (ne_nil_of_mem_keys hmem), hk.2 hmem⟩
    · cases h
      exact hj.setCore rfl (by simp [hpc]) (by simp) ⟨hout, hk.1⟩
  | resetCoreId l =>
    cases h
    exact hj.setLock rfl ⟨hout, hk⟩ (hv.congr rfl (by simp [hpc]) (by simp))
  | clear l =>
    obtain ⟨hintr, hhead⟩ := hk
    cases h
    have hcons := release_head hhead
    rw [hcons] at hout
    exact hj.setLock rfl ⟨hout.2, hintr, hout.1⟩ (hv.clear hpc hhead (hi.nodup c) rfl rfl rfl)
  | loadSaved l =>
    cases h
    exact hj.setCore rfl (by simp [hpc]) (by simp)
      ⟨hout, hk.1, hk.2, hv.2 l hpc⟩
  | enableInterrupt l b =>
    obtain ⟨hintr, hclosing, hb⟩ := hk
    cases h
    refine hj.setCore rfl (by simp [hpc]) (by simp) ?_
    refine ⟨hout, fun hne => ?_⟩
    simp [hintr, hb, hclosing hne]

theorem intrInv_next {a : Action N ι} (hi : Inv s) (hj : IntrInv s) (hn : Nested s a)
    (hok : SavedKept s a) (h : next s a = some s') : IntrInv s' := by
  cases a with
  | call c f =>
    simp only [next] at h
    split at h
    · rename_i hpc
      obtain ⟨⟨hout, hk⟩, hv⟩ := hj c
      simp only [hpc] at hk
      cases h
      refine hj.setCore rfl (by simp [hpc]) (by cases f <;> simp [Call.entry]) ?_
      cases f with
      | lock l => exact ⟨hout, rfl, hk⟩
      | unLock l => exact ⟨hout, hk, hn⟩
    · cases h
  | step c => exact intrInv_memoryStep hi hj hok h
  | setInterrupt c b =>
    simp only [next] at h
    split at h
    · rename_i hpc
      obtain ⟨⟨hout, hk⟩, hv⟩ := hj c
      cases h
      refine hj.setCore rfl (by simp [hpc]) (by simp [hpc]) ?_
      refine ⟨hout, ?_⟩
      simp only [hpc]
      exact fun hne => absurd hn hne
    · cases h

theorem intrInv_reachable (h : (system N ι).ReachableBy (fun s a => Nested s a ∧ SavedKept s a) s) :
    Inv s ∧ IntrInv s :=
  h.invariant (P := fun s => Inv s ∧ IntrInv s)
    (fun _ hs => ⟨inv_initial hs, intrInv_initial hs⟩)
    fun _ _ _ hi hok hs => ⟨inv_next hi.1 hs, intrInv_next hi.1 hi.2 hok.1 hok.2 hs⟩

/-! ## The restored flag -/

/-- The last step of a matching `UnLock` restores the flag, in every run of properly
nested pairs in which no flag is overwritten before it is read. -/
theorem unLock_restores_interrupt
    (h : (system N ι).ReachableBy (fun s a => Nested s a ∧ SavedKept s a) s) :
    RestoresInterrupt s := by
  intro c l b s' hpc hs
  obtain ⟨⟨_, hk⟩, _⟩ := (intrInv_reachable h).2 c
  simp only [hpc] at hk
  obtain ⟨hintr, -, hb⟩ := hk
  simp only [next, memoryStep, hpc] at hs
  cases hs
  simp [hintr, hb]

/-- Core 0 takes the lock and releases it up to its `clear`. -/
def released : List (Action twoCores Unit) :=
  .call core0 (.lock ()) :: List.replicate 5 (.step core0) ++
    .call core0 (.unLock ()) :: List.replicate 4 (.step core0)

def overtaken : List (Action twoCores Unit) :=
  released ++ .call core1 (.lock ()) :: List.replicate 5 (.step core1) ++ [.step core0]

/-- When nobody interferes, core 0 gets its interrupts back. -/
theorem released_restores_interrupt : ∃ s : State twoCores Unit,
    (s.cores core0).pc = .enableInterrupt () true ∧ (s.cores core0).closing = true ∧
      RestoresInterrupt s := by
  obtain ⟨s, hs, hp⟩ := (system twoCores Unit).exists_of_run
    (fun s a => Nested s a ∧ SavedKept s a) (released ++ [.step core0])
    (fun s => (s.cores core0).pc = .enableInterrupt () true ∧ (s.cores core0).closing)
    sharedLock_initial (by decide)
  exact ⟨s, hp.1, hp.2, unLock_restores_interrupt hs⟩

/-- When core 1 overtakes it, the flag of core 0 stays off although it was on before
its `Lock`. -/
theorem overtaken_loses_interrupt :
    ¬ ∀ s : State twoCores Unit, (system twoCores Unit).ReachableBy Nested s →
      RestoresInterrupt s := by
  intro hall
  obtain ⟨s, hs, hpc, hclosing, s', hn, hintr⟩ := (system twoCores Unit).exists_of_run
    Nested overtaken
    (fun s => (s.cores core0).pc = .enableInterrupt () false ∧ (s.cores core0).closing ∧
      ∃ s' ∈ next s (.step core0), (s'.cores core0).intr = false)
    sharedLock_initial (by decide)
  have hback := hall s hs core0 () false s' hpc hn
  rw [hintr, hclosing] at hback
  cases hback

end SimpleKernel.SpinLock
