import SimpleKernel.Verification.Task.Kin

/-! Every critical section of the task manager is a chain of moves on the board, and none of
its assertions fails. -/

namespace SimpleKernel.TaskManager

open Function Holders

variable {N : CoreCount} {s s' : State N} {c i : N.Core} {t current : TaskPtr} {r : ResourceId}
  {s'' : State N} {p : SchedPolicy} {rest : List TaskPtr}

/-- What a critical section that core `c` executes may do to the state. -/
structure Change (c : N.Core) (s s' : State N) : Prop where
  moves : Moves c s.board s'.board
  frame : Frame s s'

/-- What it does when no assertion fails. -/
structure Effect (c : N.Core) (s s' : State N) : Prop extends Change c s s' where
  asserts : s'.assertFailed = s.assertFailed

/-- What it does when it only concerns tasks that no core runs. -/
structure Quiet (s s' : State N) : Prop where
  arrivals : Arrivals s.board s'.board
  frame : Frame s s'
  asserts : s'.assertFailed = s.assertFailed

theorem Effect.refl (c : N.Core) (s : State N) : Effect c s s := ⟨⟨.refl, .refl s⟩, rfl⟩

theorem Effect.trans (h : Effect c s s') (h' : Effect c s' s'') : Effect c s s'' :=
  ⟨⟨h.moves.trans h'.moves, h.frame.trans h'.frame⟩, h'.asserts.trans h.asserts⟩

theorem Quiet.refl (s : State N) : Quiet s s := ⟨.refl, .refl s, rfl⟩

theorem Quiet.trans (h : Quiet s s') (h' : Quiet s' s'') : Quiet s s'' :=
  ⟨h.arrivals.trans h'.arrivals, h.frame.trans h'.frame, h'.asserts.trans h.asserts⟩

theorem Quiet.effect (h : Quiet s s') (c : N.Core) : Effect c s s' :=
  ⟨⟨h.arrivals.moves c, h.frame⟩, h.asserts⟩

theorem Quiet.running (h : Quiet s s') : s'.currentTask = s.currentTask := h.arrivals.running

theorem Quiet.of_board_eq (hb : s'.board = s.board) (ha : s'.assertFailed = s.assertFailed)
    (hf : Frame s s') : Quiet s s' :=
  ⟨by rw [hb], hf, ha⟩

theorem Silent.quiet (h : Silent s s') : Quiet s s' :=
  .of_board_eq h.board h.asserts h.frame

@[simp] theorem enqueue_assertFailed (s : State N) (c : N.Core) (p : SchedPolicy) (t : TaskPtr) :
    (s.enqueue c p t).assertFailed = s.assertFailed := by
  unfold State.enqueue
  split <;> rfl

theorem check_of_true {holds : Bool} (h : holds = true) : s.check holds = s := by
  simp [State.check, h]

/-! ## `Schedule` -/

theorem onPreempted_readyQueue (schedulers : Schedulers) (p : SchedPolicy) :
    (schedulers.onPreempted p).readyQueue = schedulers.readyQueue := by
  funext p'
  cases p <;> cases p' <;> rfl

theorem enqueued_of_policy (hp : (s'.tcb t).policy = p)
    (hb : s'.board = s.board) : Enqueued s.board c t (s'.enqueue c p t).board := by
  rw [← hb, ← hp]
  exact enqueue_enqueued s' c t

section

variable (s c t)

theorem requeue_enqueued : Enqueued s.board c t (requeue c t s).board := by
  unfold requeue
  cases h : (s.cpuSchedulers c).schedulers with
  | none => exact .drop fun _ ho => absurd ho (by simp [h])
  | some schedulers =>
    have hsame := board_sameSchedulers h (onPreempted_readyQueue _ (s.tcb t).policy)
      (by cases (s.tcb t).policy <;> rfl)
    cases hp : (s.tcb t).policy with
    | idle =>
      rw [hp] at hsame
      simp only [Schedulers.requeues, Bool.false_eq_true, if_false]
      rw [board_modify_of_eq rfl rfl rfl, hsame]
      exact .drop fun hne => absurd hp hne
    | realTime | normal =>
      rw [hp] at hsame
      simp only [Schedulers.requeues, if_true]
      refine enqueued_of_policy ?_ ?_
      · rw [modify_tcb_self]
        exact hp
      · rw [board_modify_of_eq rfl rfl rfl, hsame]

@[simp] theorem requeue_assertFailed : (requeue c t s).assertFailed = s.assertFailed := by
  unfold requeue
  split
  · rfl
  simp only
  split
  · rw [enqueue_assertFailed]
    rfl
  · rfl

end

theorem yieldCurrent_enqueued (hrun : (s.tcb current).status = .running) :
    Enqueued (s.board.setStatus current .ready) c current (yieldCurrent c current s).board := by
  unfold yieldCurrent
  rw [if_pos hrun]
  have henq := requeue_enqueued (s.modify current fun task => task.receive .yield) c current
  rw [board_receive, hrun] at henq
  exact henq

theorem yieldCurrent_effect (hcur : s.currentTask c = some current) :
    Effect c s (yieldCurrent c current s) ∧
      ((yieldCurrent c current s).tcb current).status ≠ .running ∧
      (yieldCurrent c current s).currentTask c = some current := by
  by_cases hrun : (s.tcb current).status = .running
  · have henq : Enqueued _ c current _ := yieldCurrent_enqueued hrun
    unfold yieldCurrent at henq ⊢
    rw [if_pos hrun] at henq ⊢
    refine ⟨⟨⟨.single (.yield hcur hrun henq), ?_⟩, requeue_assertFailed _ c current⟩, ?_, ?_⟩
    · exact Kept.frame ((Still.receive (.refl s) .yield rfl).kept.trans
        (requeue_still _ c current).kept)
    · have hst := congrFun henq.status current
      simp only [Board.setStatus, update_self] at hst
      exact fun h => by cases hst.symm.trans h
    · exact (congrFun henq.running c).trans hcur
  · unfold yieldCurrent
    rw [if_neg hrun]
    exact ⟨.refl c s, hrun, hcur⟩

theorem mem_holds_ready {schedulers : Schedulers} {q : List TaskPtr}
    (h : (s.cpuSchedulers c).schedulers = some schedulers) (hq : schedulers.readyQueue p = t :: q) :
    t ∈ s.board.holds (.ready c p) := by
  simp [holds_ready h, hq]

section

variable (s c)

theorem pickNext_board :
    match pickNext c s with
    | (none, s') => s'.board = s.board ∧ s.board.slot c = none
    | (some t, s') =>
      (∃ p, t ∈ s.board.holds (.ready c p) ∧ s'.board = s.board.take (.ready c p) t) ∨
        (s.board.slot c = some t ∧ s'.board = s.board) := by
  unfold pickNext
  cases h : (s.cpuSchedulers c).schedulers with
  | none => exact ⟨rfl, by simp [h]⟩
  | some schedulers =>
    have hslot := slot_eq h
    simp only [Schedulers.pickNext, FifoScheduler.pickNext, RoundRobinScheduler.pickNext,
      IdleScheduler.pickNext]
    cases hrt : schedulers.realTime.readyQueue with
    | cons t q =>
      refine .inl ⟨.realTime, mem_holds_ready h hrt, board_popReady h hrt ?_ ?_⟩
      · exact readyQueue_realTime _
      · rfl
    | nil =>
      cases hn : schedulers.normal.readyQueue with
      | cons t q =>
        refine .inl ⟨.normal, mem_holds_ready h hn, board_popReady h hn ?_ ?_⟩
        · exact readyQueue_normal _
        · rfl
      | nil =>
        cases hi : schedulers.idle.idleTask with
        | none =>
          exact ⟨board_sameSchedulers h (readyQueue_idle _) rfl, hslot.trans hi⟩
        | some t =>
          exact .inr ⟨hslot.trans hi, board_sameSchedulers h (readyQueue_idle _) hi.symm⟩

theorem pickNext_assertFailed : (pickNext c s).2.assertFailed = s.assertFailed := by
  unfold pickNext
  split <;> rfl

theorem dispatch_board (t : TaskPtr) :
    (dispatch c t s).board =
      (s.board.setRunning c t).setStatus t ((s.tcb t).status.receive .schedule) := by
  unfold dispatch
  rw [board_setRunning _ c t _ rfl, board_setCpu_of_eq (fun k => by cases k <;> rfl) rfl,
    board_modify_of_eq rfl rfl rfl, board_modify_of_eq rfl rfl rfl, board_receive, board_check]
  rfl

end

theorem dispatch_assertFailed
    (h : (s.tcb t).status = .ready ∨ (s.tcb t).policy = .idle) :
    (dispatch c t s).assertFailed = s.assertFailed := by
  change (s.check _).assertFailed = _
  rw [check_of_true]
  simpa using h

def yielded (c : N.Core) (current : TaskPtr) (s : State N) : State N :=
  yieldCurrent c current (s.setCpu c fun d => { d with schedulerStarted := true })

theorem yielded_effect (hcur : s.currentTask c = some current) :
    Effect c s (yielded c current s) ∧ (yielded c current s).currentTask c = some current ∧
      ∀ u, (yielded c current s).board.running c = some u →
        (yielded c current s).board.status u ≠ .running := by
  have hstart : Quiet s (s.setCpu c fun d => { d with schedulerStarted := true }) :=
    .of_board_eq (board_setCpu_of_eq (fun k => by cases k <;> rfl) rfl) rfl
      ⟨rfl, rfl, rfl, rfl, fun _ => rfl⟩
  obtain ⟨hyield, hstatus, hcur₁⟩ := yieldCurrent_effect
    (s := s.setCpu c fun d => { d with schedulerStarted := true }) hcur
  refine ⟨(hstart.effect c).trans hyield, hcur₁, fun u hu => ?_⟩
  cases hcur₁.symm.trans hu
  exact hstatus

theorem yielded_picks (hinv : s.board.Inv) (hcur : s.currentTask c = some current) :
    ∃ next s₁, pickNext c (yielded c current s) = (some next, s₁) ∧
      (s₁.tcb next).status = (yielded c current s).board.status next ∧
      (s₁.tcb next).policy = (yielded c current s).board.policy next ∧
      ((∃ p, next ∈ (yielded c current s).board.holds (.ready c p) ∧
          s₁.board = (yielded c current s).board.take (.ready c p) next) ∨
        (yielded c current s).board.slot c = some next ∧ s₁.board = (yielded c current s).board) := by
  obtain ⟨hyield, hcur₁, -⟩ := yielded_effect hcur
  have hinv₁ := hinv.moves hyield.moves
  generalize yielded c current s = s₁ at hcur₁ hinv₁ ⊢
  have hpick := pickNext_board s₁ c
  generalize pickNext c s₁ = picked at hpick ⊢
  obtain ⟨found, s₂⟩ := picked
  cases found with
  | none =>
    have hslot := (hinv₁.staffed (hinv₁.online (.inl hcur₁))).1
    rw [hpick.2] at hslot
    cases hslot
  | some next =>
    refine ⟨next, s₂, rfl, ?_, ?_, hpick⟩
    · obtain ⟨p, -, hb⟩ | ⟨-, hb⟩ := hpick <;> exact congrFun (congrArg Board.status hb) next
    · obtain ⟨p, -, hb⟩ | ⟨-, hb⟩ := hpick <;> exact congrFun (congrArg Board.policy hb) next

theorem schedule_of_pickNext {next : TaskPtr} {s₁ : State N} (hcur : s.currentTask c = some current)
    (hpick : pickNext c (yielded c current s) = (some next, s₁)) :
    schedule c s = (if current = next then none else some (current, next), dispatch c next s₁) := by
  unfold yielded at hpick
  unfold schedule
  simp [setCpu_currentTask, hcur, hpick]

theorem schedule_effect (hinv : s.board.Inv) (hcur : s.currentTask c = some current) :
    Effect c s (schedule c s).2 ∧ ∃ next,
      (schedule c s).1 = (if current = next then none else some (current, next)) ∧
      (schedule c s).2.currentTask c = some next ∧
      (((schedule c s).2.tcb next).status = .running ∨
        ((schedule c s).2.tcb next).policy = .idle) := by
  obtain ⟨hyield, -, hidle⟩ := yielded_effect hcur
  obtain ⟨next, s₂, hpick, hst, hpol, hcases⟩ := yielded_picks hinv hcur
  have hinv₁ := hinv.moves hyield.moves
  have hframe := (pickNext_still (yielded c current s) c).kept.frame
  have hasserts := pickNext_assertFailed (yielded c current s) c
  rw [hpick] at hframe hasserts
  rw [schedule_of_pickNext hcur hpick]
  have hready : ((s₂.tcb next).status = .ready ∨ (s₂.tcb next).policy = .idle) ∧
      Move c (yielded c current s).board (dispatch c next s₂).board := by
    rw [dispatch_board, hst, hpol]
    obtain ⟨p, hmem, hb⟩ | ⟨hslot, hb⟩ := hcases
    · rw [hb]
      exact ⟨.inl (hinv₁.status hmem), .pick hidle hmem⟩
    · rw [hb]
      exact ⟨.inr (hinv₁.slot hslot), .pickIdle hidle hslot⟩
  have hdispatch : Effect c (yielded c current s) (dispatch c next s₂) :=
    ⟨⟨.single hready.2, hframe.trans (dispatch_still s₂ c next).kept.frame⟩,
      (dispatch_assertFailed hready.1).trans hasserts⟩
  refine ⟨hyield.trans hdispatch, next, rfl, ?_, ?_⟩
  · have hrun := congrFun (congrArg Board.running (dispatch_board s₂ c next)) c
    simp only [Board.setStatus, Board.setRunning, update_self] at hrun
    exact hrun
  · have hst := congrFun (congrArg Board.status (dispatch_board s₂ c next)) next
    have hpol := congrFun (congrArg Board.policy (dispatch_board s₂ c next)) next
    simp only [Board.setStatus, update_self] at hst
    rcases hready.1 with h | h
    · rw [h] at hst
      exact .inl hst
    · exact .inr (hpol.trans h)

/-! ## `Block` and `Sleep` -/

theorem board_park (s : State N) (t : TaskPtr) (msg : Msg) (r : ResourceId) :
    (s.modify t fun task => (task.receive msg).setBlockedOn r).board =
      (s.board.setStatus t ((s.tcb t).status.receive msg)).setBlockedOn t r := by
  rw [board_modify]
  simp [TaskControlBlock.receive, TaskControlBlock.setBlockedOn, Board.setStatus,
    Board.setBlockedOn, State.board]

/-- Whether `Block` on core `c` does not overflow the map of the blocked groups. -/
def State.HasRoom (s : State N) (c : N.Core) (r : ResourceId) : Prop :=
  r ∈ (s.cpuSchedulers c).blockedTasks ∨
    (s.cpuSchedulers c).blockedTasks.keys.length < maxBlockedGroups

/-- At most one move. -/
abbrev AtMostMove (c : N.Core) : Board N → Board N → Prop := Relation.ReflGen (Move c)

section

variable (hcur : s.currentTask c = some t) (hrun : (s.tcb t).status = .running)
include hcur hrun

theorem block_move
    (r : ResourceId) : AtMostMove c s.board (block c t r s).board := by
  unfold block
  simp only
  split
  · exact .refl
  split
  · exact .refl
  refine .single ?_
  have hput : (((s.modify t fun task => (task.receive .block).setBlockedOn r)).setWaiting c r
      ((s.cpuSchedulers c).waiting r ++ [t])).board =
      ((s.board.setStatus t .blocked).setBlockedOn t r).put (.blocked c r) t := by
    rw [board_setWaiting, board_park, hrun]
    exact Board.ext rfl rfl rfl (update_eq_put rfl (List.perm_append_singleton t _)) rfl rfl rfl rfl
  rw [hput]
  exact .block r hcur hrun

theorem block_change
    (r : ResourceId) :
    Change c s (block c t r s) ∧ (block c t r s).currentTask = s.currentTask := by
  have hmoves := (block_move hcur hrun r).to_reflTransGen
  refine ⟨⟨hmoves, (block_still s c t r).kept.frame⟩, ?_⟩
  unfold block
  simp only
  split
  · rfl
  · split <;> rfl

end

theorem block_asserts (h : s.HasRoom c r) : (block c t r s).assertFailed = s.assertFailed := by
  unfold block
  simp only
  rw [if_neg]
  · split <;> rfl
  · rintro ⟨hmem, hfull⟩
    rcases h with h | h
    · exact hmem h
    · omega

theorem board_setWakeTick (s : State N) (t : TaskPtr) (k : ℕ) :
    (s.modify t (setWakeTick k)).board = s.board :=
  board_modify_of_eq rfl rfl rfl

theorem sleep_move (tick ms : ℕ) (hcur : s.currentTask c = some t)
    (hrun : (s.tcb t).status = .running) : AtMostMove c s.board (sleep tick c t ms s).2.board := by
  unfold sleep
  simp only
  split
  · rw [board_setWakeTick]
  generalize ((s.cpuSchedulers c).localTick + ms * tick % 2 ^ 64 / 1000) % 2 ^ 64 = k
  refine .single ?_
  have hput : ∀ cmp : TaskPtr → TaskPtr → Bool,
      (((s.modify t (setWakeTick k)).modify t fun task => task.receive .sleep).setCpu c fun d =>
        { d with sleepingTasks := BinaryHeap.push cmp d.sleepingTasks t }).board =
      (s.board.setStatus t .sleeping).put (.sleeping c) t := by
    intro cmp
    rw [board_setSleeping _ c fun a => BinaryHeap.push cmp a t, board_receive,
      board_setWakeTick, modify_tcb_self]
    refine Board.ext ?_ rfl rfl (update_eq_put rfl (BinaryHeap.push_perm _ t)) rfl rfl rfl rfl
    exact congrArg (update _ _) (congrArg (TaskStatus.receive · .sleep) hrun)
  rw [hput]
  exact .sleep hcur hrun

theorem sleep_effect (tick ms : ℕ) (hcur : s.currentTask c = some t)
    (hrun : (s.tcb t).status = .running) : Effect c s (sleep tick c t ms s).2 ∧
      (sleep tick c t ms s).2.currentTask = s.currentTask ∧
      ((sleep tick c t ms s).1 = false → (sleep tick c t ms s).2.board = s.board) := by
  have hmoves := (sleep_move tick ms hcur hrun).to_reflTransGen
  refine ⟨⟨⟨hmoves, (sleep_still s c t tick ms).kept.frame⟩, ?_⟩, ?_⟩
  · unfold sleep
    simp only
    split <;> rfl
  · unfold sleep
    simp only
    split
    · exact ⟨rfl, fun _ => board_setWakeTick s t _⟩
    · exact ⟨rfl, nofun⟩

/-! ## `TickUpdate` -/

theorem board_popSleeping {cmp : TaskPtr → TaskPtr → Bool}
    (h : (s.cpuSchedulers c).sleepingTasks[0]? = some t) :
    (s.setCpu c fun d => { d with sleepingTasks := BinaryHeap.pop cmp d.sleepingTasks }).board =
      s.board.take (.sleeping c) t := by
  rw [board_setSleeping]
  exact Board.ext rfl rfl rfl (update_eq_take rfl (BinaryHeap.pop_perm h)) rfl rfl rfl rfl

theorem wakeSleepers_quiet (c : N.Core) (k : ℕ) (s : State N) : Quiet s (wakeSleepers c k s) := by
  refine wakeSleepers_induction s c Quiet.refl (fun s t _ htop h => ?_) k
  set s₁ := s.setCpu c fun d =>
    { d with sleepingTasks := BinaryHeap.pop (wakeTickCompare s.tcb) d.sleepingTasks } with hs₁
  set s₂ := s₁.modify t fun task => task.receive .wakeup with hs₂
  have hmem : t ∈ s.board.holds (.sleeping c) :=
    Multiset.mem_coe.mpr (Array.mem_toList_iff.mpr (Array.mem_of_getElem? htop))
  have hboard : s₂.board = (s.board.take (.sleeping c) t).setStatus t
      ((s.tcb t).status.receive .wakeup) := by
    rw [hs₂, board_receive, hs₁, board_popSleeping htop]
    rfl
  have henq := enqueue_enqueued s₂ c t
  rw [hboard] at henq
  have hroot : Quiet s (wakeRoot c t s) :=
    ⟨.single (.wakeSleeping hmem henq), (wakeRoot_still s c t).kept.frame,
      enqueue_assertFailed s₂ c _ t⟩
  exact hroot.trans h

theorem chargeCurrent_silent (c : N.Core) (s : State N) : Silent s (chargeCurrent c s).2 := by
  unfold chargeCurrent
  cases s.currentTask c with
  | none => exact .refl s
  | some t =>
    simp only
    split
    · simp only
      exact (Agree.refl s).modify rfl
    · exact .refl s

theorem tickUpdate_quiet (c : N.Core) (s : State N) : Quiet s (tickUpdate c s).2 := by
  have hlocal : Quiet s (s.advanceTick c) :=
    .of_board_eq (board_advanceTick s c) rfl ⟨rfl, rfl, rfl, rfl, fun _ => rfl⟩
  exact (hlocal.trans (wakeSleepers_quiet c _ _)).trans (chargeCurrent_silent c _).quiet

/-! ## `Wakeup` and `WakeupOne` -/

theorem board_popWaiting (h : (s.cpuSchedulers c).waiting r = t :: rest) :
    (s.setWaiting c r rest).board = s.board.take (.blocked c r) t := by
  rw [board_setWaiting]
  exact Board.ext rfl rfl rfl (update_eq_take rfl (.of_eq h)) rfl rfl rfl rfl

theorem wakeTask_enqueued (s : State N) (c : N.Core) (t : TaskPtr) :
    Enqueued ((s.board.setStatus t ((s.tcb t).status.receive .wakeup)).setBlockedOn t {}) c t
      (wakeTask c t s).board := by
  rw [← board_park, ← board_check]
  exact enqueue_enqueued _ c t

theorem wakeTask_assertFailed (h : (s.cpuSchedulers c).schedulers.isSome) :
    (wakeTask c t s).assertFailed = s.assertFailed := by
  unfold wakeTask
  rw [enqueue_assertFailed, check_of_true]
  · rfl
  · exact h

theorem wakeTask_blockedTasks (s : State N) (c : N.Core) (t : TaskPtr) (i : N.Core) :
    ((wakeTask c t s).cpuSchedulers i).blockedTasks = (s.cpuSchedulers i).blockedTasks :=
  (wakeTask_still s c t).butAlarms.cpu i

section

variable (hinv : s.board.Inv)
include hinv

theorem wakeFirst_quiet (checked : State N) (h : (s.cpuSchedulers c).waiting r = t :: rest)
    (hchecked : (s.tcb t).status = .blocked → (s.tcb t).aux.blockedOn = r →
      checked = s.setWaiting c r rest) : Quiet s (wakeTask c t checked) := by
  have hmem : t ∈ s.board.holds (.blocked c r) := by
    change t ∈ (s.cpuSchedulers c).waiting r
    rw [h]
    exact List.mem_cons_self
  have hc : checked = s.setWaiting c r rest := hchecked (hinv.status hmem) (hinv.blockedOn hmem)
  subst hc
  have hboard : Enqueued (((s.board.take (.blocked c r) t).setStatus t
      ((s.board.status t).receive .wakeup)).setBlockedOn t {}) c t
      (wakeTask c t (s.setWaiting c r rest)).board := by
    rw [← board_popWaiting h]
    exact wakeTask_enqueued _ c t
  refine ⟨.single (.wakeBlocked hmem hboard), ?_, ?_⟩
  · exact Kept.frame ((setWaiting_still s c r rest).kept.trans (wakeTask_still _ c t).kept)
  · refine wakeTask_assertFailed ?_
    have honline : (s.cpuSchedulers c).schedulers.isSome := hinv.online (Board.near_of_mem hmem)
    simpa [State.setWaiting] using honline

theorem wakeupLoop_quiet {waiting : List TaskPtr}
    (h : (s.cpuSchedulers c).waiting r = waiting) : Quiet s (wakeupLoop c r waiting s) := by
  induction waiting generalizing s with
  | nil =>
    exact .of_board_eq (board_eraseGroup h) rfl ⟨rfl, rfl, rfl, rfl, fun _ => rfl⟩
  | cons t rest ih =>
    have hfirst := wakeFirst_quiet hinv (((s.setWaiting c r rest).check
      ((s.tcb t).status = .blocked)).check ((s.tcb t).aux.blockedOn = r)) h fun hb hr => by
        rw [check_of_true (by simpa using hr), check_of_true (by simpa using hb)]
    refine hfirst.trans (ih (hinv.arrivals hfirst.arrivals) ?_)
    simp [wakeTask_blockedTasks, State.setWaiting]

theorem wakeup_quiet (c : N.Core) (r : ResourceId) : Quiet s (wakeup c r s) := by
  unfold wakeup
  cases h : (s.cpuSchedulers c).blockedTasks.lookup r with
  | none => exact .refl s
  | some waiting => exact wakeupLoop_quiet hinv (by simp [h])

theorem wakeupOne_quiet (c : N.Core) (r : ResourceId) : Quiet s (wakeupOne c r s).2 := by
  unfold wakeupOne
  cases h : (s.cpuSchedulers c).waiting r with
  | nil => exact .refl s
  | cons t rest =>
    simp only
    have hfirst := wakeFirst_quiet hinv ((s.setWaiting c r rest).check
      ((s.tcb t).status = .blocked)) h fun hb _ => by rw [check_of_true (by simpa using hb)]
    refine hfirst.trans ?_
    split
    · rename_i hempty
      refine .of_board_eq (board_eraseGroup ?_) rfl ⟨rfl, rfl, rfl, rfl, fun _ => rfl⟩
      simp [wakeTask_blockedTasks, State.setWaiting, List.isEmpty_iff.mp hempty]
    · exact .refl _

/-! ## `Balance` -/

def stolen (c source : N.Core) (s : State N) : Option TaskPtr :=
  if normalLoad s source ≤ normalLoad s c + 1 then none
  else ((s.cpuSchedulers source).readyQueue .normal).head?.filter fun t =>
    allowsCore (s.tcb t).aux.cpuAffinity c

theorem balance_board (c source : N.Core) :
    (balance c source s).board = s.board ∨
      (∃ t, Steal source source t s.board (balance c source s).board) ∨
      ∃ t, stolen c source s = some t ∧ Steal source c t s.board (balance c source s).board := by
  unfold balance
  cases h : (s.cpuSchedulers source).schedulers with
  | none => exact .inl rfl
  | some schedulers =>
    cases (s.cpuSchedulers c).schedulers with
    | none => exact .inl rfl
    | some _ =>
      simp only
      split
      · exact .inl rfl
      rename_i hload
      cases hq : schedulers.normal.readyQueue with
      | nil =>
        simp [RoundRobinScheduler.pickNext, hq]
      | cons t q =>
        simp only [RoundRobinScheduler.pickNext, hq]
        have hmem : t ∈ s.board.holds (.ready source .normal) := mem_holds_ready h hq
        set stats := { schedulers.normal.stats with
          totalPicks := schedulers.normal.stats.totalPicks + 1 } with hstats
        have hpop := board_popReady (s := s) (c := source) (p := .normal) h hq
          (readyQueue_normal ⟨q, stats⟩) rfl
        have hpol : ∀ i, Steal source i t s.board (State.enqueue (s.setCpu source fun d =>
            { d with schedulers := some { schedulers with normal := ⟨q, stats⟩ } })
            i .normal t).board := by
          intro i
          refine ⟨hmem, ?_⟩
          rw [← hpop]
          exact enqueued_of_policy (hinv.policy hmem).2 rfl
        split
        · rename_i hallowed
          refine .inr (.inr ⟨t, ?_, hpol c⟩)
          rw [setCpu_tcb] at hallowed
          simp [stolen, hload, h, Schedulers.readyQueue, hq, hallowed]
        · exact .inr (.inl ⟨t, hpol source⟩)

end

theorem balance_assertFailed (s : State N) (c source : N.Core) :
    (balance c source s).assertFailed = s.assertFailed := by
  unfold balance
  split
  · split
    · rfl
    split
    · rfl
    · simp only
      split <;> exact enqueue_assertFailed _ _ _ _
  · rfl

/-- What `Balance` leaves alone in any case. -/
structure Moved (b b' : Board N) : Prop where
  inv : b'.Inv
  status : b'.status = b.status
  policy : b'.policy = b.policy
  running : b'.running = b.running
  online : b'.online = b.online
  created : b'.created = b.created

theorem Board.Inv.moved {b b' : Board N} {source : N.Core} (h : b.Inv)
    (hs : Steal source i t b b') : Moved b b' :=
  ⟨h.steal hs, hs.2.status, hs.2.policy, hs.2.running, hs.2.online, hs.2.created⟩

theorem balance_moved (hinv : s.board.Inv) (c source : N.Core) :
    Moved s.board (balance c source s).board := by
  rcases balance_board hinv c source with h | ⟨t, h⟩ | ⟨t, -, h⟩
  · rw [h]
    exact ⟨hinv, rfl, rfl, rfl, rfl, rfl⟩
  · exact hinv.moved h
  · exact hinv.moved h

/-! ## `Exit` and the signals -/

theorem exit_board (code : ℤ) (hrun : (s.tcb t).status = .running) :
    (∃ hasParent, (exit t code s).2.board =
      s.board.setStatus t (TaskStatus.running.receive (.exit hasParent))) ∧
      Frame s (exit t code s).2 ∧ (exit t code s).2.assertFailed = s.assertFailed := by
  unfold exit
  simp only
  set s₁ := s.modify t fun task => { task with aux := { task.aux with exitCode := code } } with hs₁
  have hleave : Silent s (unlink t s₁) :=
    ((Agree.refl s).modify rfl).trans (unlink_regrouped s₁ t).silent
  generalize (s₁.tcb t).isThreadGroupLeader = isGroupLeader
  generalize unlink t s₁ = s₂ at hleave ⊢
  generalize (s₂.tcb t).aux.parentPid = parentPid
  set s₃ := s₂.modify t fun task => task.receive (.exit (parentPid ≠ 0)) with hs₃
  have hexit : s₃.board =
      s.board.setStatus t (TaskStatus.running.receive (.exit (parentPid ≠ 0))) := by
    have hstatus : (s₂.tcb t).status = .running :=
      (congrFun (congrArg Board.status hleave.board) t).trans hrun
    rw [hs₃, board_receive, hleave.board, hstatus]
  have hchildren : Silent s₃ (if isGroupLeader then reparentChildren t s₃ else s₃) := by
    split
    · exact (reparentChildren_regrouped s₃ t).silent
    · exact .refl s₃
  exact ⟨⟨_, hchildren.board.trans hexit⟩, (hleave.frame.modify rfl).trans hchildren.frame,
    hchildren.asserts.trans hleave.asserts⟩

theorem exit_move (code : ℤ) (hcur : s.currentTask c = some t)
    (hrun : (s.tcb t).status = .running) : Move c s.board (exit t code s).2.board := by
  obtain ⟨⟨hasParent, hboard⟩, -, -⟩ := exit_board code hrun
  rw [hboard]
  exact .exit hasParent hcur hrun

theorem exit_effect (code : ℤ) (hcur : s.currentTask c = some t)
    (hrun : (s.tcb t).status = .running) :
    Effect c s (exit t code s).2 ∧ (exit t code s).2.currentTask = s.currentTask := by
  obtain ⟨⟨hasParent, hboard⟩, hframe, hasserts⟩ := exit_board code hrun
  exact ⟨⟨⟨.single (exit_move code hcur hrun), hframe⟩, hasserts⟩, congrArg Board.running hboard⟩

theorem sendSignal_silent (pid : Pid) (signum : ℤ) (s : State N) :
    Silent s (sendSignal pid signum s).2 :=
  sendSignal_induction (.refl s) (fun _ _ _ => (Agree.refl s).modify rfl)
    (fun _ _ _ h => h.modify rfl) signum

end SimpleKernel.TaskManager
