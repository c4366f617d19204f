import SimpleKernel.Model.Task.Manager
import SimpleKernel.Verification.Task.Board

/-! The board that a state of the task manager represents, after every kind of update. -/

namespace SimpleKernel.TaskManager

open Function Holders

variable {N : CoreCount} {s s' : State N} {c i : N.Core} {t : TaskPtr} {r : ResourceId}
  {f : TaskControlBlock → TaskControlBlock} {k : Container N}

/-! ## The fields of an updated state -/

section Fields

variable (s : State N) (c : N.Core) (t : TaskPtr) (f : TaskControlBlock → TaskControlBlock)
  (g : CpuSchedData → CpuSchedData) (holds : Bool)

@[simp] theorem modify_tcb_self : (s.modify t f).tcb t = f (s.tcb t) := by
  simp [State.modify]

theorem modify_tcb_of_ne {u : TaskPtr} (hu : u ≠ t) : (s.modify t f).tcb u = s.tcb u := by
  simp [State.modify, hu]

theorem modify_tcb_read {α : Sort*} (read : TaskControlBlock → α)
    (hf : read (f (s.tcb t)) = read (s.tcb t)) (u : TaskPtr) :
    read ((s.modify t f).tcb u) = read (s.tcb u) := by
  by_cases hu : u = t
  · rw [hu, modify_tcb_self, hf]
  · rw [modify_tcb_of_ne s t f hu]

@[simp] theorem modify_cpuSchedulers : (s.modify t f).cpuSchedulers = s.cpuSchedulers := rfl

@[simp] theorem setCpu_tcb : (s.setCpu c g).tcb = s.tcb := rfl

@[simp] theorem setCpu_cpuSchedulers_self :
    (s.setCpu c g).cpuSchedulers c = g (s.cpuSchedulers c) := by
  simp [State.setCpu]

theorem setCpu_cpuSchedulers_of_ne {i : N.Core} (hi : i ≠ c) :
    (s.setCpu c g).cpuSchedulers i = s.cpuSchedulers i := by
  simp [State.setCpu, hi]

theorem setCpu_cpuSchedulers_read {α : Sort*} (read : CpuSchedData → α)
    (hg : read (g (s.cpuSchedulers c)) = read (s.cpuSchedulers c)) (i : N.Core) :
    read ((s.setCpu c g).cpuSchedulers i) = read (s.cpuSchedulers i) := by
  by_cases hi : i = c
  · rw [hi, setCpu_cpuSchedulers_self, hg]
  · rw [setCpu_cpuSchedulers_of_ne s c g hi]

@[simp] theorem setCpu_currentTask : (s.setCpu c g).currentTask = s.currentTask := rfl

@[simp] theorem check_cpuSchedulers : (s.check holds).cpuSchedulers = s.cpuSchedulers := rfl

end Fields

def Container.contents (d : CpuSchedData) : Container N → Multiset TaskPtr
  | .ready _ p => d.readyQueue p
  | .sleeping _ => d.sleepingTasks.toList
  | .blocked _ r => d.waiting r

attribute [simp] CpuSchedData.readyQueue CpuSchedData.waiting CpuSchedData.idleSlot

/-- The board that a state of the task manager represents. -/
def State.board (s : State N) : Board N where
  status t := (s.tcb t).status
  policy t := (s.tcb t).policy
  blockedOn t := (s.tcb t).aux.blockedOn
  holds k := k.contents (s.cpuSchedulers k.core)
  slot c := (s.cpuSchedulers c).idleSlot
  running := s.currentTask
  online c := (s.cpuSchedulers c).schedulers.isSome
  created := s.nextTask

attribute [simps status policy blockedOn slot running online created] State.board

/-! ## The board of an updated state -/

theorem board_modify (s : State N) (t : TaskPtr) (f : TaskControlBlock → TaskControlBlock) :
    (s.modify t f).board =
      { s.board with
        status := update s.board.status t (f (s.tcb t)).status
        policy := update s.board.policy t (f (s.tcb t)).policy
        blockedOn := update s.board.blockedOn t (f (s.tcb t)).aux.blockedOn } := by
  ext u
  · by_cases hu : u = t <;> simp [State.modify, hu]
  · by_cases hu : u = t <;> simp [State.modify, hu]
  · by_cases hu : u = t <;> simp [State.modify, hu]
  all_goals rfl

theorem board_modify_of_eq
    (hs : (f (s.tcb t)).status = (s.tcb t).status) (hp : (f (s.tcb t)).policy = (s.tcb t).policy)
    (hb : (f (s.tcb t)).aux.blockedOn = (s.tcb t).aux.blockedOn) :
    (s.modify t f).board = s.board := by
  rw [board_modify, hs, hp, hb]
  simp [State.board]

theorem board_receive (s : State N) (t : TaskPtr) (msg : Msg) :
    (s.modify t fun task => task.receive msg).board =
      s.board.setStatus t ((s.tcb t).status.receive msg) := by
  rw [board_modify]
  simp [TaskControlBlock.receive, Board.setStatus, State.board]

theorem board_setCpu (s : State N) (c : N.Core) (f : CpuSchedData → CpuSchedData) :
    (s.setCpu c f).board =
      { s.board with
        holds := fun k => if k.core = c then k.contents (f (s.cpuSchedulers c)) else s.board.holds k
        slot := update s.board.slot c (f (s.cpuSchedulers c)).idleSlot
        online := fun i =>
          if i = c then (f (s.cpuSchedulers c)).schedulers.isSome = true else s.board.online i } := by
  refine Board.ext rfl rfl rfl ?_ ?_ rfl ?_ rfl
  · funext k
    by_cases hk : k.core = c <;> simp [State.board, State.setCpu, hk]
  all_goals
    funext i
    by_cases hi : i = c <;> simp [State.setCpu, hi]

theorem board_setCpu_at {f : CpuSchedData → CpuSchedData}
    {contents : Multiset TaskPtr} (hk : k.core = c)
    (hself : k.contents (f (s.cpuSchedulers c)) = contents)
    (hother : ∀ k' : Container N, k'.core = c → k' ≠ k →
      k'.contents (f (s.cpuSchedulers c)) = k'.contents (s.cpuSchedulers c))
    (honline : (f (s.cpuSchedulers c)).schedulers.isSome = (s.cpuSchedulers c).schedulers.isSome) :
    (s.setCpu c f).board =
      { s.board with
        holds := update s.board.holds k contents
        slot := update s.board.slot c (f (s.cpuSchedulers c)).idleSlot } := by
  rw [board_setCpu]
  refine Board.ext rfl rfl rfl ?_ rfl rfl ?_ rfl
  · funext k'
    dsimp only
    by_cases hsame : k' = k
    · rw [hsame, update_self, if_pos hk, hself]
    rw [update_of_ne hsame]
    by_cases hc : k'.core = c
    · rw [if_pos hc, hother k' hc hsame, ← hc]
      rfl
    · rw [if_neg hc]
  · funext i
    by_cases hi : i = c
    · subst hi
      simp [honline]
    · simp [hi]

theorem board_setContainer {f : CpuSchedData → CpuSchedData}
    {contents : Multiset TaskPtr} (hk : k.core = c)
    (hself : k.contents (f (s.cpuSchedulers c)) = contents)
    (hother : ∀ k' : Container N, k'.core = c → k' ≠ k →
      k'.contents (f (s.cpuSchedulers c)) = k'.contents (s.cpuSchedulers c))
    (hs : (f (s.cpuSchedulers c)).schedulers = (s.cpuSchedulers c).schedulers) :
    (s.setCpu c f).board = { s.board with holds := update s.board.holds k contents } := by
  rw [board_setCpu_at hk hself hother (by rw [hs]), CpuSchedData.idleSlot, hs]
  exact Board.ext rfl rfl rfl rfl (update_eq_self c s.board.slot) rfl rfl rfl

theorem board_setCpu_of_eq {f : CpuSchedData → CpuSchedData}
    (hh : ∀ k : Container N, k.contents (f (s.cpuSchedulers c)) = k.contents (s.cpuSchedulers c))
    (hs : (f (s.cpuSchedulers c)).schedulers = (s.cpuSchedulers c).schedulers) :
    (s.setCpu c f).board = s.board := by
  rw [board_setContainer (c := c) (k := .sleeping c) rfl (hh _) (fun k' _ _ => hh k') hs]
  exact Board.ext rfl rfl rfl (update_eq_self (.sleeping c) s.board.holds) rfl rfl rfl rfl

def State.advanceTick (s : State N) (c : N.Core) : State N :=
  s.setCpu c fun d => { d with localTick := (d.localTick + 1) % 2 ^ 64 }

theorem tickUpdate_eq (c : N.Core) (s : State N) : tickUpdate c s = chargeCurrent c (wakeSleepers c
    ((s.advanceTick c).cpuSchedulers c).sleepingTasks.size (s.advanceTick c)) := rfl

theorem board_advanceTick (s : State N) (c : N.Core) : (s.advanceTick c).board = s.board :=
  board_setCpu_of_eq (fun k => by cases k <;> rfl) rfl

theorem sleepers_advanceTick (s : State N) (c i : N.Core) :
    ((s.advanceTick c).cpuSchedulers i).sleepingTasks = (s.cpuSchedulers i).sleepingTasks :=
  setCpu_cpuSchedulers_read s c _ (·.sleepingTasks) (by rfl) i

@[simp] theorem board_check (s : State N) (holds : Bool) : (s.check holds).board = s.board := rfl

theorem board_setRunning (s : State N) (c : N.Core) (t : TaskPtr) (data : PerCpu)
    (h : data.runningTask = some t) :
    { s with perCpu := update s.perCpu c data }.board = s.board.setRunning c t := by
  refine Board.ext rfl rfl rfl rfl rfl ?_ rfl rfl
  funext i
  by_cases hi : i = c
  · subst hi
    simp [State.currentTask, h]
  · simp [State.currentTask, hi]

section Schedulers

variable {schedulers schedulers' : Schedulers} {p : SchedPolicy} {q : List TaskPtr}

section

variable (h : (s.cpuSchedulers c).schedulers = some schedulers)
include h

theorem board_setSchedulers
    (hq : schedulers'.readyQueue = update schedulers.readyQueue p q) :
    (s.setCpu c fun d => { d with schedulers := some schedulers' }).board =
      { s.board with
        holds := update s.board.holds (.ready c p) q
        slot := update s.board.slot c schedulers'.idle.idleTask } := by
  refine board_setCpu_at (k := .ready c p) rfl ?_ (fun k' hc hne => ?_) (by rw [h]; rfl)
  · simp [Container.contents, hq]
  · cases k' with
    | ready i p' =>
      obtain rfl : i = c := hc
      have hp : p' ≠ p := fun e => hne (by rw [e])
      simp [Container.contents, hq, hp, h]
    | sleeping | blocked => rfl

theorem holds_ready (p : SchedPolicy) :
    s.board.holds (.ready c p) = schedulers.readyQueue p := by
  simp [State.board, Container.contents, Container.core, h]

theorem slot_eq : s.board.slot c = schedulers.idle.idleTask := by
  simp [h]

theorem board_setIdleTask (hq : schedulers'.readyQueue = schedulers.readyQueue) :
    (s.setCpu c fun d => { d with schedulers := some schedulers' }).board =
      { s.board with slot := update s.board.slot c schedulers'.idle.idleTask } := by
  have hsame : schedulers'.readyQueue =
      update schedulers.readyQueue .idle (schedulers.readyQueue .idle) := by
    rw [hq, update_eq_self]
  rw [board_setSchedulers h hsame, ← holds_ready h, update_eq_self]

theorem board_sameSchedulers
    (hq : schedulers'.readyQueue = schedulers.readyQueue)
    (hi : schedulers'.idle.idleTask = schedulers.idle.idleTask) :
    (s.setCpu c fun d => { d with schedulers := some schedulers' }).board = s.board := by
  rw [board_setIdleTask h hq, hi, ← slot_eq h, update_eq_self]

theorem board_pushReady
    (hq : schedulers'.readyQueue = update schedulers.readyQueue p (schedulers.readyQueue p ++ [t]))
    (hi : schedulers'.idle.idleTask = schedulers.idle.idleTask) :
    (s.setCpu c fun d => { d with schedulers := some schedulers' }).board =
      s.board.put (.ready c p) t := by
  rw [board_setSchedulers h hq, hi, ← slot_eq h, update_eq_self,
    update_eq_put (holds_ready h p) (List.perm_append_singleton t _)]
  rfl

theorem board_popReady
    (hp : schedulers.readyQueue p = t :: q)
    (hq : schedulers'.readyQueue = update schedulers.readyQueue p q)
    (hi : schedulers'.idle.idleTask = schedulers.idle.idleTask) :
    (s.setCpu c fun d => { d with schedulers := some schedulers' }).board =
      s.board.take (.ready c p) t := by
  rw [board_setSchedulers h hq, hi, ← slot_eq h, update_eq_self,
    update_eq_take (holds_ready h p) (.of_eq hp)]
  rfl

end

theorem readyQueue_realTime (f : FifoScheduler) :
    ({ schedulers with realTime := f } : Schedulers).readyQueue =
      update schedulers.readyQueue .realTime f.readyQueue := by
  funext p
  cases p <;> rfl

theorem readyQueue_normal (f : RoundRobinScheduler) :
    ({ schedulers with normal := f } : Schedulers).readyQueue =
      update schedulers.readyQueue .normal f.readyQueue := by
  funext p
  cases p <;> rfl

theorem readyQueue_idle (f : IdleScheduler) :
    ({ schedulers with idle := f } : Schedulers).readyQueue = schedulers.readyQueue := by
  funext p
  cases p <;> rfl

end Schedulers

theorem enqueue_enqueued (s : State N) (c : N.Core) (t : TaskPtr) :
    Enqueued s.board c t (s.enqueue c (s.tcb t).policy t).board := by
  unfold State.enqueue
  cases h : (s.cpuSchedulers c).schedulers with
  | none => exact .drop fun _ ho => absurd ho (by simp [h])
  | some schedulers =>
    have ho : s.board.online c := by simp [h]
    have hdrop : maxReadyTasks ≤ (schedulers.readyQueue (s.tcb t).policy).length →
        Enqueued s.board c t s.board := fun hfull => .drop fun _ _ => by
      rw [holds_ready h]
      exact hfull
    have hpush : (s.tcb t).policy ≠ .idle → ∀ {b}, b = s.board.put (.ready c (s.tcb t).policy) t →
        Enqueued s.board c t b := fun hp _ hb => hb ▸ .push hp ho
    cases hp : (s.tcb t).policy with
    | realTime =>
      rw [hp] at hdrop hpush
      simp only [Schedulers.enqueue, FifoScheduler.enqueue]
      rw [board_modify_of_eq rfl rfl rfl]
      split_ifs with hfull
      · rw [board_sameSchedulers h rfl rfl]
        exact hdrop hfull
      · exact hpush nofun (board_pushReady h (readyQueue_realTime _) rfl)
    | normal =>
      rw [hp] at hdrop hpush
      simp only [Schedulers.enqueue, RoundRobinScheduler.enqueue]
      split_ifs with hfull
      · rw [board_modify_of_eq rfl rfl rfl, board_sameSchedulers h rfl rfl]
        exact hdrop hfull
      · rw [board_modify_of_eq rfl rfl rfl]
        exact hpush nofun (board_pushReady h (readyQueue_normal _) rfl)
    | idle =>
      simp only [Schedulers.enqueue, IdleScheduler.enqueue]
      rw [board_modify_of_eq rfl rfl rfl, board_setIdleTask h (readyQueue_idle _)]
      exact .slot hp ho

theorem board_setWaiting (s : State N) (c : N.Core) (r : ResourceId) (list : List TaskPtr) :
    (s.setWaiting c r list).board =
      { s.board with holds := update s.board.holds (.blocked c r) list } := by
  refine board_setContainer (k := .blocked c r) rfl ?_ (fun k' hc hne => ?_) rfl
  · simp [Container.contents]
  · cases k' with
    | ready | sleeping => rfl
    | blocked i r' =>
      obtain rfl : i = c := hc
      have hr : r' ≠ r := fun e => hne (by rw [e])
      simp [Container.contents, AList.lookup_insert_ne hr]

theorem board_eraseGroup (h : (s.cpuSchedulers c).waiting r = []) :
    (s.eraseGroup c r).board = s.board := by
  refine board_setCpu_of_eq (fun k => ?_) rfl
  cases k with
  | ready i p => rfl
  | sleeping i => rfl
  | blocked i r' =>
    by_cases hr : r' = r
    · subst hr
      simp only [Container.contents, h]
      simp
    · simp [Container.contents, AList.lookup_erase_ne hr]

theorem board_setSleeping (s : State N) (c : N.Core) (f : Array TaskPtr → Array TaskPtr) :
    (s.setCpu c fun d => { d with sleepingTasks := f d.sleepingTasks }).board =
      { s.board with
        holds := update s.board.holds (.sleeping c)
          ((f (s.cpuSchedulers c).sleepingTasks).toList : Multiset TaskPtr) } := by
  refine board_setContainer (k := .sleeping c) rfl rfl (fun k' hc hne => ?_) rfl
  cases k' with
  | ready | blocked => rfl
  | sleeping i =>
    obtain rfl : i = c := hc
    exact absurd rfl hne

/-! ## Frames -/

def assetsOf (task : TaskControlBlock) :
    Pid × BitVec 64 × Option VirtualMemory.Addr × Option VirtualMemory.Addr × BitVec 64 :=
  (task.pid, task.aux.cpuAffinity, task.kernelStack, task.pageTable, task.aux.cloneFlags)

/-- No task is created or destroyed, and no memory is touched. -/
structure Frame (s s' : State N) : Prop where
  nextTask : s'.nextTask = s.nextTask
  taskTable : s'.taskTable = s.taskTable
  memory : s'.memory = s.memory
  family : s'.family = s.family
  assets : ∀ t, assetsOf (s'.tcb t) = assetsOf (s.tcb t)

theorem Frame.refl (s : State N) : Frame s s := ⟨rfl, rfl, rfl, rfl, fun _ => rfl⟩

theorem Frame.trans {s'' : State N} (h : Frame s s') (h' : Frame s' s'') : Frame s s'' :=
  ⟨h'.nextTask.trans h.nextTask, h'.taskTable.trans h.taskTable,
    h'.memory.trans h.memory, h'.family.trans h.family,
    fun t => (h'.assets t).trans (h.assets t)⟩

theorem Frame.modify (h : Frame s s')
    (hf : assetsOf (f (s'.tcb t)) = assetsOf (s'.tcb t)) : Frame s (s'.modify t f) :=
  ⟨h.nextTask, h.taskTable, h.memory, h.family,
    fun u => (modify_tcb_read s' t f assetsOf hf u).trans (h.assets u)⟩

theorem sendSignal_induction {P : State N → Prop} {pid : Pid} (hsame : P s)
    (hsignals : ∀ t, s.taskTable.lookup pid = some t → ∀ signals, P (s.modify t (setSignals signals)))
    (hwake : ∀ t, s.taskTable.lookup pid = some t → ∀ s, P s → P (s.modify t (setWakeTick 0)))
    (signum : ℤ) : P (sendSignal pid signum s).2 := by
  unfold sendSignal
  split
  · exact hsame
  cases htarget : s.taskTable.lookup pid with
  | none => exact hsame
  | some t =>
    have hsent := hsignals t htarget
    simp only
    split
    · split
      · exact hsent _
      · exact hwake t htarget _ (hsent _)
      · exact hsent _
    · exact hsent _

theorem checkPendingSignals_cases (c : N.Core) (s : State N) : (checkPendingSignals c s).2 = s ∨
    ∃ t signals, (checkPendingSignals c s).2 = s.modify t (setSignals signals) := by
  unfold checkPendingSignals
  cases s.currentTask c with
  | none => exact .inl rfl
  | some t =>
    simp only
    split
    · exact .inl rfl
    refine .inr ⟨t, (s.tcb t).aux.signals.clearPending
      (s.tcb t).aux.signals.getNextDeliverableSignal, ?_⟩
    split
    · rfl
    split
    · rfl
    · split <;> rfl

end SimpleKernel.TaskManager
