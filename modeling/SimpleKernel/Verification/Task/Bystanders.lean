import SimpleKernel.Verification.Task.Notification

/-! What `SendSignal` does to the tasks that it is not sent to. It wakes a blocked target by `Wakeup`
on the resource of the target, so the other tasks that wait for the resource are woken as well. -/

namespace SimpleKernel.TaskManager

open List Function
open VirtualMemory (CpuIo Allocator sv39 bump)

variable {N : CoreCount} {s s' : State N} {b b' b'' : Board N} {c i : N.Core} {t u : TaskPtr}
  {r : ResourceId} {pid : Pid} {signum : ℤ}

/-! ## The steps of `SendSignal` -/

section Alone

variable (A : CpuIo) (al : Allocator A) (tick : ℕ) (m : Machine N) (c : N.Core)

theorem alone_wakeupRounds (r : ResourceId) (n : ℕ) {i : ℕ} (hi : i + n = N.val) :
    Alone A al tick c (m.goto c (.wakeup r i false))
      ({ m with kernel := ((finRange N.val).drop i).foldl (fun s j => wakeup j r s) m.kernel
        }.goto c (.wakeup r N.val false)) := by
  induction n generalizing i m with
  | zero =>
    obtain rfl : i = N.val := hi
    rw [drop_eq_nil_of_le (length_finRange).le]
    exact .refl
  | succ n ih =>
    have hlt : i < N.val := by omega
    rw [drop_eq_getElem_cons (by rwa [length_finRange]), foldl_cons, getElem_finRange]
    refine Relation.ReflTransGen.head ?_ (ih { m with kernel := wakeup ⟨i, hlt⟩ r m.kernel }
      (by omega))
    rw [next_goto, pcStep, dif_pos hlt]
    simp [Machine.goto]

theorem alone_wakeup (r : ResourceId) : Alone A al tick c (m.goto c (.wakeup r 0 false))
    ({ m with kernel := wakeupWhole r m.kernel }.goto c .task) := by
  refine .tail (alone_wakeupRounds A al tick m c r N.val (Nat.zero_add _)) ?_
  rw [next_goto, pcStep, dif_neg (Nat.lt_irrefl _), goto_goto]
  rfl

theorem alone_sendSignal (pid : Pid) (signum : ℤ) (hpc : m.pc c = .task) :
    ∃ m' m'', next A al tick m ⟨c, .sendSignal pid signum⟩ = some m' ∧ Alone A al tick c m' m'' ∧
      m''.kernel = sendSignalWhole pid signum m.kernel ∧ m''.pc = m.pc := by
  have hback : ∀ p, update (update m.pc c p) c .task = m.pc := by
    intro p
    rw [update_idem, ← hpc, update_eq_self]
  have hstay : update m.pc c .task = m.pc := by
    rw [← hpc, update_eq_self]
  simp only [next, hpc, if_true, callStep, sendSignalWhole]
  obtain ⟨result, kernel⟩ := sendSignal pid signum m.kernel
  cases result with
  | error e => exact ⟨_, _, rfl, .refl, rfl, hstay⟩
  | ok resourceId =>
    cases resourceId with
    | none => exact ⟨_, _, rfl, .refl, rfl, hstay⟩
    | some r => exact ⟨_, _, rfl, alone_wakeup A al tick _ c r, rfl, hback .task⟩

end Alone

/-! ## The tasks that are not woken -/

/-- The task is in the same containers and in the same status. -/
structure Spares (u : TaskPtr) (b b' : Board N) : Prop where
  status : b'.status u = b.status u
  blockedOn : b'.blockedOn u = b.blockedOn u
  holds : ∀ k, u ∈ b'.holds k ↔ u ∈ b.holds k

theorem Spares.refl (u : TaskPtr) (b : Board N) : Spares u b b := ⟨rfl, rfl, fun _ => Iff.rfl⟩

theorem Spares.trans (h : Spares u b b') (h' : Spares u b' b'') : Spares u b b'' :=
  ⟨h'.status.trans h.status, h'.blockedOn.trans h.blockedOn,
    fun k => (h'.holds k).trans (h.holds k)⟩

theorem Enqueued.spares (he : Enqueued b c t b') (hu : u ≠ t) : Spares u b b' := by
  cases he with
  | push _ _ =>
    refine ⟨rfl, rfl, fun k => Holders.mem_put.trans ?_⟩
    simp [hu]
  | slot _ _ => exact ⟨rfl, rfl, fun _ => Iff.rfl⟩
  | drop _ => exact .refl u b

theorem spares_of_woken {k : Container N} {status : TaskStatus} {r : ResourceId}
    (he : Enqueued (((b.take k t).setStatus t status).setBlockedOn t r) c t b') (hu : u ≠ t) :
    Spares u b b' := by
  have hchanged : Spares u b (((b.take k t).setStatus t status).setBlockedOn t r) :=
    ⟨update_of_ne hu _ _, update_of_ne hu _ _, fun _ => Holders.mem_take_of_ne hu⟩
  exact hchanged.trans (he.spares hu)

theorem wakeupLoop_spares {waiting : List TaskPtr} (h : (s.cpuSchedulers c).waiting r = waiting)
    (hu : u ∉ waiting) : Spares u s.board (wakeupLoop c r waiting s).board := by
  induction waiting generalizing s with
  | nil =>
    rw [wakeupLoop, board_eraseGroup h]
    exact .refl u s.board
  | cons t rest ih =>
    obtain ⟨hne, hrest⟩ := not_or.mp (mem_cons.not.mp hu)
    refine Spares.trans ?_ (ih ?_ hrest)
    · have he := wakeTask_enqueued (((s.setWaiting c r rest).check
        ((s.tcb t).status = .blocked)).check ((s.tcb t).aux.blockedOn = r)) c t
      rw [board_check, board_check, board_popWaiting h] at he
      exact spares_of_woken he hne
    · simp [wakeTask_blockedTasks, State.setWaiting]

theorem wakeup_spares (hu : u ∉ (s.cpuSchedulers c).waiting r) :
    Spares u s.board (wakeup c r s).board := by
  unfold wakeup
  cases h : (s.cpuSchedulers c).blockedTasks.lookup r with
  | none => exact .refl u s.board
  | some waiting =>
    have hwaiting : (s.cpuSchedulers c).waiting r = waiting := by simp [h]
    exact wakeupLoop_spares hwaiting (hwaiting ▸ hu)

theorem Spares.waiting (h : Spares u s.board s'.board) (i : N.Core) (r : ResourceId) :
    u ∈ (s'.cpuSchedulers i).waiting r ↔ u ∈ (s.cpuSchedulers i).waiting r :=
  h.holds (.blocked i r)

theorem wakeupWhole_spares (hu : ∀ i, u ∉ (s.cpuSchedulers i).waiting r) :
    Spares u s.board (wakeupWhole r s).board := by
  unfold wakeupWhole
  induction finRange N.val generalizing s with
  | nil => exact .refl u s.board
  | cons i rest ih =>
    have hfirst := wakeup_spares (hu i)
    exact hfirst.trans (ih fun j => (hfirst.waiting j r).not.mpr (hu j))

/-! ## The tasks that are woken -/

theorem not_mem_wakeupWhole (u : TaskPtr) (i : N.Core) (r : ResourceId) (s : State N) :
    u ∉ ((wakeupWhole r s).cpuSchedulers i).waiting r := by
  have hrounds : ∀ (cores : List N.Core) (s : State N),
      u ∈ ((cores.foldl (fun s j => wakeup j r s) s).cpuSchedulers i).waiting r →
        i ∉ cores ∧ u ∈ (s.cpuSchedulers i).waiting r := by
    intro cores
    induction cores with
    | nil => exact fun s h => ⟨not_mem_nil, h⟩
    | cons j rest ih =>
      intro s h
      obtain ⟨hrest, hmem⟩ := ih _ h
      obtain ⟨hmem, hne⟩ := mem_waiting_wakeup hmem
      refine ⟨fun hi => ?_, hmem⟩
      rcases mem_cons.mp hi with rfl | hi
      · exact hne ⟨rfl, rfl⟩
      · exact hrest hi
  exact fun h => (hrounds _ s h).1 (mem_finRange i)

/-! ## The frame of `SendSignal` -/

/-- The status, `blocked_on`, the queues and `wake_tick` of the task are the same. -/
structure Bystander (u : TaskPtr) (s s' : State N) : Prop where
  status : (s'.tcb u).status = (s.tcb u).status
  blockedOn : (s'.tcb u).aux.blockedOn = (s.tcb u).aux.blockedOn
  place : ∀ k : Container N, u ∈ k.list s' ↔ u ∈ k.list s
  wakeTick : (s'.tcb u).schedInfo.wakeTick = (s.tcb u).schedInfo.wakeTick

theorem Spares.bystander (h : Spares u s.board s'.board)
    (hwake : (s'.tcb u).schedInfo.wakeTick = (s.tcb u).schedInfo.wakeTick) : Bystander u s s' := by
  refine ⟨h.status, h.blockedOn, fun k => ?_, hwake⟩
  have hk := h.holds k
  rwa [holds_eq_list, holds_eq_list, Multiset.mem_coe, Multiset.mem_coe] at hk

theorem wakeupWhole_wakeTick (r : ResourceId) (s : State N) (u : TaskPtr) :
    ((wakeupWhole r s).tcb u).schedInfo.wakeTick = (s.tcb u).schedInfo.wakeTick := by
  unfold wakeupWhole
  induction finRange N.val generalizing s with
  | nil => rfl
  | cons i rest ih => exact (ih _).trans ((wakeup_still s i r).calm.task u)

/-- Without steps of other cores, no task waits for the resource after `Wakeup`, and a task that did
not wait for it before is not changed. -/
theorem alone_wakeup_exact (A : CpuIo) (al : Allocator A) (tick : ℕ) (m : Machine N) (c : N.Core)
    (r : ResourceId) : ∃ m', Alone A al tick c (m.goto c (.wakeup r 0 false)) m' ∧
      m'.pc = update m.pc c .task ∧ ∀ u, (∀ i, u ∉ (m'.kernel.cpuSchedulers i).waiting r) ∧
        ((∀ i, u ∉ (m.kernel.cpuSchedulers i).waiting r) → Bystander u m.kernel m'.kernel) := by
  refine ⟨_, alone_wakeup A al tick m c r, rfl, fun u => ⟨fun i => ?_, fun hu => ?_⟩⟩
  · exact not_mem_wakeupWhole u i r m.kernel
  · exact (wakeupWhole_spares hu).bystander (wakeupWhole_wakeTick r m.kernel u)

theorem sendSignal_wakeTick (hu : s.taskTable.lookup pid ≠ some u) :
    ((sendSignal pid signum s).2.tcb u).schedInfo.wakeTick = (s.tcb u).schedInfo.wakeTick := by
  refine sendSignal_induction
    (P := fun s' => (s'.tcb u).schedInfo.wakeTick = (s.tcb u).schedInfo.wakeTick)
    rfl (fun t ht signals => ?_) (fun t ht s' h => ?_) signum
  all_goals have hne : u ≠ t := fun he => hu (he ▸ ht)
  · rw [modify_tcb_of_ne s t _ hne]
  · rw [modify_tcb_of_ne s' t _ hne, h]

def Rouses (signum : ℤ) (task : TaskControlBlock) : Prop :=
  SignalState.isValid signum ∧ task.status = .blocked ∧ task.aux.blockedOn.isValid ∧
    (signum.toNat = sigKill ∨ signum.toNat = sigCont ∨
      task.aux.signals.blocked.getLsbD signum.toNat = false)

/-- If the signal wakes the target, no other task waits for the resource of the target. -/
def WakesTargetOnly (pid : Pid) (signum : ℤ) (s : State N) : Prop :=
  ∀ t, s.taskTable.lookup pid = some t → Rouses signum (s.tcb t) →
    ∀ i, ∀ u ∈ (s.cpuSchedulers i).waiting (s.tcb t).aux.blockedOn, u = t

theorem sendSignal_eq_some_iff (pid : Pid) (signum : ℤ) (s : State N) (r : ResourceId) :
    (sendSignal pid signum s).1 = .ok (some r) ↔ ∃ t, s.taskTable.lookup pid = some t ∧
      Rouses signum (s.tcb t) ∧ (s.tcb t).aux.blockedOn = r := by
  unfold sendSignal
  cases hvalid : SignalState.isValid signum with
  | false => simp [Rouses, hvalid]
  | true =>
    cases hl : s.taskTable.lookup pid with
    | none => simp
    | some t =>
      have htask : ((s.modify t fun task => setSignals (task.aux.signals.setPending signum.toNat)
          task).tcb t) = setSignals ((s.tcb t).aux.signals.setPending signum.toNat) (s.tcb t) :=
        modify_tcb_self ..
      simp only [Bool.not_true, Bool.false_eq_true, if_false, htask]
      split
      all_goals
        cases hs : (s.tcb t).status <;>
          simp_all [Rouses, setSignals, SignalState.setPending]

theorem wakesTargetOnly_iff : WakesTargetOnly pid signum s ↔
    ∀ r, (sendSignal pid signum s).1 = .ok (some r) →
      ∀ i, ∀ u ∈ (s.cpuSchedulers i).waiting r, s.taskTable.lookup pid = some u := by
  simp only [sendSignal_eq_some_iff]
  constructor
  · rintro honly _ ⟨t, ht, hrouses, rfl⟩ i u hu
    rw [honly t ht hrouses i u hu, ht]
  · intro hall t ht hrouses i u hu
    exact Option.some.inj ((hall _ ⟨t, ht, hrouses, rfl⟩ i u hu).symm.trans ht)

/-- `SendSignal` changes no task but the target if and only if no other task waits for the resource
on which it calls `Wakeup`. -/
theorem sendSignal_frame_iff (pid : Pid) (signum : ℤ) (s : State N) :
    (∀ u, s.taskTable.lookup pid ≠ some u → Bystander u s (sendSignalWhole pid signum s)) ↔
      WakesTargetOnly pid signum s := by
  have hsilent := sendSignal_silent pid signum s
  have hwake := fun u => @sendSignal_wakeTick N s u pid signum
  rw [wakesTargetOnly_iff]
  unfold sendSignalWhole
  generalize sendSignal pid signum s = result at hsilent hwake ⊢
  obtain ⟨result, s₁⟩ := result
  have hsent : ∀ u, Spares u s.board s₁.board := fun u => hsilent.board ▸ .refl u s.board
  cases result with
  | error e => exact ⟨nofun, fun _ u hu => (hsent u).bystander (hwake u hu)⟩
  | ok resourceId =>
    cases resourceId with
    | none => exact ⟨nofun, fun _ u hu => (hsent u).bystander (hwake u hu)⟩
    | some r =>
      constructor
      · intro hall r' hr i u hmem
        cases hr
        by_contra hu
        exact not_mem_wakeupWhole u i r s₁ (((hall u hu).place (.blocked i r)).mpr hmem)
      · intro honly u hu
        have hwoken : Spares u s₁.board (wakeupWhole r s₁).board := by
          refine wakeupWhole_spares fun i hmem => ?_
          exact hu (honly r rfl i u (((hsent u).waiting i r).mp hmem))
        exact ((hsent u).trans hwoken).bystander ((wakeupWhole_wakeTick r s₁ u).trans (hwake u hu))

def twoWaiters : List (Action dualCore) :=
  [⟨cpu0, .initCurrentCore⟩, ⟨cpu0, .addTask {}⟩, ⟨cpu0, .addTask {}⟩, ⟨cpu0, .schedule⟩,
    goOn cpu0, goOn cpu0, ⟨cpu0, .block (.of .mutex 7)⟩, goOn cpu0, goOn cpu0,
    ⟨cpu0, .block (.of .mutex 7)⟩, goOn cpu0]

/-- A signal to task 2 makes task 3 ready as well. -/
theorem signal_wakes_other : ¬ ∀ (m : Machine dualCore) (pid : Pid) (signum : ℤ) (u : TaskPtr),
    (system sv39 (bump 5) 1000).Reachable m → m.kernel.taskTable.lookup pid ≠ some u →
      Bystander u m.kernel (sendSignalWhole pid signum m.kernel) := by
  intro hall
  obtain ⟨m, hm, htarget, hblocked, hready⟩ := dualCore_reaches (fun _ _ => True) twoWaiters
    (fun m => m.kernel.taskTable.lookup (m.kernel.tcb 2).pid = some 2 ∧
      (m.kernel.tcb 3).status = .blocked ∧
      ((sendSignalWhole (m.kernel.tcb 2).pid 15 m.kernel).tcb 3).status = .ready)
    (by decide +kernel)
  have hsame := (hall m (m.kernel.tcb 2).pid 15 3 hm (by rw [htarget]; decide)).status
  rw [hblocked, hready] at hsame
  cases hsame

end SimpleKernel.TaskManager
