import SimpleKernel.Verification.Task.Switching

/-! `TickUpdate` wakes every sleeping task that is due, provided that a signal never gives a
sleeper an earlier wake tick than the sleeper above it in the heap has. -/

namespace SimpleKernel.TaskManager

open VirtualMemory (CpuIo Allocator sv39 bump)
open BinaryHeap (IsHeap)

variable {N : CoreCount} {A : CpuIo} {al : Allocator A} {tick : ℕ} {s s' s'' : State N}
  {c : N.Core} {t : TaskPtr} {m m' : Machine N} {a : Action N} {tcb : TaskPtr → TaskControlBlock}
  {sleepers : Array TaskPtr}

/-! ## The order of the sleepers -/

def State.Ordered (s : State N) : Prop :=
  ∀ i, IsHeap (wakeTickCompare s.tcb) (s.cpuSchedulers i).sleepingTasks

section

variable (tcb)

theorem wakeTickCompare_asymm (t u : TaskPtr)
    (h : wakeTickCompare tcb t u = true) : wakeTickCompare tcb u t = false := by
  simp only [wakeTickCompare, decide_eq_true_eq, decide_eq_false_iff_not] at h ⊢
  omega

theorem wakeTickCompare_trans (t u v : TaskPtr)
    (h : wakeTickCompare tcb t u = false) (h' : wakeTickCompare tcb u v = false) :
    wakeTickCompare tcb t v = false := by
  simp only [wakeTickCompare, decide_eq_false_iff_not] at h h' ⊢
  omega

end

theorem wakeTick_root {u : TaskPtr}
    (h : IsHeap (wakeTickCompare tcb) sleepers) (ht : sleepers[0]? = some t) (hu : u ∈ sleepers) :
    (tcb t).schedInfo.wakeTick ≤ (tcb u).schedInfo.wakeTick := by
  obtain ⟨j, hj, rfl⟩ := Array.mem_iff_getElem.mp hu
  have hroot := h.root (wakeTickCompare_asymm tcb) (wakeTickCompare_trans tcb) j
  rw [BinaryHeap.below, ht, Array.getElem?_eq_getElem hj] at hroot
  simpa [wakeTickCompare] using hroot

theorem isHeap_of_wakeTick {tcb' : TaskPtr → TaskControlBlock}
    (h : IsHeap (wakeTickCompare tcb) sleepers)
    (hsame : ∀ t ∈ sleepers, (tcb' t).schedInfo.wakeTick = (tcb t).schedInfo.wakeTick) :
    IsHeap (wakeTickCompare tcb') sleepers :=
  h.congr fun x hx y hy => by simp [wakeTickCompare, hsame x hx, hsame y hy]

/-- The tasks that exist keep their wake ticks. -/
structure Undisturbed (s s' : State N) : Prop where
  wakeTick : ∀ t < s.nextTask, (s'.tcb t).schedInfo.wakeTick = (s.tcb t).schedInfo.wakeTick
  sleepers : ∀ i, (s'.cpuSchedulers i).sleepingTasks = (s.cpuSchedulers i).sleepingTasks

theorem Calm.undisturbed (h : Calm s s') : Undisturbed s s' := ⟨fun t _ => h.task t, h.sleepers⟩

theorem Undisturbed.calm (h : Undisturbed s s') (h' : Calm s' s'') : Undisturbed s s'' :=
  ⟨fun t ht => (h'.task t).trans (h.wakeTick t ht), fun i => (h'.sleepers i).trans (h.sleepers i)⟩

theorem Undisturbed.create (s : State N) (task : TaskControlBlock) :
    Undisturbed s (s.create task) :=
  ⟨fun _ ht => by rw [create_tcb_of_lt s task ht], fun _ => rfl⟩

theorem mem_sleeping {i : N.Core} :
    t ∈ s.board.holds (.sleeping i) ↔ t ∈ (s.cpuSchedulers i).sleepingTasks :=
  Multiset.mem_coe.trans Array.mem_toList_iff

theorem Undisturbed.ordered (h : Undisturbed s s') (hinv : s.board.Inv) (ho : s.Ordered) :
    s'.Ordered := by
  intro i
  rw [h.sleepers i]
  refine isHeap_of_wakeTick (ho i) fun t ht => h.wakeTick t ?_
  exact hinv.created (Board.near_of_mem (mem_sleeping.mpr ht))

/-! ## Operations that leave the sleepers alone -/

theorem Arrives.undisturbed (h : Arrives s s') : Undisturbed s s' := by
  cases h with
  | aside h => exact h.calm.undisturbed
  | @created task _ h => exact (Undisturbed.create s task).calm h.calm
  | @enqueued task s₁ i p h =>
    exact ((Undisturbed.create s task).calm h.calm).calm
      (Still.enqueue (.refl s₁) i p s.nextTask).butGroups.calm

theorem initCurrentCore_undisturbed (hoff : (s.cpuSchedulers c).schedulers = none) :
    Undisturbed s (initCurrentCore c s) := by
  obtain ⟨-, -, hold, -⟩ := initCurrentCore_tasks hoff
  refine ⟨fun u hu => by rw [hold u (.inl hu)], fun i => ?_⟩
  rw [initCurrentCore_eq hoff]
  by_cases hi : i = c
  · subst hi
    simp
  · simp [hi]

/-! ## `Sleep` -/

theorem sleep_ordered (ho : s.Ordered) (hfree : ∀ i, t ∉ (s.cpuSchedulers i).sleepingTasks)
    (tick ms : ℕ) : (sleep tick c t ms s).2.Ordered := by
  have hold : ∀ (tcb : TaskPtr → TaskControlBlock) i, (∀ u, u ≠ t → tcb u = s.tcb u) →
      IsHeap (wakeTickCompare tcb) (s.cpuSchedulers i).sleepingTasks := by
    intro tcb i htcb
    refine isHeap_of_wakeTick (ho i) fun u hu => ?_
    rw [htcb u fun he => hfree i (he ▸ hu)]
  unfold sleep
  simp only
  generalize ((s.cpuSchedulers c).localTick + ms * tick % 2 ^ 64 / 1000) % 2 ^ 64 = wakeTick
  have hwake : ∀ u, u ≠ t → (s.modify t (setWakeTick wakeTick)).tcb u = s.tcb u :=
    fun u hu => modify_tcb_of_ne s t _ hu
  split
  · exact fun i => hold _ i hwake
  set s₁ := (s.modify t (setWakeTick wakeTick)).modify t fun task => task.receive .sleep with hs₁
  have hsleep : ∀ u, u ≠ t → s₁.tcb u = s.tcb u :=
    fun u hu => (modify_tcb_of_ne _ t _ hu).trans (hwake u hu)
  intro i
  by_cases hi : i = c
  · subst hi
    simp only [setCpu_cpuSchedulers_self, setCpu_tcb]
    exact BinaryHeap.push_isHeap (wakeTickCompare_asymm _) (wakeTickCompare_trans _)
      (hold s₁.tcb i hsleep) t
  · simp only [setCpu_cpuSchedulers_of_ne _ c _ hi, setCpu_tcb]
    exact hold s₁.tcb i hsleep

/-! ## `SendSignal` -/

def State.interrupted (s : State N) (pid : Pid) (signum : ℤ) : Option TaskPtr :=
  if SignalState.isValid signum then
    (s.taskTable.lookup pid).filter fun t => (s.tcb t).status = .sleeping &&
      (signum.toNat = sigKill || signum.toNat = sigCont ||
        !(s.tcb t).aux.signals.blocked.getLsbD signum.toNat)
  else none

theorem sendSignal_alarms (s : State N) (pid : Pid) (signum : ℤ) :
    Calm s (sendSignal pid signum s).2 ∨ ∃ t, s.interrupted pid signum = some t ∧
      Calm (s.modify t (setWakeTick 0)) (sendSignal pid signum s).2 := by
  unfold sendSignal State.interrupted
  by_cases hvalid : SignalState.isValid signum
  · simp only [hvalid, Bool.not_true, Bool.false_eq_true, if_false, if_true]
    cases htarget : s.taskTable.lookup pid with
    | none => exact .inl (.refl s)
    | some target =>
      simp only
      set s₁ := s.modify target fun task =>
        setSignals (task.aux.signals.setPending signum.toNat) task with hs₁
      have hpending : Calm s s₁ := (Agree.refl s).modify rfl
      have hstatus : (s₁.tcb target).status = (s.tcb target).status := by
        rw [hs₁, modify_tcb_self]
        rfl
      have hmask : (s₁.tcb target).aux.signals.blocked = (s.tcb target).aux.signals.blocked := by
        rw [hs₁, modify_tcb_self]
        rfl
      split
      · rename_i hwake
        cases hst : (s₁.tcb target).status with
        | sleeping =>
          refine .inr ⟨target, ?_, ?_⟩
          · rw [hst, hmask] at hwake
            simp only [Option.filter_some, ← hstatus, hst, decide_true, Bool.true_and]
            rw [if_pos]
            simpa [or_assoc] using hwake
          · refine ⟨fun u => ?_, fun _ => rfl, rfl⟩
            by_cases hu : u = target
            · subst hu
              simp only [modify_tcb_self]
              rfl
            · simp [modify_tcb_of_ne _ target _ hu, hs₁]
        | blocked | unInit | ready | running | exited | zombie => exact .inl hpending
      · exact .inl hpending
  · simp only [hvalid, Bool.not_false, if_true]
    exact .inl (.refl s)

def State.mayLower (s : State N) (t : TaskPtr) : Bool :=
  decide (∀ i, ∀ j < (s.cpuSchedulers i).sleepingTasks.size,
    (s.cpuSchedulers i).sleepingTasks[j]? = some t → j = 0 ∨
      ((s.cpuSchedulers i).sleepingTasks[(j - 1) / 2]?).all fun u =>
        (s.tcb u).schedInfo.wakeTick = 0)

theorem lower_ordered (ho : s.Ordered) (hmay : s.mayLower t) :
    (s.modify t (setWakeTick 0)).Ordered := by
  have hmay' := of_decide_eq_true hmay
  intro i j hj hlt
  have hold := ho i j hj hlt
  simp only [modify_cpuSchedulers] at hlt ⊢
  unfold BinaryHeap.below at hold ⊢
  rw [Array.getElem?_eq_getElem hlt] at hold ⊢
  cases hp : (s.cpuSchedulers i).sleepingTasks[(j - 1) / 2]? with
  | none => rfl
  | some u =>
    rw [hp] at hold
    simp only [wakeTickCompare, decide_eq_false_iff_not] at hold ⊢
    by_cases hchild : (s.cpuSchedulers i).sleepingTasks[j] = t
    · have habove := (hmay' i j hlt (by rw [Array.getElem?_eq_getElem hlt, hchild])).resolve_left
        hj.ne'
      simp only [hp, Option.all_some, decide_eq_true_eq] at habove
      by_cases hu : u = t
      · subst hu
        simp [setWakeTick]
      · rw [modify_tcb_of_ne s t _ hu, habove]
        exact Nat.not_lt_zero _
    rw [modify_tcb_of_ne s t _ hchild]
    by_cases hu : u = t
    · subst hu
      simp [setWakeTick]
    · rwa [modify_tcb_of_ne s t _ hu]

/-! ## `TickUpdate` -/

/-- What the loop of `TickUpdate` has done when it ends. -/
structure Woken (c : N.Core) (s s' : State N) : Prop where
  ordered : s'.Ordered
  wakeTick : ∀ t, (s'.tcb t).schedInfo.wakeTick = (s.tcb t).schedInfo.wakeTick
  localTick : (s'.cpuSchedulers c).localTick = (s.cpuSchedulers c).localTick
  ready : ∀ t, (s.tcb t).status = .ready → (s'.tcb t).status = .ready
  woken : ∀ t ∈ (s.cpuSchedulers c).sleepingTasks, (s.tcb t).status = .sleeping →
    t ∈ (s'.cpuSchedulers c).sleepingTasks ∨ (s'.tcb t).status = .ready

theorem Woken.refl (ho : s.Ordered) (c : N.Core) : Woken c s s :=
  ⟨ho, fun _ => rfl, rfl, fun _ h => h, fun _ ht _ => .inl ht⟩

section

variable (s c t) (u : TaskPtr)

theorem wakeRoot_sleepers (i : N.Core) :
    ((wakeRoot c t s).cpuSchedulers i).sleepingTasks = if i = c then
      BinaryHeap.pop (wakeTickCompare s.tcb) (s.cpuSchedulers c).sleepingTasks
      else (s.cpuSchedulers i).sleepingTasks := by
  unfold wakeRoot
  rw [(Still.enqueue (.refl _) c _ t).butGroups.calm.sleepers i, modify_cpuSchedulers]
  by_cases hi : i = c
  · subst hi
    simp
  · simp [setCpu_cpuSchedulers_of_ne _ c _ hi, hi]

theorem wakeRoot_wakeTick :
    ((wakeRoot c t s).tcb u).schedInfo.wakeTick = (s.tcb u).schedInfo.wakeTick := by
  unfold wakeRoot
  rw [(Still.enqueue (.refl _) c _ t).butGroups.calm.task u]
  exact modify_tcb_read _ t _ (·.schedInfo.wakeTick) (by rfl) u

theorem wakeRoot_localTick :
    ((wakeRoot c t s).cpuSchedulers c).localTick = (s.cpuSchedulers c).localTick := by
  unfold wakeRoot
  rw [(Still.enqueue (.refl _) c _ t).butGroups.calm.localTick c, modify_cpuSchedulers,
    setCpu_cpuSchedulers_self]

theorem wakeRoot_status :
    ((wakeRoot c t s).tcb u).status =
      if u = t then (s.tcb t).status.receive .wakeup else (s.tcb u).status := by
  refine (congrFun (enqueue_enqueued _ c t).status u).trans ?_
  by_cases hu : u = t
  · subst hu
    simp [TaskControlBlock.receive]
  · simp [modify_tcb_of_ne _ t _ hu, hu]

end

theorem wakeRoot_ordered (ho : s.Ordered) (c : N.Core) (t : TaskPtr) :
    (wakeRoot c t s).Ordered := by
  intro i
  refine isHeap_of_wakeTick ?_ fun u _ => wakeRoot_wakeTick s c t u
  rw [wakeRoot_sleepers]
  split
  · exact BinaryHeap.pop_isHeap (wakeTickCompare_asymm _) (wakeTickCompare_trans _) (ho c)
  · exact ho i

theorem Woken.of_root (ht : (s.cpuSchedulers c).sleepingTasks[0]? = some t)
    (h : Woken c (wakeRoot c t s) s') : Woken c s s' := by
  have hready : ∀ u, (s.tcb u).status = .ready → ((wakeRoot c t s).tcb u).status = .ready := by
    intro u hu
    rw [wakeRoot_status]
    split
    · rename_i he
      rw [← he, hu]
      rfl
    · exact hu
  refine ⟨h.ordered, fun u => (h.wakeTick u).trans (wakeRoot_wakeTick s c t u),
    h.localTick.trans (wakeRoot_localTick s c t), fun u hu => h.ready u (hready u hu),
    fun u hu hs => ?_⟩
  by_cases hut : u = t
  · refine .inr (h.ready u ?_)
    rw [wakeRoot_status, if_pos hut, ← hut, hs]
    rfl
  refine h.woken u ?_ (by rw [wakeRoot_status, if_neg hut]; exact hs)
  rw [wakeRoot_sleepers, if_pos rfl, ← Array.mem_toList_iff]
  refine (List.mem_cons.mp ?_).resolve_left hut
  exact (BinaryHeap.pop_perm ht).mem_iff.mp (Array.mem_toList_iff.mpr hu)

theorem wakeSleepers_woken {k : ℕ} (ho : s.Ordered)
    (hk : (s.cpuSchedulers c).sleepingTasks.size ≤ k) : Woken c s (wakeSleepers c k s) ∧
      ∀ t ∈ ((wakeSleepers c k s).cpuSchedulers c).sleepingTasks,
        (s.cpuSchedulers c).localTick < (s.tcb t).schedInfo.wakeTick := by
  induction k generalizing s with
  | zero =>
    refine ⟨.refl ho c, fun t ht => ?_⟩
    obtain ⟨j, hj, -⟩ := Array.mem_iff_getElem.mp ht
    exact absurd (Nat.lt_of_lt_of_le hj hk) (Nat.not_lt_zero j)
  | succ k ih =>
    rw [wakeSleepers_succ]
    cases htop : (s.cpuSchedulers c).sleepingTasks[0]? with
    | none =>
      refine ⟨.refl ho c, fun t ht => ?_⟩
      rw [Array.getElem?_eq_none_iff] at htop
      obtain ⟨j, hj, -⟩ := Array.mem_iff_getElem.mp ht
      exact absurd (Nat.lt_of_lt_of_le hj htop) (Nat.not_lt_zero j)
    | some t =>
      simp only
      split
      · rename_i hlater
        refine ⟨.refl ho c, fun u hu => ?_⟩
        exact Nat.lt_of_lt_of_le hlater (wakeTick_root (ho c) htop hu)
      have hsize : ((wakeRoot c t s).cpuSchedulers c).sleepingTasks.size ≤ k := by
        have hsmaller : (s.cpuSchedulers c).sleepingTasks.size = (BinaryHeap.pop
            (wakeTickCompare s.tcb) (s.cpuSchedulers c).sleepingTasks).size + 1 :=
          (BinaryHeap.pop_perm htop).length_eq
        rw [wakeRoot_sleepers, if_pos rfl]
        omega
      obtain ⟨hwoken, hrest⟩ := ih (wakeRoot_ordered ho c t) hsize
      refine ⟨hwoken.of_root htop, fun u hu => ?_⟩
      have hlater := hrest u hu
      rwa [wakeRoot_localTick, wakeRoot_wakeTick] at hlater

theorem tickUpdate_woken (ho : s.Ordered) (c : N.Core) : (tickUpdate c s).2.Ordered ∧
    (∀ t ∈ ((tickUpdate c s).2.cpuSchedulers c).sleepingTasks,
      ((tickUpdate c s).2.cpuSchedulers c).localTick <
        ((tickUpdate c s).2.tcb t).schedInfo.wakeTick) ∧
    ∀ t ∈ (s.cpuSchedulers c).sleepingTasks, (s.tcb t).status = .sleeping →
      (s.tcb t).schedInfo.wakeTick ≤ ((tickUpdate c s).2.cpuSchedulers c).localTick →
      ((tickUpdate c s).2.tcb t).status = .ready := by
  rw [tickUpdate_eq]
  have hsleepers := sleepers_advanceTick s c
  have ho₁ : (s.advanceTick c).Ordered := fun i => by
    rw [hsleepers i]
    exact ho i
  obtain ⟨hwoken, hrest⟩ := wakeSleepers_woken ho₁ le_rfl
  generalize wakeSleepers c _ (s.advanceTick c) = s₂ at hwoken hrest ⊢
  have hcharge := (chargeCurrent_still s₂ c).butGroups.calm
  have hlater : ∀ t ∈ ((chargeCurrent c s₂).2.cpuSchedulers c).sleepingTasks,
      ((chargeCurrent c s₂).2.cpuSchedulers c).localTick <
        ((chargeCurrent c s₂).2.tcb t).schedInfo.wakeTick := by
    intro t ht
    rw [hcharge.sleepers] at ht
    rw [hcharge.localTick, hcharge.task, hwoken.localTick, hwoken.wakeTick]
    exact hrest t ht
  refine ⟨fun i => ?_, hlater, fun t ht hs hdue => ?_⟩
  · rw [hcharge.sleepers]
    exact isHeap_of_wakeTick (hwoken.ordered i) fun t _ => hcharge.task t
  · rw [← hsleepers c] at ht
    refine (congrArg Prod.fst ((chargeCurrent_silent c s₂).task t)).trans ?_
    refine (hwoken.woken t ht hs).resolve_left fun hstay => ?_
    have hnot := hrest t hstay
    rw [hcharge.localTick, hwoken.localTick] at hdue
    exact absurd hdue (Nat.not_le_of_lt hnot)

/-! ## Runs -/

/-- If the step is a `SendSignal` that interrupts a sleeping task, the task may get the wake
tick 0. -/
def Machine.interruptsFirst (m : Machine N) (a : Action N) : Bool :=
  match a.call with
  | .sendSignal pid signum => (m.kernel.interrupted pid signum).all m.kernel.mayLower
  | _ => true

theorem Exec.ordered (h : Exec A al tick m a m') (hsafe : m.Safe) (hok : m.interruptsFirst a)
    (ho : m.kernel.Ordered) : m'.kernel.Ordered := by
  have hcalm : ∀ {s' : State N}, Calm m.kernel s' → s'.Ordered :=
    fun h => h.undisturbed.ordered hsafe.inv ho
  cases h with
  | pass _ _ _ hk | waitReturn _ _ hk | select _ _ hk | switchTo _ hk => rw [hk]; exact ho
  | addTask _ _ _ hk =>
    rw [hk]
    exact (addTask_arrives m.kernel A a.core _).undisturbed.ordered hsafe.inv ho
  | clone _ _ hk =>
    rw [hk]
    exact (clone_arrives m.kernel A al a.core _).undisturbed.ordered hsafe.inv ho
  | tickUpdate _ _ hk =>
    rw [hk]
    exact (tickUpdate_woken ho a.core).1
  | @sleep t ms _ _ ht hk =>
    rw [hk]
    refine sleep_ordered ho (fun i hi => ?_) tick ms
    have hstatus : (m.kernel.tcb t).status = .sleeping := hsafe.inv.status (mem_sleeping.mpr hi)
    rw [(runningCurrent_eq_some ht).2] at hstatus
    cases hstatus
  | block _ _ _ hk | waitBlock _ _ _ _ hk => rw [hk]; exact hcalm (block_still _ _ _ _).calm
  | reap _ hk =>
    rw [hk]
    exact hcalm (reap_aside m.kernel _ A).calm
  | @exit t code kernel hkernel _ hk =>
    rw [hk]
    exact hcalm ((polled_of_exit hkernel).aside.calm.trans (exit_aside kernel t code).calm)
  | signal _ hr hk =>
    rw [hk]
    exact hcalm (checkPendingSignals_polled hr).aside.calm
  | @sendSignal pid signum _ _ hcall _ hk =>
    rw [hk]
    rcases sendSignal_alarms m.kernel pid signum with hsame | ⟨t, ht, hsame⟩
    · exact hcalm hsame
    have hmay : m.kernel.mayLower t := by
      simpa [Machine.interruptsFirst, hcall, ht] using hok
    have hlow := lower_ordered ho hmay
    intro i
    rw [hsame.sleepers]
    exact isHeap_of_wakeTick (hlow i) fun u _ => hsame.task u
  | schedule _ hk => rw [hk]; exact hcalm (schedule_still _ _).butGroups.calm
  | wakeup hi _ hk => rw [hk]; exact hcalm (wakeup_still _ _ _).calm
  | wakeupOne hi _ hk => rw [hk]; exact hcalm (wakeupOne_still _ _ _).calm
  | balance _ hk => rw [hk]; exact hcalm (balance_still _ _ _).butGroups.calm
  | init _ hpc hk =>
    have hnone := hsafe.schedulers_eq_none hpc
    rw [hk]
    exact (initCurrentCore_undisturbed hnone).ordered hsafe.inv ho

/-- In every run in which signals interrupt only such sleepers, no task that is due stays in
the heap of a core after `TickUpdate`: those that were due are ready. -/
theorem tickUpdate_wakes_due (A : CpuIo) (al : Allocator A) (tick : ℕ) {m m' : Machine N}
    (h : (system A al tick).ReachableBy (fun m a => m.interruptsFirst a) m) (c : N.Core)
    (hs : next A al tick m ⟨c, .tickUpdate⟩ = some m') :
    (∀ t ∈ (m'.kernel.cpuSchedulers c).sleepingTasks,
      (m'.kernel.cpuSchedulers c).localTick < (m'.kernel.tcb t).schedInfo.wakeTick) ∧
    ∀ t ∈ (m.kernel.cpuSchedulers c).sleepingTasks,
      (m.kernel.tcb t).schedInfo.wakeTick ≤ (m'.kernel.cpuSchedulers c).localTick →
      (m'.kernel.tcb t).status = .ready := by
  have hm : m.Safe ∧ m.kernel.Ordered := by
    refine h.invariant (P := fun m => m.Safe ∧ m.kernel.Ordered) (fun m hm => ?_)
      fun m a m' hm hok hs => ⟨hm.1.step (next_step hm.1 hs), (next_exec hs).ordered hm.1 hok hm.2⟩
    refine ⟨Machine.Initial.safe hm, ?_⟩
    obtain ⟨memory, rfl⟩ := hm
    intro i j _ hlt
    exact absurd hlt (Nat.not_lt_zero j)
  have hk : m'.kernel = (tickUpdate c m.kernel).2 := by
    obtain ⟨-, ⟨⟩⟩ := Option.ite_none_right_eq_some.mp hs
    rfl
  obtain ⟨-, hlater, hready⟩ := tickUpdate_woken hm.2 c
  rw [hk]
  refine ⟨hlater, fun t ht hdue => hready t ht ?_ hdue⟩
  exact hm.1.inv.status (mem_sleeping.mpr ht)

def twoSleepers : List (Action dualCore) :=
  bootBoth ++ [⟨cpu0, .addTask {}⟩, ⟨cpu0, .addTask {}⟩, ⟨cpu0, .schedule⟩, goOn cpu0, goOn cpu0,
    ⟨cpu0, .sleep 10⟩, goOn cpu0, goOn cpu0, ⟨cpu0, .sleep 20⟩, goOn cpu0, goOn cpu0]

/-- The task at the root of the heap is interrupted and woken. -/
theorem tickUpdate_wakes_due_root : ∃ m m' : Machine dualCore,
    (system sv39 (bump 5) 1000).ReachableBy (fun m a => m.interruptsFirst a) m ∧
      next sv39 (bump 5) 1000 m ⟨cpu0, .tickUpdate⟩ = some m' ∧
      4 ∈ (m.kernel.cpuSchedulers cpu0).sleepingTasks ∧ (m'.kernel.tcb 4).status = .ready := by
  obtain ⟨m, hm, hpc, htop, hzero⟩ := dualCore_reaches (fun m a => m.interruptsFirst a)
    (twoSleepers ++ [⟨cpu1, .sendSignal 1 9⟩])
    (fun m => m.pc cpu0 = .task ∧ (m.kernel.cpuSchedulers cpu0).sleepingTasks[0]? = some 4 ∧
      (m.kernel.tcb 4).schedInfo.wakeTick = 0) (by decide)
  have hmem := Array.mem_of_getElem? htop
  obtain ⟨m', hm'⟩ : ∃ m', next sv39 (bump 5) 1000 m ⟨cpu0, .tickUpdate⟩ = some m' :=
    ⟨_, if_pos hpc⟩
  have hwakes := tickUpdate_wakes_due sv39 (bump 5) 1000 hm cpu0 hm'
  exact ⟨m, m', hm, hm', hmem, hwakes.2 4 hmem (hzero ▸ Nat.zero_le _)⟩

/-- Task 5 is below task 4 in the heap and is not looked at, although it is due. -/
theorem interrupted_sleeper_stays : ¬ ∀ m m' : Machine dualCore,
    (system sv39 (bump 5) 1000).Reachable m →
      next sv39 (bump 5) 1000 m ⟨cpu0, .tickUpdate⟩ = some m' →
      ∀ t ∈ (m'.kernel.cpuSchedulers cpu0).sleepingTasks,
        (m'.kernel.cpuSchedulers cpu0).localTick < (m'.kernel.tcb t).schedInfo.wakeTick := by
  intro hall
  obtain ⟨m, hm, hpc, hbelow, hzero⟩ := dualCore_reaches
    (fun _ _ => True) (twoSleepers ++ [⟨cpu1, .sendSignal 2 9⟩])
    (fun m => m.pc cpu0 = .task ∧
      ((tickUpdate cpu0 m.kernel).2.cpuSchedulers cpu0).sleepingTasks[1]? = some 5 ∧
      ((tickUpdate cpu0 m.kernel).2.tcb 5).schedInfo.wakeTick = 0) (by decide)
  have hlater := hall m _ hm (if_pos hpc) 5 (Array.mem_of_getElem? hbelow)
  change _ < ((tickUpdate cpu0 m.kernel).2.tcb 5).schedInfo.wakeTick at hlater
  rw [hzero] at hlater
  exact Nat.not_lt_zero _ hlater

end SimpleKernel.TaskManager
