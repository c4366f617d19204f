import SimpleKernel.Model.Mutex
import SimpleKernel.Shared.OwnedLock

/-! # Mutual exclusion and ownership of the mutex

Like the spin lock, the mutex keeps `locked_` and `owner_` in two words. The proof takes
every atomic access to a step of the two-word protocol. -/

namespace SimpleKernel.Mutex

open List

variable {N : CoreCount} {τ : Type*}

/-! ## Computation rules -/

attribute [simp] State.setTask State.receive State.setWoken State.wake Task.goto Task.return

section

variable [DecidableEq τ] (s : State N τ) (t : τ) {u : τ}

theorem setTask_tasks_self (k : Task N) : (s.setTask t k).tasks t = k := by
  simp

variable {t} in
theorem setTask_tasks_of_ne (h : u ≠ t) (k : Task N) : (s.setTask t k).tasks u = s.tasks u := by
  simp [h]

theorem receive_status_self (msg : Msg) :
    (s.receive t msg).status t = (s.status t).receive msg := by
  simp

variable {t} in
theorem receive_status_of_ne (h : u ≠ t) (msg : Msg) : (s.receive t msg).status u = s.status u := by
  simp [h]

/-! ## Waking a list of tasks -/

variable (ts : List τ)

theorem foldl_wake_read {α : Sort*} (read : State N τ → α) (h : ∀ s x, read (s.wake x) = read s) :
    read (ts.foldl State.wake s) = read s := by
  induction ts generalizing s with
  | nil => rfl
  | cons x ts ih => exact (ih (s.wake x)).trans (h s x)

@[simp] theorem foldl_wake_tasks : (ts.foldl State.wake s).tasks = s.tasks :=
  foldl_wake_read s ts (·.tasks) fun _ _ => rfl

@[simp] theorem foldl_wake_mutex : (ts.foldl State.wake s).mutex = s.mutex :=
  foldl_wake_read s ts (·.mutex) fun _ _ => rfl

@[simp] theorem foldl_wake_schedLock : (ts.foldl State.wake s).schedLock = s.schedLock :=
  foldl_wake_read s ts (·.schedLock) fun _ _ => rfl

@[simp] theorem foldl_wake_waiting : (ts.foldl State.wake s).waiting = s.waiting :=
  foldl_wake_read s ts (·.waiting) fun _ _ => rfl

theorem wake_woken (u : τ) : (s.wake t).woken u = (decide (u = t) || s.woken u) := by
  by_cases h : u = t
  · subst h; simp
  · simp [h]

variable {t} in
theorem wake_status_of_ne (h : u ≠ t) : (s.wake t).status u = s.status u := by
  simp [h]

theorem wake_status_ne_blocked : (s.wake t).status t ≠ .blocked := by
  cases h : s.status t <;> simp [TaskStatus.receive, h]

theorem foldl_wake_woken (u : τ) :
    (ts.foldl State.wake s).woken u = (decide (u ∈ ts) || s.woken u) := by
  induction ts generalizing s with
  | nil => simp
  | cons x ts ih =>
    rw [foldl_cons, ih (s.wake x), wake_woken]
    by_cases hx : u = x <;> by_cases hu : u ∈ ts <;> simp [hx, hu]

theorem foldl_wake_status_of_not_mem (h : u ∉ ts) :
    (ts.foldl State.wake s).status u = s.status u := by
  induction ts generalizing s with
  | nil => rfl
  | cons x ts ih =>
    rw [mem_cons, not_or] at h
    rw [foldl_cons, ih (s.wake x) h.2, wake_status_of_ne s h.1]

theorem foldl_wake_status_eq_blocked (h : (ts.foldl State.wake s).status u = .blocked) :
    u ∉ ts ∧ s.status u = .blocked := by
  induction ts generalizing s with
  | nil => exact ⟨not_mem_nil, h⟩
  | cons x ts ih =>
    obtain ⟨hts, hw⟩ := ih (s.wake x) h
    have hx : u ≠ x := by
      rintro rfl
      exact wake_status_ne_blocked s u hw
    rw [wake_status_of_ne s hx] at hw
    exact ⟨by simp [hx, hts], hw⟩

end

/-! ## The invariant -/

/-- Pairwise distinct pids, none of which is the mark of an unowned mutex. -/
structure Pids (τ : Type*) where
  pid : τ → ℕ
  injective : Function.Injective pid
  ne_max : ∀ t, pid t ≠ sizeMax

def Pids.names (P : Pids τ) : OwnedLock.Names τ where
  name := P.pid
  mark := sizeMax
  injective := P.injective
  ne_mark := P.ne_max

def Answers (r : CallRecord) (holds : Bool) (res : Expected Unit) : Prop :=
  match r.call, r.held with
  | .lock, true => res = .error .mutexRecursiveLock ∧ holds = true
  | .lock, false => res = .ok () ∧ holds = true
  | .tryLock, true => res = .error .mutexRecursiveLock ∧ holds = true
  | .tryLock, false =>
    res = .ok () ∧ holds = true ∨ res = .error .mutexNotLocked ∧ holds = false
  | .unLock, true => res = .ok () ∧ holds = false
  | .unLock, false => res = .error .mutexNotOwned ∧ holds = false

def ControlOk (k : Task N) : Prop :=
  match k.pc with
  | .outside => ∀ r res, k.record = some r → k.result = some res → Answers r k.holds res
  | .loadLocked f | .loadOwner f => k.record = some ⟨f, k.holds⟩
  | .compareExchange f => f ≠ .unLock ∧ k.record = some ⟨f, false⟩ ∧ k.holds = false
  | .storeOwner => (∃ f, f ≠ .unLock ∧ k.record = some ⟨f, false⟩) ∧ k.holds = true
  | .enterSched | .recheck _ | .block _ | .leaveSched _ false | .schedule | .retry =>
    k.record = some ⟨.lock, false⟩ ∧ k.holds = false
  | .storeOwnerLocked _ | .leaveSched _ true => k.record = some ⟨.lock, false⟩ ∧ k.holds = true
  | .resetOwner | .storeLocked => k.record = some ⟨.unLock, true⟩ ∧ k.holds = true
  | .wakeupOne _ => k.record = some ⟨.unLock, true⟩ ∧ k.holds = false

def Pc.phase : Pc N → OwnedLock.Phase
  | .storeOwner | .storeOwnerLocked _ => .won
  | .storeLocked => .leaving
  | _ => .owning

def Task.phase (k : Task N) : OwnedLock.Phase := bif k.holds then k.pc.phase else .out

def State.view (s : State N τ) : OwnedLock.State τ where
  locked := s.mutex.locked
  owner := s.mutex.owner
  phase t := (s.tasks t).phase

structure Inv (P : Pids τ) (s : State N τ) : Prop where
  owned : OwnedLock.Inv P.names s.view
  control : ∀ t, ControlOk (s.tasks t)

variable {P : Pids τ} {s s' : State N τ} {t u : τ} {k : Task N} {r : CallRecord}

theorem Task.holds_iff_phase : k.holds = true ↔ k.phase ≠ .out := by
  unfold Task.phase
  cases hh : k.holds with
  | false => simp
  | true => cases hpc : k.pc <;> simp [Pc.phase]

theorem controlOk_return {res : Expected Unit}
    (hr : k.record = some r) (h : Answers r k.holds res) : ControlOk (k.return res) := by
  intro r' res' hr' hres'
  cases hr.symm.trans hr'
  obtain rfl : res = res' := Option.some.inj hres'
  exact h

theorem inv_initial (h : Initial s) : Inv P s := by
  rw [h.1]
  refine ⟨OwnedLock.inv_initial (fun t => rfl) rfl, fun t => ?_⟩
  intro r res hr
  cases hr

section

variable (hi : Inv P s)
include hi

theorem Inv.congr (hmutex : s'.mutex = s.mutex) (htasks : s'.tasks = s.tasks) : Inv P s' := by
  refine ⟨?_, fun t => htasks ▸ hi.control t⟩
  have hview : s'.view = s.view := by simp [State.view, hmutex, htasks]
  rw [hview]
  exact hi.owned

theorem Inv.not_holds_of_unlocked (hl : s.mutex.locked = false) : (s.tasks t).holds = false := by
  have hout : (s.tasks t).phase = .out := hi.owned.out_of_unlocked hl t
  cases hh : (s.tasks t).holds with
  | false => rfl
  | true => exact absurd hout (Task.holds_iff_phase.mp hh)

theorem Inv.owner_iff (hpc : (s.tasks t).pc.phase = .owning) :
    s.mutex.owner = P.pid t ↔ (s.tasks t).holds = true := by
  have hiff : s.mutex.owner = P.pid t ↔ (s.tasks t).phase = .owning := hi.owned.owner_iff
  rw [hiff, Task.phase, hpc]
  cases (s.tasks t).holds <;> simp

end

variable [DecidableEq τ]

section

variable (hi : Inv P s)
include hi

theorem Inv.taskStep {mutex : Data} (hk : ControlOk k)
    (hstep : ∀ v : OwnedLock.State τ, v.locked = mutex.locked → v.owner = mutex.owner →
      v.phase t = k.phase → (∀ u, u ≠ t → v.phase u = (s.tasks u).phase) →
      OwnedLock.Step P.names s.view v) : Inv P ({ s with mutex }.setTask t k) := by
  have hself : ({ s with mutex }.setTask t k).tasks t = k := setTask_tasks_self ..
  refine ⟨hi.owned.step (hstep _ rfl rfl (congrArg Task.phase hself) fun u hu => ?_), fun u => ?_⟩
  · exact congrArg Task.phase (setTask_tasks_of_ne _ hu k)
  · by_cases hu : u = t
    · subst hu; rw [hself]; exact hk
    · rw [setTask_tasks_of_ne _ hu]; exact hi.control u

theorem Inv.setTask {pc : Pc N} (hpc : (s.tasks t).pc = pc) (hmutex : s'.mutex = s.mutex)
    (htasks : s'.tasks = Function.update s.tasks t k) (hholds : k.holds = (s.tasks t).holds)
    (hphase : k.pc.phase = pc.phase) (hk : ControlOk k) : Inv P s' := by
  have hset : Inv P (s.setTask t k) := by
    refine hi.taskStep hk fun v hl ho hself hothers => .stutter hl ho fun u => ?_
    by_cases hu : u = t
    · subst hu; rw [hself]; simp [State.view, Task.phase, hholds, hphase, hpc]
    · exact hothers u hu
  exact hset.congr hmutex htasks

theorem Inv.acquire {pc : Pc N} (hl : s.mutex.locked = false)
    (hpc : pc.phase = .won) (hk : ControlOk { s.tasks t with pc := pc, holds := true }) :
    Inv P (s.acquire t pc) :=
  hi.taskStep hk fun _ hlocked ho hself hu => .acquire t hl hlocked ho (hself.trans hpc) hu

theorem Inv.publish (hwon : (s.tasks t).phase = .won)
    (hphase : k.phase = .owning) (hk : ControlOk k) :
    Inv P ({ s with mutex := { s.mutex with owner := P.pid t } }.setTask t k) :=
  hi.taskStep hk fun _ hl ho hself hu => .publish t hwon hl ho (hself.trans hphase) hu

/-! ## Every step -/

theorem inv_atomicStep {here : N.Core} (h : atomicStep P.pid s t here = some s') : Inv P s' := by
  have hk := hi.control t
  unfold atomicStep at h
  cases hpc : (s.tasks t).pc with simp only [ControlOk, hpc] at h hk
  | outside => cases h
  | loadLocked f =>
    split_ifs at h with hl
    · cases h
      exact hi.setTask hpc rfl rfl rfl rfl hk
    cases h
    have hno : (s.tasks t).holds = false := hi.not_holds_of_unlocked (by simpa using hl)
    rw [hno] at hk
    cases f with
    | lock | tryLock =>
      exact hi.setTask hpc rfl rfl rfl rfl ⟨by nofun, hk, hno⟩
    | unLock =>
      exact hi.setTask hpc rfl rfl rfl rfl (controlOk_return hk ⟨rfl, hno⟩)
  | loadOwner f =>
    have howner := hi.owner_iff (t := t) (by rw [hpc]; rfl)
    split at h
    · rename_i ho
      cases h
      have hyes := howner.mp ho
      rw [hyes] at hk
      cases f with
      | lock | tryLock =>
        exact hi.setTask hpc rfl rfl rfl rfl (controlOk_return hk ⟨rfl, hyes⟩)
      | unLock =>
        exact hi.setTask hpc rfl rfl rfl rfl ⟨hk, hyes⟩
    rename_i ho
    cases h
    have hno : (s.tasks t).holds = false := by
      simpa using fun hyes => ho (howner.mpr hyes)
    rw [hno] at hk
    cases f with
    | lock | tryLock =>
      exact hi.setTask hpc rfl rfl rfl rfl ⟨by nofun, hk, hno⟩
    | unLock =>
      exact hi.setTask hpc rfl rfl rfl rfl (controlOk_return hk ⟨rfl, hno⟩)
  | compareExchange f =>
    obtain ⟨hf, hr, hno⟩ := hk
    split at h
    · split at h
      · rename_i hlock
        subst hlock
        cases h
        exact hi.setTask hpc rfl rfl rfl rfl ⟨hr, hno⟩
      rename_i hlock
      cases h
      refine hi.setTask hpc rfl rfl rfl rfl (controlOk_return hr ?_)
      cases f with
      | lock => exact absurd rfl hlock
      | tryLock => exact .inr ⟨rfl, hno⟩
      | unLock => exact absurd rfl hf
    · rename_i hl
      cases h
      exact hi.acquire (by simpa using hl) rfl ⟨⟨f, hf, hr⟩, rfl⟩
  | storeOwner =>
    obtain ⟨⟨f, hf, hr⟩, hyes⟩ := hk
    cases h
    refine hi.publish (by simp [Task.phase, Pc.phase, hpc, hyes])
      (by simp [Task.phase, Pc.phase, hyes]) (controlOk_return hr ?_)
    cases f with
    | lock => exact ⟨rfl, hyes⟩
    | tryLock => exact .inl ⟨rfl, hyes⟩
    | unLock => exact absurd rfl hf
  | enterSched =>
    split at h
    · cases h
      exact hi.setTask hpc rfl rfl rfl rfl hk
    · cases h
  | recheck c =>
    split_ifs at h with hl
    · cases h
      exact hi.setTask hpc rfl rfl rfl rfl hk
    · cases h
      exact hi.acquire (by simpa using hl) rfl ⟨hk.1, rfl⟩
  | storeOwnerLocked c =>
    cases h
    exact hi.publish (by simp [Task.phase, Pc.phase, hpc, hk.2])
      (by simp [Task.phase, Pc.phase, hk.2]) hk
  | block c =>
    split at h <;> cases h
    all_goals exact hi.setTask hpc rfl rfl rfl rfl hk
  | leaveSched c acquired =>
    cases h
    cases acquired with
    | true => exact hi.setTask hpc rfl rfl rfl rfl (controlOk_return hk.1 ⟨rfl, hk.2⟩)
    | false => exact hi.setTask hpc rfl rfl rfl rfl hk
  | schedule =>
    cases h
    split
    all_goals exact hi.setTask hpc rfl rfl rfl rfl hk
  | retry =>
    split_ifs at h with hl
    · cases h
      exact hi.setTask hpc rfl rfl rfl rfl hk
    cases h
    have hi' : Inv P (s.acquire t .storeOwner) :=
      hi.acquire (by simpa using hl) rfl ⟨⟨.lock, by nofun, hk.1⟩, rfl⟩
    exact hi'.congr rfl rfl
  | resetOwner =>
    cases h
    refine hi.taskStep hk fun _ hl ho hself hu => .retract t ?_ hl ho (hself.trans ?_) hu
    · simp [State.view, Task.phase, Pc.phase, hpc, hk.2]
    · simp [Task.phase, Pc.phase, hk.2]
  | storeLocked =>
    cases h
    refine hi.taskStep ⟨hk.1, rfl⟩ fun _ hl ho hself hu => .release t ?_ hl ho (hself.trans rfl) hu
    simp [State.view, Task.phase, Pc.phase, hpc, hk.2]
  | wakeupOne i =>
    have hret : ControlOk ((s.tasks t).return (.ok ())) := controlOk_return hk.1 ⟨rfl, hk.2⟩
    split at h
    · split at h
      · split at h <;> cases h
        · exact hi.setTask hpc rfl rfl rfl rfl hk
        · exact hi.setTask hpc rfl rfl rfl rfl hret
      · cases h
    · cases h
      exact hi.setTask hpc rfl rfl rfl rfl hret

theorem inv_next {a : Action N τ} (h : next P.pid s a = some s') : Inv P s' := by
  cases a with simp only [next] at h
  | call t f =>
    split at h
    · rename_i hpc
      cases h
      exact hi.setTask hpc.1 rfl rfl rfl rfl rfl
    · cases h
  | step t c =>
    split at h
    · exact inv_atomicStep hi h
    · cases h
  | dispatch t | preempt t =>
    split at h
    · cases h; exact hi.congr rfl rfl
    · cases h
  | wakeup c =>
    split at h
    · cases h
      exact hi.congr (foldl_wake_mutex _ _) (foldl_wake_tasks _ _)
    · cases h

end

theorem inv_reachable (h : (system N P.pid).Reachable s) : Inv P s :=
  h.invariant (P := Inv P) (fun _ => inv_initial) fun _ _ _ hi => inv_next hi

/-! ## The contract -/

def CallRecord.misused (r : CallRecord) : Bool :=
  match r.call with
  | .lock => r.held
  | .tryLock => r.held
  | .unLock => !r.held

/-- The mutex's contract in a state: at most one holder; a returned call has answered
according to whether its caller held the mutex; a misused call makes no step but the two
loads of its check; and `owner_` never names a task that does not hold the mutex. -/
structure Contract (pid : τ → ℕ) (s : State N τ) : Prop where
  exclusive : ∀ t u, (s.tasks t).holds = true → (s.tasks u).holds = true → t = u
  answers : ∀ t r res, (s.tasks t).pc = .outside → (s.tasks t).record = some r →
    (s.tasks t).result = some res → Answers r (s.tasks t).holds res
  misused : ∀ t r, (s.tasks t).pc ≠ .outside → (s.tasks t).record = some r → r.misused = true →
    (s.tasks t).pc = .loadLocked r.call ∨ (s.tasks t).pc = .loadOwner r.call
  owner : ∀ t, s.mutex.owner = pid t → (s.tasks t).holds = true

omit [DecidableEq τ] in
theorem Inv.misused (hi : Inv P s) (hpc : (s.tasks t).pc ≠ .outside)
    (hr : (s.tasks t).record = some r) (hm : r.misused = true) :
    (s.tasks t).pc = .loadLocked r.call ∨ (s.tasks t).pc = .loadOwner r.call := by
  have hk := hi.control t
  obtain ⟨f, held⟩ := r
  cases hp : (s.tasks t).pc with
    simp only [ControlOk, hp, hr, Option.some.injEq, CallRecord.mk.injEq] at hk
  | outside => exact absurd hp hpc
  | loadLocked g | loadOwner g =>
    simp [hk.1]
  | storeOwner =>
    obtain ⟨⟨g, hg, rfl, rfl⟩, -⟩ := hk
    cases f <;> simp_all [CallRecord.misused]
  | compareExchange g =>
    obtain ⟨hg, ⟨rfl, rfl⟩, -⟩ := hk
    cases f <;> simp_all [CallRecord.misused]
  | leaveSched c acquired =>
    cases acquired <;> simp [CallRecord.misused, hk.1.1, hk.1.2] at hm
  | enterSched | recheck _ | storeOwnerLocked _ | block _ | schedule | retry | resetOwner
  | storeLocked | wakeupOne _ =>
    simp [CallRecord.misused, hk.1.1, hk.1.2] at hm

/-- Whatever the tasks do, in every reachable state the mutex keeps its contract. -/
theorem mutex_contract (h : (system N P.pid).Reachable s) : Contract P.pid s := by
  have hi := inv_reachable h
  refine ⟨fun t u ht hu => ?_, fun t r res hpc hr hres => ?_, fun t r => hi.misused, fun t ht => ?_⟩
  · exact hi.owned.excl t u (Task.holds_iff_phase.mp ht) (Task.holds_iff_phase.mp hu)
  · have hk := hi.control t
    simp only [ControlOk, hpc] at hk
    exact hk r res hr hres
  · have hphase : (s.tasks t).phase = .owning := hi.owned.owner_iff.mp ht
    exact Task.holds_iff_phase.mpr (by rw [hphase]; nofun)

def oneCore : CoreCount := ⟨1, by decide⟩

def boot : oneCore.Core := ⟨0, by decide⟩

def twoTasks : Pids Bool where
  pid t := if t then 2 else 1
  injective := by
    intro t u h
    cases t <;> cases u <;> simp_all
  ne_max := by decide

def freshMutex (τ : Type) : State oneCore τ := { status := fun _ => .running }

theorem freshMutex_initial (τ : Type) : Initial (freshMutex τ) := ⟨rfl, fun _ => .inr rfl⟩

/-- Task 1 takes the mutex and calls `Lock` again, task 2 calls `UnLock` and `TryLock`. -/
theorem mutex_contract_misused : ∃ s : State oneCore Bool, (s.tasks false).holds = true ∧
    (s.tasks false).result = some (.error .mutexRecursiveLock) ∧
    (s.tasks true).result = some (.error .mutexNotLocked) ∧ Contract twoTasks.pid s := by
  obtain ⟨s, hs, hp⟩ := (system oneCore twoTasks.pid).exists_of_run (fun _ _ => True)
    (.call false .lock :: replicate 3 (.step false boot) ++
      .call false .lock :: replicate 2 (.step false boot) ++
      .call true .unLock :: replicate 2 (.step true boot) ++
      .call true .tryLock :: replicate 3 (.step true boot))
    (fun s => (s.tasks false).holds ∧
      (s.tasks false).result = some (.error .mutexRecursiveLock) ∧
      (s.tasks true).result = some (.error .mutexNotLocked))
    (freshMutex_initial Bool) (by decide)
  exact ⟨s, hp.1, hp.2.1, hp.2.2, mutex_contract hs⟩

/-- A pid that equals the mark of an unowned mutex is named by `owner_` from the start. -/
theorem marked_pid_breaks_contract :
    ¬ ∀ pid : Unit → ℕ, Function.Injective pid → ∀ s : State oneCore Unit,
      (system oneCore pid).Reachable s → Contract pid s := by
  intro hall
  have hc := hall (fun _ => sizeMax) (fun _ _ _ => rfl) (freshMutex Unit)
    (.init (freshMutex_initial Unit))
  have hh := hc.owner () rfl
  cases hh

end SimpleKernel.Mutex
