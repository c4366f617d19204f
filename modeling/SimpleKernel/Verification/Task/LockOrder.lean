import SimpleKernel.Model.Task.Locking

/-! The locks of the task layer are taken in one order: `futex_lock_`, the locks of the cores in the
order of the cores, `task_table_lock_`. -/

namespace SimpleKernel.Locking

open LockProgram

variable {N : CoreCount} {held : List (Lock N)} {c c' : N.Core} {p : Program N}

/-! ## The order -/

def Lock.rank : Lock N → ℕ
  | .futex => 0
  | .sched c => c.val + 1
  | .table => N.val + 1

instance : Preorder (Lock N) := Preorder.lift Lock.rank

theorem Lock.futex_lt_sched (c : N.Core) : Lock.futex < Lock.sched c := Nat.succ_pos c.val

theorem Lock.sched_lt_sched (h : c < c') : Lock.sched c < Lock.sched c' :=
  Nat.succ_lt_succ h

theorem Lock.sched_lt_table (c : N.Core) : Lock.sched c < Lock.table := Nat.succ_lt_succ c.isLt

/-! ## The functions -/

theorem keeps_table (hp : p.Keeps [.table]) : (guarded .table p).Keeps [] :=
  .guarded nofun hp

theorem keeps_table_of_sched (hp : p.Keeps [.table, .sched c]) :
    (guarded .table p).Keeps [.sched c] := by
  refine .guarded ?_ hp
  intro x hx
  rw [List.mem_singleton] at hx
  subst hx
  exact Lock.sched_lt_table c

theorem keeps_currentSched {p : N.Core → Program N} (hp : ∀ c, (p c).Keeps [.sched c]) :
    (LockProgram.coreId fun c => guarded (.sched c) (p c)).Keeps [] :=
  .coreId fun c => .guarded nofun (hp c)

theorem schedule_keeps : (schedule : Program N).Keeps [] := by
  refine .coreId fun c => ?_
  have hmem : Lock.sched c ∈ [Lock.sched c] := List.mem_singleton_self _
  have herase : [Lock.sched c].erase (.sched c) = [] := List.erase_cons_head _ _
  refine ⟨nofun, ⟨hmem, herase⟩, hmem, ?_⟩
  rw [herase]
  exact Keeps.switchTo.optionally

theorem block_keeps : (block : Program N).Keeps [] :=
  (keeps_currentSched fun _ => .skip).andThen schedule_keeps

theorem wakeup_keeps (h : ∀ c, ∀ x ∈ held, x < Lock.sched c) : (wakeup : Program N).Keeps held :=
  .forEach fun i => .guarded (h i) .skip

theorem wakeup_keeps_nil : (wakeup : Program N).Keeps [] := wakeup_keeps nofun

theorem wakeup_keeps_futex : (wakeup : Program N).Keeps [.futex] := by
  apply wakeup_keeps
  intro c x hx
  rw [List.mem_singleton] at hx
  subst hx
  exact Lock.futex_lt_sched c

theorem wakeupOneFrom_keeps (cores : List N.Core) : (wakeupOneFrom cores).Keeps [] := by
  induction cores with
  | nil => exact .skip
  | cons i rest ih =>
    have hlock : (guarded (.sched i) .skip : Program N).Keeps [] := .guarded nofun .skip
    exact hlock.andThen ih.optionally

theorem keeps_two (h : c < c') :
    (guarded (.sched c) (guarded (.sched c') .skip) : Program N).Keeps [] := by
  refine .guarded nofun (.guarded ?_ .skip)
  intro x hx
  rw [List.mem_singleton] at hx
  subst hx
  exact Lock.sched_lt_sched h

theorem balance_keeps : (balance : Program N).Keeps [] := by
  refine .coreId fun currentCore => .anyCore fun maxCore => ?_
  by_cases heq : maxCore = currentCore
  · rw [if_pos heq]
    exact .skip
  rw [if_neg heq]
  apply Keeps.optionally
  by_cases hlt : currentCore < maxCore
  · simp only [if_pos hlt]
    exact keeps_two hlt
  · simp only [if_neg hlt]
    exact keeps_two (lt_of_le_of_ne (not_lt.mp hlt) heq)

theorem tickUpdate_keeps : (tickUpdate : Program N).Keeps [] :=
  (keeps_currentSched fun _ => .skip).andThen
    (balance_keeps.optionally.andThen schedule_keeps.optionally)

theorem addTask_keeps : (addTask : Program N).Keeps [] := by
  have henqueue : (LockProgram.anyCore fun c => guarded (.sched c) (optionally .spawn) :
      Program N).Keeps [] := .anyCore fun c => .guarded nofun Keeps.spawn.optionally
  exact (keeps_table .skip).andThen henqueue.optionally

theorem exit_keeps : (exit : Program N).Keeps [] := by
  have hreparent (c : N.Core) : (optionally reparentChildren : Program N).Keeps [.sched c] :=
    (keeps_table_of_sched .skip).optionally.optionally
  exact (keeps_currentSched hreparent).andThen (wakeup_keeps_nil.optionally.andThen schedule_keeps)

theorem waitScan_keeps : (waitScan : Program N).Keeps [] :=
  keeps_currentSched fun _ => keeps_table_of_sched (Keeps.optionally .skip)

theorem wait_keeps : (wait : Program N).Keeps [] :=
  (waitScan_keeps.andThen schedule_keeps).loop.andThen
    (waitScan_keeps.andThen (keeps_table .skip).optionally)

theorem sleep_keeps : (sleep : Program N).Keeps [] := by
  have hrest : (schedule >> checkPendingSignals : Program N).Keeps [] :=
    schedule_keeps.andThen exit_keeps.optionally
  exact schedule_keeps.choice ((keeps_currentSched fun _ => .skip).andThen hrest.optionally)

theorem mutexLock_keeps : (mutexLock : Program N).Keeps [] := by
  have hattempt : (mutexAttempt : Program N).Keeps [] :=
    keeps_currentSched fun _ => Keeps.optionally .skip
  have hrounds := (hattempt.andThen schedule_keeps).loop
  exact (hrounds.andThen (hattempt.andThen schedule_keeps.optionally)).optionally

theorem sysFutex_keeps : (sysFutex : Program N).Keeps [] := by
  have hwait : (guarded .futex .skip : Program N).Keeps [] := .guarded nofun .skip
  have hwake : (guarded .futex wakeup : Program N).Keeps [] := .guarded nofun wakeup_keeps_futex
  exact (hwait.andThen block_keeps.optionally).choice hwake.optionally

theorem program_keeps (op : Operation) : (op.program : Program N).Keeps [] := by
  cases op with
  | initCurrentCore => exact keeps_currentSched fun _ => .spawn
  | addTask => exact addTask_keeps
  | findTask => exact keeps_table .skip
  | reapTask => exact (keeps_table .skip).optionally
  | getThreadGroup => exact keeps_table .skip
  | schedule => exact schedule_keeps
  | tickUpdate => exact tickUpdate_keeps
  | balance => exact balance_keeps
  | block => exact block_keeps
  | wakeup => exact wakeup_keeps_nil
  | wakeupOne => exact wakeupOneFrom_keeps _
  | wait => exact wait_keeps
  | exit => exact exit_keeps
  | sleep => exact sleep_keeps
  | sendSignal => exact ((keeps_table .skip).andThen wakeup_keeps_nil.optionally).optionally
  | checkPendingSignals => exact exit_keeps.optionally
  | mutexLock => exact mutexLock_keeps
  | mutexUnLock => exact (wakeupOneFrom_keeps _).optionally
  | sysFutex => exact sysFutex_keeps

/-! ## No deadlock -/

/-- The cores never wait for each other in a cycle, and no core asks for a lock that it holds. -/
theorem locks_acyclic {s : LockMachine N.Core (Lock N)} (h : (lockingSystem N).Reachable s)
    (c : N.Core) :
    ¬ Relation.TransGen s.Waits c c ∧ ∀ l, s.request c = some l → l ∉ s.held c := by
  have hs : s.Disciplined := LockMachine.disciplined_of_reachable program_keeps h
  exact ⟨hs.acyclic c, fun l hl hheld => lt_irrefl l (hs.lt_request hheld hl)⟩

/-- Core 1 looks for a task while core 0 looks at the children of another one. -/
theorem locks_acyclic_contended :
    ∃ (N : CoreCount) (s : LockMachine N.Core (Lock N)) (c c' : N.Core), s.Waits c c' ∧
      ¬ Relation.TransGen s.Waits c c ∧ ∀ l, s.request c = some l → l ∉ s.held c := by
  let N : CoreCount := ⟨2, two_le_sizeMax⟩
  let scan : List (LockAction N.Core Operation) :=
    .call 0 .wait :: List.replicate 9 (.run 0 false 0 0)
  let find : List (LockAction N.Core Operation) :=
    [.call 1 .findTask, .run 1 false 0 0]
  obtain ⟨s, hr, hs⟩ := (lockingSystem N).exists_of_run (fun _ _ => True)
    (scan ++ find) (fun s => s.request 1 = some .table ∧ .table ∈ s.held 0) (s := {}) rfl
    (by decide +kernel)
  exact ⟨N, s, 1, 0, ⟨.table, hs⟩, locks_acyclic hr 1⟩

end SimpleKernel.Locking
