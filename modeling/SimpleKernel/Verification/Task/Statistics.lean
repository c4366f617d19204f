import SimpleKernel.Verification.Task.Fairness

/-! The counters of the schedulers against the length of their queues, over all sequences of
calls. A null pointer is `none`; the FIFO scheduler queues it like any other pointer. -/

namespace SimpleKernel

open List

inductive QueueCall where
  | enqueue (t : Option TaskPtr)
  | dequeue (t : Option TaskPtr)
  | pickNext
  deriving DecidableEq, Repr

def FifoScheduler.call (null : TaskPtr) (s : FifoScheduler) : QueueCall → FifoScheduler
  | .enqueue t => s.enqueue (t.getD null)
  | .dequeue t => s.dequeue (t.getD null)
  | .pickNext => s.pickNext.2

/-- `tcb` are the control blocks, whose time slices `Enqueue` sets. -/
def RoundRobinScheduler.call :
    RoundRobinScheduler × (TaskPtr → TaskControlBlock) → QueueCall →
      RoundRobinScheduler × (TaskPtr → TaskControlBlock)
  | (s, tcb), .enqueue (some t) => ((s.enqueue t (tcb t)).1,
      Function.update tcb t (s.enqueue t (tcb t)).2)
  | (s, tcb), .dequeue (some t) => (s.dequeue t, tcb)
  | (s, tcb), .pickNext => (s.pickNext.2, tcb)
  | p, _ => p

def CfsScheduler.call :
    CfsScheduler × (TaskPtr → CfsData) → QueueCall → CfsScheduler × (TaskPtr → CfsData)
  | (s, data), .enqueue (some t) => s.enqueue data t
  | (s, data), .dequeue (some t) => (s.dequeue data t, data)
  | (s, data), .pickNext => ((s.pickNext data).2, data)
  | p, _ => p

def callSystem {σ : Type} (init : σ → Prop) (call : σ → QueueCall → σ) : Transition σ QueueCall where
  init := init
  step s c := some (call s c)

def fifoSystem (null : TaskPtr) : Transition FifoScheduler QueueCall :=
  callSystem (· = {}) (FifoScheduler.call null)

/-- `total_enqueues - total_dequeues - total_picks` is the length of the queue. -/
def Stats.Conserved (stats : Stats) (queue : List TaskPtr) : Prop :=
  stats.totalEnqueues = stats.totalDequeues + stats.totalPicks + queue.length

/-- What is dequeued is in the queue once. -/
def FifoScheduler.queuedOnce (null : TaskPtr) (s : FifoScheduler) : QueueCall → Bool
  | .dequeue t => s.readyQueue.count (t.getD null) = 1
  | _ => true

theorem FifoScheduler.call_conserved {null : TaskPtr} {s : FifoScheduler} {c : QueueCall}
    (h : s.stats.Conserved s.readyQueue) (hc : s.queuedOnce null c) :
    (s.call null c).stats.Conserved (s.call null c).readyQueue := by
  unfold Stats.Conserved at *
  cases c with
  | enqueue t =>
    simp only [call, enqueue]
    split
    · exact h
    · simp only [length_append, length_singleton]
      omega
  | dequeue t =>
    have hcount : s.readyQueue.count (t.getD null) = 1 := of_decide_eq_true hc
    have hlen : s.readyQueue.length = s.readyQueue.count (t.getD null) +
        (s.readyQueue.filter (· ≠ t.getD null)).length := by
      rw [← countP_eq_length_filter, length_eq_countP_add_countP (· == t.getD null)]
      simp [List.count]
    simp only [call, dequeue]
    omega
  | pickNext =>
    simp only [call, pickNext]
    split
    · exact h
    rename_i hqueue
    simp only [hqueue, length_cons] at h
    simp only
    omega

theorem RoundRobinScheduler.call_conserved {p : RoundRobinScheduler × (TaskPtr → TaskControlBlock)}
    (h : p.1.stats.Conserved p.1.readyQueue) (c : QueueCall) :
    (call p c).1.stats.Conserved (call p c).1.readyQueue := by
  unfold Stats.Conserved at *
  unfold call
  split
  · simp only [enqueue]
    split
    · exact h
    · simp only [length_append, length_singleton] at h ⊢
      omega
  · simp only [dequeue]
    split_ifs with hmem
    · have hlen := length_erase_add_one hmem
      simp only at h ⊢
      omega
    · exact h
  · simp only [pickNext]
    split
    · exact h
    rename_i hqueue
    simp only [hqueue, length_cons] at h
    simp only
    omega
  · exact h

theorem CfsScheduler.find_lt {data : TaskPtr → CfsData} {t : TaskPtr} {queue : List TaskPtr} {i : ℕ}
    (h : find data t queue = some i) : i < queue.length := by
  obtain ⟨hi, -⟩ := Option.filter_eq_some_iff.mp h
  obtain ⟨hlt, -⟩ := findIdx?_eq_some_iff_getElem.mp hi
  exact hlt

theorem CfsScheduler.call_conserved {p : CfsScheduler × (TaskPtr → CfsData)}
    (h : p.1.stats.Conserved p.1.readyQueue) (c : QueueCall) :
    (call p c).1.stats.Conserved (call p c).1.readyQueue := by
  unfold Stats.Conserved at *
  unfold call
  split
  · simp only [enqueue]
    split
    · exact h
    · simp only [(insert_perm _ _ _).length_eq, length_cons] at h ⊢
      omega
  · simp only [dequeue]
    split
    · exact h
    rename_i hfind
    have hlen := length_eraseIdx_add_one (find_lt hfind)
    simp only at h ⊢
    omega
  · simp only [pickNext]
    split
    · exact h
    rename_i hqueue
    simp only [hqueue, length_cons] at h
    simp only
    omega
  · exact h

/-- The counters fit the queue after every sequence of calls, for the FIFO scheduler if a task is
dequeued only while it is in the queue once. -/
theorem stats_conserved (null : TaskPtr) :
    (∀ s : FifoScheduler, (fifoSystem null).ReachableBy
      (fun s c => s.queuedOnce null c) s → s.stats.Conserved s.readyQueue) ∧
    (∀ s tcb, (callSystem (·.1 = {}) RoundRobinScheduler.call).Reachable (s, tcb) →
      s.stats.Conserved s.readyQueue) ∧
    ∀ s data, (callSystem (·.1 = {}) CfsScheduler.call).Reachable (s, data) →
      s.stats.Conserved s.readyQueue := by
  refine ⟨fun s hs => ?_, fun s tcb hs => ?_, fun s data hs => ?_⟩
  · refine hs.invariant (P := fun s => s.stats.Conserved s.readyQueue) ?_ ?_
    · rintro s rfl
      rfl
    · intro s c s' h hc hs
      cases hs
      exact FifoScheduler.call_conserved h hc
  · refine hs.invariant (P := fun p => p.1.stats.Conserved p.1.readyQueue) ?_ ?_
    · rintro ⟨s, tcb⟩ rfl
      rfl
    · intro p c p' h hs
      cases hs
      exact RoundRobinScheduler.call_conserved h c
  · refine hs.invariant (P := fun p => p.1.stats.Conserved p.1.readyQueue) ?_ ?_
    · rintro ⟨s, data⟩ rfl
      rfl
    · intro p c p' h hs
      cases hs
      exact CfsScheduler.call_conserved h c

/-- A null pointer and two tasks are queued, and one is dequeued and one picked. -/
theorem stats_conserved_three : ∃ s : FifoScheduler,
    (fifoSystem 0).ReachableBy (fun s c => s.queuedOnce 0 c) s ∧
      s.readyQueue = [2] ∧ s.stats.Conserved s.readyQueue := by
  obtain ⟨s, hs, hqueue⟩ := (fifoSystem 0).exists_of_run (fun s c => s.queuedOnce 0 c)
    [.enqueue none, .enqueue (some 1), .enqueue (some 2), .dequeue (some 1), .pickNext]
    (fun s => s.readyQueue = [2]) (s := {}) rfl (by decide)
  exact ⟨s, hs, hqueue, (stats_conserved 0).1 s hs⟩

/-- `Dequeue` of a task that is not in the queue is counted. -/
theorem fifo_counts_nothing : ¬ ∀ s : FifoScheduler,
    (fifoSystem 0).Reachable s → s.stats.Conserved s.readyQueue := by
  intro hall
  have hinit : (fifoSystem 0).Reachable {} := .init rfl
  have hs := hall _ (hinit.step (a := .dequeue (some 1)) rfl)
  exact absurd hs (by simp [Stats.Conserved, FifoScheduler.call, FifoScheduler.dequeue])

end SimpleKernel
