import Mathlib.Data.Finset.Lattice.Fold
import Mathlib.Data.List.Pairwise
import Mathlib.Order.Lattice.Nat
import SimpleKernel.Model.Task.CfsScheduler

/-! The virtual runtimes of the tasks of a completely fair scheduler stay close to each other. -/

namespace SimpleKernel

open List Function

variable {data data' : TaskPtr → CfsData} {t u : TaskPtr} {queue : List TaskPtr} {r r' : CfsRun}

/-! ## The queue -/

def ByVruntime (data : TaskPtr → CfsData) (queue : List TaskPtr) : Prop :=
  queue.Pairwise fun t u => (data t).vruntime ≤ (data u).vruntime

theorem ByVruntime.congr (h : ByVruntime data queue)
    (hdata : ∀ t ∈ queue, (data' t).vruntime = (data t).vruntime) : ByVruntime data' queue := by
  apply List.Pairwise.imp_of_mem ?_ h
  intro t u ht hu hle
  rw [hdata t ht, hdata u hu]
  exact hle

namespace CfsScheduler

theorem insert_perm (data : TaskPtr → CfsData) (t : TaskPtr) (queue : List TaskPtr) :
    (insert data t queue).Perm (t :: queue) := by
  induction queue with
  | nil => exact .refl _
  | cons u queue ih =>
    rw [insert]
    split
    · exact .refl _
    · exact (ih.cons u).trans (.swap t u queue)

theorem le_of_vruntimeCompare (h : vruntimeCompare data t u = true) :
    (data t).vruntime ≤ (data u).vruntime := by
  unfold vruntimeCompare at h
  split_ifs at h with heq
  · exact (of_decide_eq_true h).le
  · exact (not_not.mp heq).le

theorem le_of_not_vruntimeCompare (h : ¬ vruntimeCompare data t u = true) :
    (data u).vruntime ≤ (data t).vruntime := by
  unfold vruntimeCompare at h
  split_ifs at h with heq
  · rw [decide_eq_true_eq] at h
    exact Nat.le_of_not_lt h
  · exact (not_not.mp heq).ge

theorem insert_byVruntime (t : TaskPtr) (h : ByVruntime data queue) :
    ByVruntime data (insert data t queue) := by
  induction queue with
  | nil => exact pairwise_singleton _ t
  | cons u queue ih =>
    obtain ⟨hu, hqueue⟩ := pairwise_cons.mp h
    rw [insert]
    split
    · rename_i hlt
      have hle := le_of_vruntimeCompare hlt
      apply pairwise_cons.mpr ⟨?_, h⟩
      intro v hv
      obtain rfl | hv := mem_cons.mp hv
      · exact hle
      · exact hle.trans (hu v hv)
    rename_i hge
    apply pairwise_cons.mpr ⟨?_, ih hqueue⟩
    intro v hv
    obtain rfl | hv := mem_cons.mp ((insert_perm data t queue).mem_iff.mp hv)
    · exact le_of_not_vruntimeCompare hge
    · exact hu v hv

def entered (s : CfsScheduler) (cfs : CfsData) : CfsData :=
  { cfs with vruntime := if cfs.vruntime = 0 then s.minVruntime else cfs.vruntime }

theorem entered_eq (s : CfsScheduler) (cfs : CfsData) :
    (if cfs.vruntime = 0 then { cfs with vruntime := s.minVruntime } else cfs) = s.entered cfs := by
  unfold entered
  split <;> rfl

theorem enqueue_eq (s : CfsScheduler) (hweight : 0 < (data t).weight)
    (hroom : s.readyQueue.length < maxReadyTasks) :
    s.enqueue data t =
      ({ s with
          readyQueue := insert (update data t (s.entered (data t))) t s.readyQueue
          stats := { s.stats with totalEnqueues := s.stats.totalEnqueues + 1 } },
        update data t (s.entered (data t))) := by
  have hpos : ¬ (s.entered (data t)).weight = 0 := Nat.ne_of_gt hweight
  simp [enqueue, entered_eq, if_neg hpos, if_neg (Nat.not_le.mpr hroom)]

theorem enqueue_full (s : CfsScheduler) (hweight : 0 < (data t).weight)
    (hfull : maxReadyTasks ≤ s.readyQueue.length) :
    s.enqueue data t = (s, update data t (s.entered (data t))) := by
  have hpos : ¬ (s.entered (data t)).weight = 0 := Nat.ne_of_gt hweight
  simp [enqueue, entered_eq, if_neg hpos, if_pos hfull]

/-- The queue stays in order, and the data of the other tasks are kept. The task is dropped if the
queue is full. -/
structure Entered (s : CfsScheduler) (data : TaskPtr → CfsData) (t : TaskPtr) (s' : CfsScheduler)
    (data' : TaskPtr → CfsData) : Prop where
  self : data' t = s.entered (data t)
  other : ∀ u, u ≠ t → data' u = data u
  minVruntime : s'.minVruntime = s.minVruntime
  queue : s'.readyQueue = insert data' t s.readyQueue ∨
    maxReadyTasks ≤ s.readyQueue.length ∧ s'.readyQueue = s.readyQueue

theorem enqueue_entered (s : CfsScheduler) (hweight : 0 < (data t).weight) :
    s.Entered data t (s.enqueue data t).1 (s.enqueue data t).2 := by
  by_cases hroom : s.readyQueue.length < maxReadyTasks
  · rw [s.enqueue_eq hweight hroom]
    exact ⟨update_self .., fun u hu => update_of_ne hu .., rfl, .inl rfl⟩
  have hfull := Nat.le_of_not_lt hroom
  rw [s.enqueue_full hweight hfull]
  exact ⟨update_self .., fun u hu => update_of_ne hu .., rfl, .inr ⟨hfull, rfl⟩⟩

namespace Entered

variable {s s' : CfsScheduler}

theorem weight (h : s.Entered data t s' data') (u : TaskPtr) :
    (data' u).weight = (data u).weight := by
  by_cases hu : u = t
  · rw [hu, h.self]
    rfl
  · rw [h.other u hu]

theorem order (h : s.Entered data t s' data') (hnot : t ∉ s.readyQueue)
    (horder : ByVruntime data s.readyQueue) : ByVruntime data' s'.readyQueue := by
  have hkept : ByVruntime data' s.readyQueue := by
    apply horder.congr
    intro u hu
    rw [h.other u fun heq => hnot (heq ▸ hu)]
  rcases h.queue with hqueue | ⟨-, hqueue⟩
  · rw [hqueue]
    exact insert_byVruntime t hkept
  · rw [hqueue]
    exact hkept

end Entered

/-- A tick within the range changes the virtual runtime of the current task only. -/
structure Ticked (s : CfsScheduler) (data : TaskPtr → CfsData) (t : TaskPtr) (s' : CfsScheduler)
    (data' : TaskPtr → CfsData) : Prop where
  readyQueue : s'.readyQueue = s.readyQueue
  minVruntime : s'.minVruntime = s.minVruntime
  self : data' t = { data t with vruntime := (data t).vruntime + delta (data t) }
  other : ∀ u, u ≠ t → data' u = data u

theorem onTick_ticked (s : CfsScheduler) (hlt : (data t).vruntime + delta (data t) < 2 ^ 64) :
    s.Ticked data t (s.onTick data t).2.1 (s.onTick data t).2.2 := by
  unfold onTick
  dsimp only
  rw [Nat.mod_eq_of_lt hlt]
  split
  · exact ⟨rfl, rfl, update_self .., fun u hu => update_of_ne hu ..⟩
  · split <;> exact ⟨rfl, rfl, update_self .., fun u hu => update_of_ne hu ..⟩

theorem Ticked.weight {s s' : CfsScheduler} (h : s.Ticked data t s' data') (u : TaskPtr) :
    (data' u).weight = (data u).weight := by
  by_cases hu : u = t
  · rw [hu, h.self]
  · rw [h.other u hu]

end CfsScheduler

/-! ## Closeness -/

/-- The virtual runtimes of the tasks differ by at most `bound` from each other and from `least`. -/
structure Near (data : TaskPtr → CfsData) (least bound : ℕ) (tasks : List TaskPtr) : Prop where
  spread : ∀ t ∈ tasks, ∀ u ∈ tasks, (data t).vruntime ≤ (data u).vruntime + bound
  above : ∀ t ∈ tasks, (data t).vruntime ≤ least + bound
  below : ∀ t ∈ tasks, least ≤ (data t).vruntime + bound

namespace Near

variable {least bound : ℕ} {tasks tasks' : List TaskPtr}

section

variable (h : Near data least bound tasks)
include h

theorem subset (hsub : ∀ t ∈ tasks', t ∈ tasks) :
    Near data least bound tasks' where
  spread t ht u hu := h.spread t (hsub t ht) u (hsub u hu)
  above t ht := h.above t (hsub t ht)
  below t ht := h.below t (hsub t ht)

theorem congr
    (hdata : ∀ t ∈ tasks, (data' t).vruntime = (data t).vruntime) :
    Near data' least bound tasks where
  spread t ht u hu := by
    rw [hdata t ht, hdata u hu]
    exact h.spread t ht u hu
  above t ht := by
    rw [hdata t ht]
    exact h.above t ht
  below t ht := by
    rw [hdata t ht]
    exact h.below t ht

theorem cons (ht : (data t).vruntime = least) :
    Near data least bound (t :: tasks) where
  spread u hu w hw := by
    rcases mem_cons.mp hu with heq | hu
    · rcases mem_cons.mp hw with heq' | hw
      · rw [heq, heq']
        omega
      have hbelow := h.below w hw
      rw [heq]
      omega
    rcases mem_cons.mp hw with heq' | hw
    · have habove := h.above u hu
      rw [heq']
      omega
    · exact h.spread u hu w hw
  above u hu := by
    rcases mem_cons.mp hu with rfl | hu
    · omega
    · exact h.above u hu
  below u hu := by
    rcases mem_cons.mp hu with rfl | hu
    · omega
    · exact h.below u hu

end

theorem singleton (hbelow : least ≤ (data t).vruntime) (habove : (data t).vruntime ≤ least + bound) :
    Near data least bound [t] where
  spread u hu w hw := by
    rw [mem_singleton.mp hu, mem_singleton.mp hw]
    omega
  above u hu := by
    rw [mem_singleton.mp hu]
    exact habove
  below u hu := by
    rw [mem_singleton.mp hu]
    omega

end Near

namespace CfsScheduler

namespace Entered

variable {s s' : CfsScheduler}

theorem given (h : s.Entered data t s' data') (hnew : (data t).vruntime = 0) :
    (data' t).vruntime = s.minVruntime := by
  rw [h.self, entered]
  exact if_pos hnew

theorem head (h : s.Entered data t s' data') (hnot : t ∉ s.readyQueue)
    (hnew : (data t).vruntime = 0)
    (hhead : ∀ u ∈ s.readyQueue.head?, (data u).vruntime = s.minVruntime) :
    ∀ u ∈ s'.readyQueue.head?, (data' u).vruntime = s'.minVruntime := by
  have hgiven := h.given hnew
  have hkept : ∀ u ∈ s.readyQueue.head?, (data' u).vruntime = s.minVruntime := by
    intro u hu
    rw [h.other u fun heq => hnot (heq ▸ mem_of_mem_head? hu)]
    exact hhead u hu
  rw [h.minVruntime]
  rcases h.queue with hqueue | ⟨-, hqueue⟩
  · rw [hqueue]
    cases hold : s.readyQueue with
    | nil =>
      intro u hu
      cases hu
      exact hgiven
    | cons w queue =>
      rw [hold] at hkept
      intro u hu
      rw [insert] at hu
      split at hu
      · cases hu
        exact hgiven
      · cases hu
        exact hkept _ rfl
  · rw [hqueue]
    exact hkept

end Entered

end CfsScheduler

namespace CfsRun

def maxDelta (r : CfsRun) : ℕ := r.tasks.toFinset.sup fun t => 1024000 / (r.data t).weight

theorem delta_le (r : CfsRun) (ht : t ∈ r.tasks) : CfsScheduler.delta (r.data t) ≤ r.maxDelta :=
  Finset.le_sup (f := fun t => 1024000 / (r.data t).weight) (mem_toFinset.mpr ht)

theorem maxDelta_congr (htasks : r'.tasks = r.tasks)
    (hweight : ∀ t, (r'.data t).weight = (r.data t).weight) : r'.maxDelta = r.maxDelta := by
  unfold maxDelta
  rw [htasks]
  simp [hweight]

theorem onTick_lead {s : CfsScheduler} (horder : ByVruntime data s.readyQueue)
    (hnot : t ∉ s.readyQueue) (hticked : (s.onTick data t).1 = false) :
    ∀ u ∈ s.readyQueue,
      ((s.onTick data t).2.2 t).vruntime ≤ (data u).vruntime + CfsScheduler.minGranularity := by
  intro u hu
  cases hqueue : s.readyQueue with
  | nil =>
    rw [hqueue] at hu
    cases hu
  | cons w queue =>
    rw [hqueue] at hu horder hnot
    have hw : w ≠ t := fun heq => hnot (heq ▸ mem_cons_self)
    simp only [CfsScheduler.onTick, hqueue, update_of_ne hw, CfsScheduler.minGranularity]
      at hticked ⊢
    split at hticked
    · cases hticked
    rename_i hle
    rw [if_neg hle]
    dsimp only
    rw [update_self]
    have hfirst := (Nat.le_of_not_lt hle).trans (Nat.mod_le _ _)
    obtain rfl | hu := mem_cons.mp hu
    · exact hfirst
    · exact hfirst.trans (Nat.add_le_add_right ((pairwise_cons.mp horder).1 u hu) _)

def InRange (r : CfsRun) : CfsAction → Prop
  | .onTick => ∀ t ∈ r.current, (r.data t).vruntime + CfsScheduler.delta (r.data t) < 2 ^ 64
  | _ => True

instance (r : CfsRun) (a : CfsAction) : Decidable (r.InRange a) := by
  cases a <;> unfold InRange <;> infer_instance

/-! ## The invariant -/

def bound (r : CfsRun) : ℕ := CfsScheduler.minGranularity + r.maxDelta

/-- What holds of the tasks that are queued or running. Two or more of them are close to each other; a
task alone may be anywhere above the least virtual runtime. -/
structure Close (r : CfsRun) : Prop where
  nodup : (r.fresh ++ r.runnable).Nodup
  subset : ∀ t ∈ r.fresh ++ r.runnable, t ∈ r.tasks
  weight : ∀ t ∈ r.tasks, 0 < (r.data t).weight
  fresh : ∀ t ∈ r.fresh, (r.data t).vruntime = 0
  order : ByVruntime r.data r.scheduler.readyQueue
  least : ∀ t, r.current = some t →
    ∀ u ∈ r.scheduler.readyQueue.head?, (r.data u).vruntime = r.scheduler.minVruntime
  alone : ∀ t, r.runnable = [t] → r.scheduler.minVruntime ≤ (r.data t).vruntime
  lead : 2 ≤ r.runnable.length → ∀ t, r.current = some t → r.preempted = false →
    (r.data t).vruntime ≤ r.scheduler.minVruntime + CfsScheduler.minGranularity
  near : 2 ≤ r.runnable.length → Near r.data r.scheduler.minVruntime r.bound r.runnable

/-- A task that is alone has not run ahead when another one arrives, and no tick overflows the virtual
runtime. -/
def Admits (r : CfsRun) : CfsArrival → Prop
  | .arrive _ => ∀ t ∈ r.runnable, r.runnable.length = 1 →
      (r.data t).vruntime ≤ r.scheduler.minVruntime + CfsScheduler.minGranularity
  | .onTick => r.InRange .onTick
  | _ => True

instance (r : CfsRun) (a : CfsArrival) : Decidable (r.Admits a) := by
  cases a <;> unfold Admits <;> infer_instance

namespace Close

section

variable (h : r.Close)
include h

theorem near_of_admits (hok : r.Admits (.arrive t)) :
    Near r.data r.scheduler.minVruntime r.bound r.runnable := by
  cases hrun : r.runnable with
  | nil => exact ⟨by simp, by simp, by simp⟩
  | cons u rest =>
    cases rest with
    | nil =>
      have hahead := hok u (by rw [hrun]; exact mem_singleton_self u) (by rw [hrun]; rfl)
      apply Near.singleton (h.alone u hrun)
      unfold bound
      omega
    | cons w rest =>
      rw [← hrun]
      apply h.near
      rw [hrun]
      exact Nat.le_add_left 2 _

theorem lead_of_admits (hok : r.Admits (.arrive t)) (hu : r.current = some u)
    (hpreempted : r.preempted = false) :
    (r.data u).vruntime ≤ r.scheduler.minVruntime + CfsScheduler.minGranularity := by
  by_cases hlen : 2 ≤ r.runnable.length
  · exact h.lead hlen u hu hpreempted
  have hmem : u ∈ r.runnable := by
    rw [runnable, hu]
    exact mem_cons_self
  have hpos := length_pos_of_mem hmem
  exact hok u hmem (by omega)

theorem notMem_runnable_of_fresh (ht : t ∈ r.fresh) : t ∉ r.runnable :=
  fun hmem => (nodup_append.mp h.nodup).2.2 t ht t hmem rfl

theorem running (hcurrent : r.current = some t) :
    r.runnable = t :: r.scheduler.readyQueue ∧ t ∉ r.scheduler.readyQueue ∧
      t ∈ r.fresh ++ r.runnable := by
  have hrunnable : r.runnable = t :: r.scheduler.readyQueue := by
    rw [runnable, hcurrent]
    rfl
  have hnodup := (nodup_append.mp h.nodup).2.1
  rw [hrunnable] at hnodup ⊢
  exact ⟨rfl, (nodup_cons.mp hnodup).1, mem_append_right _ mem_cons_self⟩

theorem nodup_of_subperm {l : List TaskPtr} (hsub : l.Subperm (r.fresh ++ r.runnable)) :
    l.Nodup := by
  obtain ⟨l', hperm, hsublist⟩ := hsub
  exact hperm.nodup_iff.mp (h.nodup.sublist hsublist)

theorem arrive_entered (hs : r.arrivalStep (.arrive t) = some r') :
    ∃ s' data', t ∈ r.fresh ∧ r.scheduler.Entered r.data t s' data' ∧
      r' = { r with scheduler := s', data := data', fresh := r.fresh.erase t } := by
  unfold arrivalStep at hs
  obtain ⟨ht, ⟨⟩⟩ := Option.ite_none_right_eq_some.mp hs
  exact ⟨_, _, ht, r.scheduler.enqueue_entered
    (h.weight t (h.subset t (mem_append_left _ ht))), rfl⟩

theorem enqueue_entered (hs : r.arrivalStep .enqueue = some r') :
    ∃ t s' data', r.current = some t ∧ r.scheduler.Entered r.data t s' data' ∧
      r' = { r with scheduler := s', data := data', current := none } := by
  unfold arrivalStep step at hs
  dsimp only at hs
  split at hs
  · cases hs
  rename_i t hcurrent
  cases hs
  exact ⟨t, _, _, hcurrent, r.scheduler.enqueue_entered
    (h.weight t (h.subset t (h.running hcurrent).2.2)), rfl⟩

theorem of_entered {s' : CfsScheduler} {fresh : List TaskPtr} {current : Option TaskPtr}
    (hentered : r.scheduler.Entered r.data t s' data') (hnot : t ∉ r.scheduler.readyQueue)
    (hsub : (fresh ++ (current.toList ++ s'.readyQueue)).Subperm (r.fresh ++ r.runnable))
    (hfresh : ∀ u ∈ fresh, u ∈ r.fresh ∧ u ≠ t)
    (hleast : ∀ t, current = some t →
      ∀ u ∈ s'.readyQueue.head?, (data' u).vruntime = s'.minVruntime)
    (halone : ∀ u, current.toList ++ s'.readyQueue = [u] → r.scheduler.minVruntime ≤ (data' u).vruntime)
    (hlead : ∀ u, current = some u → r.preempted = false →
      (data' u).vruntime ≤ r.scheduler.minVruntime + CfsScheduler.minGranularity)
    (hnear : 2 ≤ (current.toList ++ s'.readyQueue).length →
      Near data' r.scheduler.minVruntime r.bound (current.toList ++ s'.readyQueue)) :
    CfsRun.Close { r with scheduler := s', data := data', fresh, current } := by
  have hbound : CfsRun.bound { r with scheduler := s', data := data', fresh, current } = r.bound :=
    congrArg (CfsScheduler.minGranularity + ·) (maxDelta_congr rfl hentered.weight)
  constructor
  case nodup => exact h.nodup_of_subperm hsub
  case subset => exact fun u hu => h.subset u (hsub.subset hu)
  case weight =>
    intro u hu
    rw [hentered.weight]
    exact h.weight u hu
  case fresh =>
    intro u hu
    dsimp only
    rw [hentered.other u (hfresh u hu).2]
    exact h.fresh u (hfresh u hu).1
  case order => exact hentered.order hnot h.order
  case least => exact hleast
  case alone =>
    intro u hu
    rw [hentered.minVruntime]
    exact halone u hu
  case lead =>
    intro _ u hu hpreempted
    rw [hentered.minVruntime]
    exact hlead u hu hpreempted
  case near =>
    intro hlen
    rw [hbound, hentered.minVruntime]
    exact hnear hlen

theorem step_arrive (hok : r.Admits (.arrive t))
    (hs : r.arrivalStep (.arrive t) = some r') : r'.Close := by
  obtain ⟨s', data', ht, hentered, rfl⟩ := h.arrive_entered hs
  have hnot := h.notMem_runnable_of_fresh ht
  have hqueue : t ∉ r.scheduler.readyQueue := fun hmem => hnot (mem_append_right _ hmem)
  have hnew := h.fresh t ht
  have hgiven := hentered.given hnew
  have hother : ∀ u ∈ r.runnable, data' u = r.data u :=
    fun u hu => hentered.other u fun heq => hnot (heq ▸ hu)
  have hnear : Near data' r.scheduler.minVruntime r.bound (t :: r.runnable) := by
    apply Near.cons _ hgiven
    apply (h.near_of_admits hok).congr
    intro u hu
    rw [hother u hu]
  have hqueued : (r.current.toList ++ s'.readyQueue).Perm (t :: r.runnable) ∨
      r.current.toList ++ s'.readyQueue = r.runnable := by
    rcases hentered.queue with heq | ⟨-, heq⟩
    · left
      rw [heq]
      exact ((CfsScheduler.insert_perm data' t _).append_left _).trans perm_middle
    right
    rw [heq]
    rfl
  apply h.of_entered hentered hqueue
  case hsub =>
    rcases hqueued with hperm | heq
    · apply List.Perm.subperm
      refine (hperm.append_left _).trans (perm_middle.trans ?_)
      exact (perm_cons_erase ht).symm.append_right r.runnable
    · rw [heq]
      exact (erase_sublist.append_right r.runnable).subperm
  case hfresh =>
    intro u hu
    exact ((nodup_append.mp h.nodup).1.mem_erase_iff.mp hu).symm
  case hleast => exact fun u hu => hentered.head hqueue hnew (h.least u hu)
  case halone =>
    intro u hu
    rcases hqueued with hperm | heq
    · have htu : t ∈ [u] := hu ▸ hperm.symm.subset mem_cons_self
      rw [← mem_singleton.mp htu, hgiven]
    have hold : r.runnable = [u] := heq.symm.trans hu
    rw [hother u (by rw [hold]; exact mem_singleton_self u)]
    exact h.alone u hold
  case hlead =>
    intro u hu hpreempted
    rw [hother u (by rw [runnable, hu]; exact mem_cons_self)]
    exact h.lead_of_admits hok hu hpreempted
  case hnear =>
    intro _
    apply hnear.subset
    intro u hu
    rcases hqueued with hperm | heq
    · exact hperm.subset hu
    · exact mem_cons_of_mem t (heq ▸ hu)

theorem step_enqueue (hs : r.arrivalStep .enqueue = some r') : r'.Close := by
  obtain ⟨t, s', data', hcurrent, hentered, rfl⟩ := h.enqueue_entered hs
  obtain ⟨hrunnable, hnot, -⟩ := h.running hcurrent
  have hother : ∀ u ∈ r.scheduler.readyQueue, data' u = r.data u :=
    fun u hu => hentered.other u fun heq => hnot (heq ▸ hu)
  have hqueued : s'.readyQueue.Perm r.runnable ∨
      maxReadyTasks ≤ r.scheduler.readyQueue.length ∧ s'.readyQueue = r.scheduler.readyQueue := by
    rw [hrunnable]
    rcases hentered.queue with heq | heq
    · exact .inl (heq ▸ CfsScheduler.insert_perm data' t _)
    · exact .inr heq
  have hmem : s'.readyQueue.Subperm r.runnable := by
    rcases hqueued with hperm | ⟨-, heq⟩
    · exact hperm.subperm
    · rw [heq, hrunnable]
      exact (sublist_cons_self t _).subperm
  apply h.of_entered hentered hnot
  case hsub => exact (subperm_append_left r.fresh).mpr hmem
  case hfresh =>
    intro u hu
    refine ⟨hu, ?_⟩
    rintro rfl
    exact h.notMem_runnable_of_fresh hu (hrunnable ▸ mem_cons_self)
  case hleast => exact nofun
  case halone =>
    intro u hu
    have hu' : s'.readyQueue = [u] := hu
    rcases hqueued with hperm | ⟨hfull, heq⟩
    · rw [hu'] at hperm
      have hone : r.runnable = [u] := perm_singleton.mp hperm.symm
      have hut : t = u := by
        rw [hrunnable] at hone
        exact (cons.inj hone).1
      have hle := h.alone u hone
      subst hut
      rw [hentered.self, CfsScheduler.entered]
      split
      · exact le_refl _
      · exact hle
    · rw [← heq, hu', length_singleton] at hfull
      exact absurd hfull (by decide)
  case hlead => exact nofun
  case hnear =>
    intro hlen
    refine Near.subset ?_ hmem.subset
    have hold := h.near (hlen.trans hmem.length_le)
    by_cases hzero : (r.data t).vruntime = 0
    · rw [hrunnable] at hold ⊢
      have hrest : Near r.data r.scheduler.minVruntime r.bound r.scheduler.readyQueue :=
        hold.subset fun u hu => mem_cons_of_mem t hu
      exact (hrest.congr fun u hu => by rw [hother u hu]).cons (hentered.given hzero)
    apply hold.congr
    intro u hu
    rw [hrunnable] at hu
    rcases mem_cons.mp hu with rfl | hu
    · rw [hentered.self, CfsScheduler.entered]
      exact if_neg hzero
    · rw [hother u hu]

end

theorem pickNext_frame (hs : r.arrivalStep .pickNext = some r') :
    r'.fresh = r.fresh ∧ r'.tasks = r.tasks ∧ r'.runnable = r.runnable := by
  unfold arrivalStep at hs
  dsimp only at hs
  split at hs
  · rename_i hcurrent
    rw [runnable, runnable, hcurrent]
    cases hqueue : r.scheduler.readyQueue with
    | nil | cons t queue =>
      simp only [CfsScheduler.pickNext, hqueue, Option.some.injEq] at hs
      subst hs
      simp [hqueue]
  · cases hs

theorem step_pickNext (h : r.Close) (hs : r.arrivalStep .pickNext = some r') : r'.Close := by
  obtain ⟨-, -, hsame⟩ := pickNext_frame hs
  unfold arrivalStep at hs
  dsimp only at hs
  split at hs
  · rename_i hcurrent
    have hrunnable : r.runnable = r.scheduler.readyQueue := by rw [runnable, hcurrent]; rfl
    cases hqueue : r.scheduler.readyQueue with
    | nil =>
      simp only [CfsScheduler.pickNext, hqueue, Option.some.injEq] at hs
      subst hs
      exact { h with
        nodup := by rw [hsame]; exact h.nodup
        subset := by rw [hsame]; exact h.subset
        least := fun t ht => h.least t (hcurrent.trans ht)
        alone := by rw [hsame]; exact h.alone
        lead := fun _ t ht => by cases ht
        near := by rw [hsame]; exact h.near }
    | cons t queue =>
      simp only [CfsScheduler.pickNext, hqueue, Option.some.injEq] at hs
      have horder := h.order
      rw [hqueue] at horder
      obtain ⟨hle, horder⟩ := pairwise_cons.mp horder
      have hnear := h.near
      rw [hrunnable, hqueue] at hnear
      subst hs
      constructor
      case nodup => rw [hsame]; exact h.nodup
      case subset => rw [hsame]; exact h.subset
      case weight => exact h.weight
      case fresh => exact h.fresh
      case order => exact horder
      case least =>
        intro _ _ u hu
        cases queue with
        | nil => cases hu
        | cons w queue =>
          cases hu
          rfl
      case alone =>
        intro u hu
        cases queue with
        | nil =>
          cases hu
          exact le_refl _
        | cons w queue => cases hu
      case lead =>
        intro hlen u hu _
        cases hu
        cases queue with
        | nil => exact absurd hlen (Nat.lt_irrefl 1)
        | cons w queue => exact (hle w mem_cons_self).trans (Nat.le_add_right _ _)
      case near =>
        intro hlen
        cases queue with
        | nil => exact absurd hlen (Nat.lt_irrefl 1)
        | cons w queue =>
          obtain ⟨hspread, -, -⟩ := hnear (Nat.le_add_left 2 _)
          have hw : w ∈ t :: w :: queue := mem_cons_of_mem t mem_cons_self
          exact ⟨hspread, fun u hu => hspread u hu w hw, fun u hu => hspread w hw u hu⟩
  · cases hs

theorem minVruntime_le (h : r.Close) (hcurrent : r.current = some t) :
    ∀ u ∈ r.scheduler.readyQueue, r.scheduler.minVruntime ≤ (r.data u).vruntime := by
  intro u hu
  have horder := h.order
  have hleast := h.least t hcurrent
  cases hqueue : r.scheduler.readyQueue with
  | nil =>
    rw [hqueue] at hu
    cases hu
  | cons w queue =>
    rw [hqueue] at hu horder hleast
    rw [← hleast w rfl]
    rcases mem_cons.mp hu with rfl | hu
    · exact le_refl _
    · exact (pairwise_cons.mp horder).1 u hu

section

variable (h : r.Close) (hrange : r.InRange .onTick) (hs : r.arrivalStep .onTick = some r')
include h hrange hs

theorem onTick_ticked :
    ∃ t preempted s' data', r.current = some t ∧ r.preempted = false ∧
      r.scheduler.Ticked r.data t s' data' ∧
      (preempted = false → ∀ u ∈ r.scheduler.readyQueue,
        (data' t).vruntime ≤ (r.data u).vruntime + CfsScheduler.minGranularity) ∧
      r' = { r with scheduler := s', data := data', preempted } := by
  unfold arrivalStep step at hs
  dsimp only at hs
  split at hs
  · rename_i t hcurrent hpreempted
    cases hs
    exact ⟨t, _, _, _, hcurrent, hpreempted, r.scheduler.onTick_ticked (hrange t hcurrent),
      onTick_lead h.order (h.running hcurrent).2.1, rfl⟩
  · cases hs

theorem step_onTick : r'.Close := by
  obtain ⟨t, preempted, s', data', hcurrent, hpreempted, hticked, hlead', rfl⟩ :=
    h.onTick_ticked hrange hs
  obtain ⟨hrunnable, hnot, ht⟩ := h.running hcurrent
  have hqueue := hticked.readyQueue
  have hmin := hticked.minVruntime
  have hself : (data' t).vruntime = (r.data t).vruntime + CfsScheduler.delta (r.data t) := by
    rw [hticked.self]
  have hother := hticked.other
  have hweight := hticked.weight
  have hne : ∀ u ∈ r.scheduler.readyQueue, u ≠ t := fun u hu heq => hnot (heq ▸ hu)
  have hbound : CfsRun.bound { r with scheduler := s', data := data', preempted } = r.bound :=
    congrArg (CfsScheduler.minGranularity + ·) (maxDelta_congr rfl hweight)
  have hsame : CfsRun.runnable { r with scheduler := s', data := data', preempted } =
      r.runnable := by rw [runnable, runnable, hqueue]
  have hleast := h.minVruntime_le hcurrent
  constructor
  case nodup => rw [hsame]; exact h.nodup
  case subset => rw [hsame]; exact h.subset
  case weight =>
    intro u hu
    rw [hweight]
    exact h.weight u hu
  case fresh =>
    intro u hu
    have hut : u ≠ t := by
      rintro rfl
      exact h.notMem_runnable_of_fresh hu (hrunnable ▸ mem_cons_self)
    dsimp only
    rw [hother u hut]
    exact h.fresh u hu
  case order =>
    dsimp only
    rw [hqueue]
    apply h.order.congr
    intro u hu
    rw [hother u (hne u hu)]
  case least =>
    intro t' ht' u hu
    dsimp only at hu ht' ⊢
    rw [hqueue] at hu
    rw [hmin, hother u (hne u (mem_of_mem_head? hu))]
    exact h.least t' ht' u hu
  case alone =>
    intro u hu
    rw [hsame] at hu
    dsimp only
    have hut : t = u := by
      rw [hrunnable] at hu
      exact (cons.inj hu).1
    have hle := h.alone u hu
    subst hut
    omega
  case lead =>
    intro hlen t' ht' hfalse
    rw [hsame, hrunnable] at hlen
    cases hcurrent.symm.trans ht'
    cases hq : r.scheduler.readyQueue with
    | nil =>
      rw [hq] at hlen
      exact absurd hlen (Nat.lt_irrefl 1)
    | cons w queue =>
      have hw := h.least t hcurrent w (by rw [hq]; rfl)
      have hle := hlead' hfalse w (by rw [hq]; exact mem_cons_self)
      rw [hmin, ← hw]
      exact hle
  case near =>
    intro hlen
    rw [hsame] at hlen ⊢
    dsimp only
    rw [hbound, hmin]
    have hold := h.near hlen
    have hahead := h.lead hlen t hcurrent hpreempted
    have hstep := delta_le r (h.subset t ht)
    have hle : r.bound = CfsScheduler.minGranularity + r.maxDelta := rfl
    constructor
    case spread =>
      intro u hu w hw
      have huw := hold.spread u hu w hw
      by_cases hut : u = t
      · by_cases hwt : w = t
        · rw [hut, hwt]
          omega
        rw [hrunnable] at hw
        have hlow := hleast w ((mem_cons.mp hw).resolve_left hwt)
        rw [hut, hself, hother w hwt]
        omega
      by_cases hwt : w = t
      · rw [hwt] at huw
        rw [hwt, hself, hother u hut]
        omega
      · rw [hother u hut, hother w hwt]
        exact huw
    case above =>
      intro u hu
      by_cases hut : u = t
      · rw [hut, hself]
        omega
      · rw [hother u hut]
        exact hold.above u hu
    case below =>
      intro u hu
      have hbelow := hold.below u hu
      by_cases hut : u = t
      · rw [hut] at hbelow
        rw [hut, hself]
        omega
      · rw [hother u hut]
        exact hbelow

end

theorem step (h : r.Close) {a : CfsArrival} (hok : r.Admits a) (hs : r.arrivalStep a = some r') :
    r'.Close := by
  cases a with
  | arrive t => exact h.step_arrive hok hs
  | pickNext => exact h.step_pickNext hs
  | onTick => exact h.step_onTick hok hs
  | enqueue => exact h.step_enqueue hs

end Close

theorem close_of_init (hnodup : r.tasks.Nodup)
    (hnew : ∀ t ∈ r.tasks, (r.data t).vruntime = 0 ∧ 0 < (r.data t).weight)
    (hscheduler : r.scheduler = {}) (hfresh : r.fresh = r.tasks) (hcurrent : r.current = none) :
    r.Close := by
  have hrunnable : r.runnable = [] := by
    rw [runnable, hcurrent, hscheduler]
    rfl
  have hnone : ¬ 2 ≤ r.runnable.length := by
    rw [hrunnable]
    exact Nat.not_succ_le_zero 1
  constructor
  case nodup =>
    rw [hfresh, hrunnable, append_nil]
    exact hnodup
  case subset =>
    rw [hfresh, hrunnable, append_nil]
    exact fun t ht => ht
  case weight => exact fun t ht => (hnew t ht).2
  case fresh =>
    rw [hfresh]
    exact fun t ht => (hnew t ht).1
  case order =>
    rw [hscheduler]
    exact List.Pairwise.nil
  case least =>
    intro t ht
    rw [hcurrent] at ht
    cases ht
  case alone =>
    intro t ht
    rw [hrunnable] at ht
    cases ht
  case lead => exact fun hlen => absurd hlen hnone
  case near => exact fun hlen => absurd hlen hnone

/-! ## Runs without arrivals -/

/-- All tasks have entered before the first one runs, and none is dropped. -/
structure Closed (r : CfsRun) : Prop extends Close r where
  perm : (r.fresh ++ r.runnable).Perm r.tasks
  length : r.tasks.length ≤ maxReadyTasks
  start : r.fresh ≠ [] → r.current = none ∧ r.scheduler.minVruntime = 0 ∧
    ∀ t ∈ r.tasks, (r.data t).vruntime = 0

namespace Closed

variable (h : r.Closed)
include h

theorem insert_perm {s' : CfsScheduler}
    (hentered : r.scheduler.Entered r.data t s' data') (hnot : t ∉ r.scheduler.readyQueue)
    (ht : t ∈ r.fresh ++ r.runnable) : s'.readyQueue.Perm (t :: r.scheduler.readyQueue) := by
  rcases hentered.queue with hqueue | ⟨hfull, -⟩
  · rw [hqueue]
    exact CfsScheduler.insert_perm data' t _
  have hnodup := nodup_cons.mpr ⟨hnot, (nodup_append.mp (nodup_append.mp h.nodup).2.1).2.1⟩
  have hsub : t :: r.scheduler.readyQueue ⊆ r.tasks := by
    intro u hu
    rcases mem_cons.mp hu with rfl | hu
    · exact h.subset u ht
    · exact h.subset u (mem_append_right _ (mem_append_right _ hu))
  have hle := (hnodup.subperm hsub).length_le
  have hmax := h.length
  rw [length_cons] at hle
  omega

theorem fresh_eq_nil (hcurrent : r.current = some t) : r.fresh = [] := by
  by_contra hne
  rw [(h.start hne).1] at hcurrent
  cases hcurrent

theorem step_enqueueFresh (hs : r.step .enqueueFresh = some r') : r'.Closed := by
  unfold CfsRun.step at hs
  dsimp only at hs
  split at hs
  · cases hs
  rename_i t fresh hfresh
  have hmem : t ∈ r.fresh := by
    rw [hfresh]
    exact mem_cons_self
  have hs' : r.arrivalStep (.arrive t) = some r' := by
    rw [arrivalStep, if_pos hmem, hfresh, erase_cons_head]
    exact hs
  obtain ⟨hcurrent, hmin, hzero⟩ := h.start (ne_nil_of_mem hmem)
  have hok : r.Admits (.arrive t) := by
    intro u hu _
    rw [hzero u (h.subset u (mem_append_right _ hu))]
    exact Nat.zero_le _
  have hclose := h.step_arrive hok hs'
  obtain ⟨s', data', -, hentered, rfl⟩ := h.arrive_entered hs'
  have hnot : t ∉ r.scheduler.readyQueue :=
    fun hqueue => h.notMem_runnable_of_fresh hmem (mem_append_right _ hqueue)
  refine { hclose with perm := ?_, length := h.length, start := ?_ }
  · refine List.Perm.trans ?_ h.perm
    have hperm := h.insert_perm hentered hnot (mem_append_left _ hmem)
    have hmiddle : (r.current.toList ++ s'.readyQueue).Perm (t :: r.runnable) :=
      (hperm.append_left _).trans perm_middle
    refine (hmiddle.append_left _).trans (perm_middle.trans ?_)
    exact (perm_cons_erase hmem).symm.append_right r.runnable
  · refine fun _ => ⟨hcurrent, hentered.minVruntime.trans hmin, ?_⟩
    intro u hu
    dsimp only
    by_cases hut : u = t
    · rw [hut, hentered.given (hzero t (h.subset t (mem_append_left _ hmem)))]
      exact hmin
    · rw [hentered.other u hut]
      exact hzero u hu

theorem step {a : CfsAction} (hrange : r.InRange a) (hs : r.step a = some r') : r'.Closed := by
  cases a with
  | enqueueFresh => exact h.step_enqueueFresh hs
  | pickNext =>
    have hs' : r.fresh = [] ∧ r.arrivalStep .pickNext = some r' := by
      unfold CfsRun.step at hs
      dsimp only at hs
      split at hs
      · rename_i hfresh hcurrent
        rw [arrivalStep, hcurrent]
        exact ⟨hfresh, hs⟩
      · cases hs
    obtain ⟨hnil, hs'⟩ := hs'
    obtain ⟨hfresh, htasks, hsame⟩ := Close.pickNext_frame hs'
    refine { h.step_pickNext hs' with perm := ?_, length := ?_, start := ?_ }
    · rw [hfresh, hsame, htasks]
      exact h.perm
    · rw [htasks]
      exact h.length
    · rw [hfresh, hnil]
      exact fun hne => absurd rfl hne
  | onTick =>
    have hclose := h.step_onTick hrange hs
    obtain ⟨t, preempted, s', data', hcurrent, -, hticked, -, rfl⟩ := h.onTick_ticked hrange hs
    refine { hclose with perm := ?_, length := h.length, start := ?_ }
    · dsimp [runnable]
      rw [hticked.readyQueue]
      exact h.perm
    · exact fun hne => absurd (h.fresh_eq_nil hcurrent) hne
  | enqueue =>
    have hclose := h.step_enqueue hs
    obtain ⟨t, s', data', hcurrent, hentered, rfl⟩ := h.enqueue_entered hs
    obtain ⟨hrunnable, hnot, ht⟩ := h.running hcurrent
    refine { hclose with perm := ?_, length := h.length, start := ?_ }
    · refine List.Perm.trans ?_ h.perm
      rw [hrunnable]
      exact (h.insert_perm hentered hnot ht).append_left r.fresh
    · exact fun hne => absurd (h.fresh_eq_nil hcurrent) hne

end Closed

theorem closed_of_init (h : cfsSystem.init r) : r.Closed := by
  obtain ⟨hnodup, hlength, hnew, hscheduler, hfresh, hcurrent⟩ := h
  refine { close_of_init hnodup hnew hscheduler hfresh hcurrent with
    perm := ?_, length := hlength, start := ?_ }
  · rw [hfresh, runnable, hcurrent, hscheduler]
    simp
  · rw [hscheduler]
    exact fun _ => ⟨hcurrent, rfl, fun t ht => (hnew t ht).1⟩

theorem Closed.spread (h : r.Closed) (ht : t ∈ r.tasks) (hu : u ∈ r.tasks) :
    (r.data t).vruntime ≤ (r.data u).vruntime + r.bound := by
  by_cases hfresh : r.fresh = []
  · have hperm := h.perm
    rw [hfresh, nil_append] at hperm
    have ht' := hperm.mem_iff.mpr ht
    have hu' := hperm.mem_iff.mpr hu
    by_cases hlen : 2 ≤ r.runnable.length
    · exact (h.near hlen).spread t ht' u hu'
    have hpos := length_pos_of_mem ht'
    obtain ⟨w, hw⟩ := length_eq_one_iff.mp (show r.runnable.length = 1 by omega)
    rw [hw] at ht' hu'
    rw [mem_singleton.mp ht', mem_singleton.mp hu']
    exact Nat.le_add_right _ _
  · rw [(h.start hfresh).2.2 t ht]
    exact Nat.zero_le _

end CfsRun

/-- At every point of a run, the virtual runtimes of two tasks differ by at most the granularity and
the largest step of one of the tasks. -/
theorem cfs_fairness (h : cfsSystem.ReachableBy CfsRun.InRange r) (ht : t ∈ r.tasks)
    (hu : u ∈ r.tasks) :
    (r.data t).vruntime ≤ (r.data u).vruntime + (CfsScheduler.minGranularity +
      r.tasks.toFinset.sup fun t => 1024000 / (r.data t).weight) := by
  have hclosed : r.Closed := h.invariant (P := CfsRun.Closed) (fun _ => CfsRun.closed_of_init)
    fun _ _ _ hc hrange hs => hc.step hrange hs
  exact hclosed.spread ht hu

def twoTasks : CfsRun where
  tasks := [0, 1]
  data t := if t = 0 then { weight := 1 } else { weight := 1024000 }
  fresh := [0, 1]

theorem cfs_fairness_two : ∃ r, cfsSystem.ReachableBy CfsRun.InRange r ∧ r.tasks = [0, 1] ∧
    (r.data 0).vruntime = 1024000 ∧ (r.data 1).vruntime = 2 ∧
    (r.data 0).vruntime ≤ (r.data 1).vruntime + (CfsScheduler.minGranularity +
      r.tasks.toFinset.sup fun t => 1024000 / (r.data t).weight) := by
  have hinit : cfsSystem.init twoTasks := by
    refine ⟨by decide, by decide, ?_, rfl, rfl, rfl⟩
    decide
  obtain ⟨r, hr, htasks, hlight, hheavy⟩ :=
    cfsSystem.exists_of_run CfsRun.InRange
    [.enqueueFresh, .enqueueFresh, .pickNext, .onTick, .enqueue, .pickNext, .onTick, .onTick]
    (fun r => r.tasks = [0, 1] ∧ (r.data 0).vruntime = 1024000 ∧ (r.data 1).vruntime = 2)
    hinit (by decide +kernel)
  have hbound := cfs_fairness hr (t := 0) (u := 1) (by rw [htasks]; decide) (by rw [htasks]; decide)
  exact ⟨r, hr, htasks, hlight, hheavy, hbound⟩

/-- No task is lost or queued twice, and the queue is in order. While a task runs, no other one is
behind `min_vruntime`, and none is behind by more than the granularity before `OnTick` preempts. -/
theorem cfs_queue (h : cfsSystem.ReachableBy CfsRun.InRange r) :
    (r.fresh ++ r.runnable).Perm r.tasks ∧ ByVruntime r.data r.scheduler.readyQueue ∧
      ∀ t, r.current = some t → ∀ u ∈ r.scheduler.readyQueue,
        r.scheduler.minVruntime ≤ (r.data u).vruntime ∧ (r.preempted = false →
          (r.data t).vruntime ≤ (r.data u).vruntime + CfsScheduler.minGranularity) := by
  have hclosed : r.Closed := h.invariant (P := CfsRun.Closed) (fun _ => CfsRun.closed_of_init)
    fun _ _ _ hc hrange hs => hc.step hrange hs
  refine ⟨hclosed.perm, hclosed.order, fun t ht u hu => ?_⟩
  have hmin := hclosed.minVruntime_le ht u hu
  refine ⟨hmin, fun hp => (hclosed.lead ?_ t ht hp).trans (Nat.add_le_add_right hmin _)⟩
  rw [(hclosed.running ht).1]
  exact Nat.succ_le_succ (length_pos_of_mem hu)

theorem cfs_queue_two : ∃ r, cfsSystem.ReachableBy CfsRun.InRange r ∧ r.current = some 1 ∧
    r.preempted = false ∧ (r.fresh ++ r.runnable).Perm r.tasks := by
  obtain ⟨r, hr, hcurrent, hp⟩ := cfsSystem.exists_of_run CfsRun.InRange
    [.enqueueFresh, .enqueueFresh, .pickNext, .onTick, .enqueue, .pickNext, .onTick]
    (fun r => r.current = some 1 ∧ r.preempted = false) (s := twoTasks)
    ⟨by decide, by decide, by decide, rfl, rfl, rfl⟩ (by decide +kernel)
  exact ⟨r, hr, hcurrent, hp, (cfs_queue hr).1⟩

end SimpleKernel
