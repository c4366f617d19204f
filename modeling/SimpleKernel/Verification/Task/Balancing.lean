import Mathlib.Algebra.BigOperators.Group.Finset.Piecewise
import Mathlib.Algebra.Order.Group.Multiset
import SimpleKernel.Verification.Task.Slices

/-! What one `Balance` does to the ready queues of the cores. -/

namespace SimpleKernel.TaskManager

open List Function
open VirtualMemory (CpuIo Allocator sv39 bump)

variable {N : CoreCount} {s s' : State N} {c i source target : N.Core} {t u : TaskPtr}
  {f : CpuSchedData → CpuSchedData} {schedulers : Schedulers} {normal : RoundRobinScheduler}

/-! ## The search -/

theorem balanceRounds_spec (cores : List N.Core) (best : ℕ × N.Core) :
    let result := cores.foldl (balanceRound c s) best
    best.1 ≤ result.1 ∧ (∀ i ∈ cores, i ≠ c → normalLoad s i ≤ result.1) ∧
      (result = best ∨ result.2 ≠ c ∧ result.1 = normalLoad s result.2) := by
  induction cores generalizing best with
  | nil => exact ⟨le_refl _, by simp, .inl rfl⟩
  | cons i cores ih =>
    obtain ⟨hle, hall, hfound⟩ := ih (balanceRound c s best i)
    rw [foldl_cons]
    have hround : best.1 ≤ (balanceRound c s best i).1 ∧
        (i ≠ c → normalLoad s i ≤ (balanceRound c s best i).1) ∧
        (balanceRound c s best i = best ∨ (balanceRound c s best i).2 ≠ c ∧
          (balanceRound c s best i).1 = normalLoad s (balanceRound c s best i).2) := by
      unfold balanceRound
      split
      · rename_i h
        exact ⟨h.2.le, fun _ => le_refl _, .inr ⟨h.1, rfl⟩⟩
      rename_i h
      refine ⟨le_refl _, ?_, .inl rfl⟩
      intro hi
      by_contra hlt
      exact h ⟨hi, Nat.lt_of_not_le hlt⟩
    obtain ⟨hbest, hi, hnew⟩ := hround
    refine ⟨hbest.trans hle, ?_, ?_⟩
    · intro j hj hjc
      rcases mem_cons.mp hj with rfl | hj
      · exact (hi hjc).trans hle
      · exact hall j hj hjc
    · rcases hfound with heq | hfound
      · rcases hnew with hsame | hnew
        · exact .inl (heq.trans hsame)
        · rw [heq]
          exact .inr hnew
      · exact .inr hfound

theorem balanceSource_spec (h : balanceSource c s = some source) :
    source ≠ c ∧ ∀ i, i ≠ c → normalLoad s i ≤ normalLoad s source := by
  unfold balanceSource at h
  have hspec := balanceRounds_spec (c := c) (s := s) (finRange N.val) (0, c)
  generalize (finRange N.val).foldl (balanceRound c s) (0, c) = result at h hspec
  obtain ⟨maxLoad, maxCore⟩ := result
  obtain ⟨-, hall, hfound⟩ := hspec
  dsimp only at h hall hfound
  split at h
  · cases h
  rename_i hnot
  cases h
  have hne : source ≠ c := fun heq => hnot (.inl heq)
  rcases hfound with heq | ⟨-, hload⟩
  · exact absurd (congrArg Prod.snd heq) hne
  · rw [hload] at hall
    exact ⟨hne, fun i hi => hall i (mem_finRange i) hi⟩

/-! ## The steps of the search -/

section Alone

variable (A : CpuIo) (al : Allocator A) (tick : ℕ) (m : Machine N) (c : N.Core)

theorem alone_balanceRounds (load : ℕ) (needPreempt : Bool) (n : ℕ) {i : ℕ} (hi : i + n = N.val)
    (best : ℕ × N.Core) :
    let result := ((finRange N.val).drop i).foldl (balanceRound c m.kernel) best
    Alone A al tick c (m.goto c (.balanceScan i load best.1 best.2 needPreempt))
      (m.goto c (.balanceScan N.val load result.1 result.2 needPreempt)) := by
  induction n generalizing i best with
  | zero =>
    obtain rfl : i = N.val := hi
    rw [drop_eq_nil_of_le (length_finRange).le]
    exact .refl
  | succ n ih =>
    have hlt : i < N.val := by omega
    rw [drop_eq_getElem_cons (by rwa [length_finRange]), foldl_cons, getElem_finRange]
    refine Relation.ReflTransGen.head ?_ (ih (by omega) _)
    rw [next_goto, pcStep, balanceScanStep, dif_pos hlt, balanceRound]
    have hcore : (⟨i, hlt⟩ : N.Core) ≠ c ↔ i ≠ c.val := Fin.ext_iff.not
    simp only [goto_goto, Fin.cast_mk]
    split <;> rename_i hround
    · rw [if_pos ⟨hcore.mpr hround.1, hround.2⟩]
      rfl
    · rw [if_neg fun h => hround ⟨hcore.mp h.1, h.2⟩]

/-- Without steps of other cores, `Balance` is `balanceWhole`. -/
theorem alone_balance (needPreempt : Bool) :
    Alone A al tick c (m.goto c (.balanceScan 0 (normalLoad m.kernel c) 0 c needPreempt))
      ({ m with kernel := balanceWhole c m.kernel }.goto c (.preempt needPreempt)) := by
  have hrounds := alone_balanceRounds A al tick m c (normalLoad m.kernel c) needPreempt N.val
    (Nat.zero_add _) (0, c)
  rw [drop_zero] at hrounds
  unfold balanceWhole balanceSource
  generalize (finRange N.val).foldl (balanceRound c m.kernel) (0, c) = result at hrounds ⊢
  refine Relation.ReflTransGen.trans hrounds ?_
  obtain ⟨maxLoad, maxCore⟩ := result
  dsimp only
  by_cases hnone : maxCore = c ∨ maxLoad ≤ normalLoad m.kernel c + 1
  · rw [if_pos hnone]
    refine .single ?_
    rw [next_goto, pcStep, balanceScanStep, dif_neg (Nat.lt_irrefl _), if_pos hnone, goto_goto]
    rfl
  rw [if_neg hnone]
  refine .head (b := m.goto c (.balance maxCore needPreempt)) ?_ (.single ?_)
  · rw [next_goto, pcStep, balanceScanStep, dif_neg (Nat.lt_irrefl _), if_neg hnone, goto_goto]
  · rw [next_goto, pcStep]
    simp [Machine.goto]

end Alone

/-! ## The queues -/

def picked (c source : N.Core) (s : State N) : Option TaskPtr :=
  if (s.cpuSchedulers c).schedulers.isSome ∧ normalLoad s c + 1 < normalLoad s source then
    (s.normalQueue source).head?
  else none

theorem sum_update_queues (q : N.Core → List TaskPtr) (i : N.Core) (l : List TaskPtr) :
    ∑ j, (update q i l j : Multiset TaskPtr) + (q i : Multiset TaskPtr) =
      ∑ j, (q j : Multiset TaskPtr) + (l : Multiset TaskPtr) := by
  have hcoe : (fun j => (update q i l j : Multiset TaskPtr)) =
      update (fun j => (q j : Multiset TaskPtr)) i l := by
    funext j
    exact Function.apply_update (fun _ => Multiset.ofList) q i l j
  rw [hcoe, Finset.sum_update_of_mem (Finset.mem_univ i),
    Finset.sum_eq_add_sum_sdiff_singleton_of_mem (Finset.mem_univ i) fun j =>
      (q j : Multiset TaskPtr)]
  rw [add_comm (l : Multiset TaskPtr), add_right_comm, add_comm (q i : Multiset TaskPtr)]

/-- The first task of the queue of `source` goes to the end of the queue of `target`, with a new time
slice. -/
structure Requeued (source target : N.Core) (t : TaskPtr) (s s' : State N) : Prop where
  first : (s.normalQueue source).head? = some t
  queues : s'.normalQueue = update (update s.normalQueue source
    (s.normalQueue source).tail) target
      (update s.normalQueue source (s.normalQueue source).tail target ++ [t])
  self : s'.tcb t = (s.tcb t).resetTimeSlice
  tcb : ∀ u, u ≠ t → s'.tcb u = s.tcb u

namespace Requeued

section

variable (h : Requeued source target t s s')
include h

theorem cons : s.normalQueue source = t :: (s.normalQueue source).tail :=
  (cons_head?_tail h.first).symm

theorem other (hs : i ≠ source) (ht : i ≠ target) : s'.normalQueue i = s.normalQueue i := by
  rw [h.queues, update_of_ne ht, update_of_ne hs]

theorem taken (hne : source ≠ target) : s'.normalQueue source = (s.normalQueue source).tail := by
  rw [h.queues, update_of_ne hne, update_self]

theorem gained (hne : source ≠ target) : s'.normalQueue target = s.normalQueue target ++ [t] := by
  rw [h.queues, update_self, update_of_ne hne.symm]

end

theorem rotated (h : Requeued source source t s s') :
    s'.normalQueue source = (s.normalQueue source).tail ++ [t] := by
  rw [h.queues, update_self, update_self]

theorem sum_queues (h : Requeued source target t s s') :
    ∑ i, (s'.normalQueue i : Multiset TaskPtr) = ∑ i, (s.normalQueue i : Multiset TaskPtr) := by
  have htaken := sum_update_queues s.normalQueue source (s.normalQueue source).tail
  have hgained := sum_update_queues
    (update s.normalQueue source (s.normalQueue source).tail) target
    (update s.normalQueue source (s.normalQueue source).tail target ++ [t])
  rw [← h.queues] at hgained
  generalize update s.normalQueue source (s.normalQueue source).tail = q at htaken hgained
  have hq : ∑ i, (s'.normalQueue i : Multiset TaskPtr) = ∑ i, (q i : Multiset TaskPtr) + {t} := by
    refine add_right_cancel (b := (q target : Multiset TaskPtr)) (hgained.trans ?_)
    rw [← Multiset.coe_add, Multiset.coe_singleton, add_assoc, add_comm (q target : Multiset TaskPtr)]
  rw [hq]
  refine add_right_cancel (b := ((s.normalQueue source).tail : Multiset TaskPtr)) ?_
  rw [← htaken, add_assoc]
  conv_rhs => rw [h.cons]
  rfl

theorem length_eq (h : Requeued source source t s s') (i : N.Core) :
    (s'.normalQueue i).length = (s.normalQueue i).length := by
  by_cases hi : i = source
  · rw [hi, h.rotated, h.cons]
    simp
  · rw [h.other hi hi]

end Requeued

theorem normalQueue_setCpu_of_ne (hi : i ≠ c) : (s.setCpu c f).normalQueue i = s.normalQueue i := by
  rw [State.normalQueue, setCpu_cpuSchedulers_of_ne s c f hi]
  rfl

theorem normalQueue_enqueue (h : (s.cpuSchedulers c).schedulers = some schedulers)
    (hroom : (s.normalQueue c).length < maxReadyTasks) :
    (s.enqueue c .normal t).normalQueue c = s.normalQueue c ++ [t] ∧
    (∀ i, i ≠ c → (s.enqueue c .normal t).normalQueue i = s.normalQueue i) ∧
    (s.enqueue c .normal t).tcb t = (s.tcb t).resetTimeSlice ∧
    ∀ u, u ≠ t → (s.enqueue c .normal t).tcb u = s.tcb u := by
  have hqueue : s.normalQueue c = schedulers.normal.readyQueue := by
    rw [State.normalQueue, CpuSchedData.readyQueue, h]
    rfl
  have hspace : ¬ maxReadyTasks ≤ schedulers.normal.readyQueue.length := by
    rw [← hqueue]
    exact Nat.not_le.mpr hroom
  simp only [State.enqueue, h, Schedulers.enqueue, RoundRobinScheduler.enqueue, if_neg hspace]
  refine ⟨?_, ?_, ?_, ?_⟩
  · rw [hqueue]
    simp [State.normalQueue, CpuSchedData.readyQueue, Schedulers.readyQueue]
  · intro i hi
    rw [State.normalQueue, modify_cpuSchedulers]
    exact normalQueue_setCpu_of_ne hi
  · simp
  · intro u hu
    rw [modify_tcb_of_ne _ _ _ hu, setCpu_tcb]

theorem normalQueue_pickNext (h : (s.cpuSchedulers source).schedulers = some schedulers)
    (hpick : schedulers.normal.pickNext = (some t, normal)) :
    (s.normalQueue source).head? = some t ∧
    (s.setCpu source fun d => { d with schedulers := some { schedulers with normal } }).normalQueue =
      update s.normalQueue source (s.normalQueue source).tail := by
  have hqueue : s.normalQueue source = schedulers.normal.readyQueue := by
    rw [State.normalQueue, CpuSchedData.readyQueue, h]
    rfl
  unfold RoundRobinScheduler.pickNext at hpick
  split at hpick
  · cases hpick
  rename_i u rest hcons
  cases hpick
  rw [hqueue, hcons]
  refine ⟨rfl, ?_⟩
  funext i
  by_cases hi : i = source
  · rw [hi, update_self]
    simp [State.normalQueue, CpuSchedData.readyQueue, Schedulers.readyQueue]
  · rw [update_of_ne hi, normalQueue_setCpu_of_ne hi]

theorem requeued_of_enqueue {s₁ : State N} (hfirst : (s.normalQueue source).head? = some t)
    (hq : s₁.normalQueue = update s.normalQueue source (s.normalQueue source).tail)
    (htcb : s₁.tcb = s.tcb) (h : (s₁.cpuSchedulers target).schedulers = some schedulers)
    (hroom : (s₁.normalQueue target).length < maxReadyTasks) :
    Requeued source target t s (s₁.enqueue target .normal t) := by
  obtain ⟨htarget, hother, hself, hrest⟩ := normalQueue_enqueue (t := t) h hroom
  rw [htcb] at hself hrest
  refine ⟨hfirst, ?_, hself, hrest⟩
  funext i
  by_cases hi : i = target
  · rw [hi, htarget, update_self, hq]
  · rw [hother i hi, update_of_ne hi, hq]

theorem balance_of_pickNext {dest : Schedulers}
    (hsource : (s.cpuSchedulers source).schedulers = some schedulers)
    (hdest : (s.cpuSchedulers c).schedulers = some dest)
    (hlt : normalLoad s c + 1 < normalLoad s source)
    (hpick : schedulers.normal.pickNext = (some t, normal)) :
    balance c source s = (s.setCpu source fun d =>
      { d with schedulers := some { schedulers with normal } }).enqueue
        (if allowsCore (s.tcb t).aux.cpuAffinity c then c else source) .normal t := by
  simp only [balance, hsource, hdest, if_neg (Nat.not_le.mpr hlt), hpick]
  by_cases hallowed : allowsCore (s.tcb t).aux.cpuAffinity c
  · rw [if_pos hallowed]
    exact if_pos hallowed
  · rw [if_neg hallowed]
    exact if_neg hallowed

theorem balance_of_picked_none (h : picked c source s = none) : balance c source s = s := by
  unfold balance
  split
  · rename_i schedulers _ hsource hc
    split
    · rfl
    rename_i hload
    have hsome : (s.cpuSchedulers c).schedulers.isSome := by rw [hc]; rfl
    rw [picked, if_pos ⟨hsome, Nat.lt_of_not_le hload⟩, State.normalQueue, CpuSchedData.readyQueue,
      hsource] at h
    have hnil : schedulers.normal.readyQueue = [] := head?_eq_none_iff.mp h
    simp [RoundRobinScheduler.pickNext, hnil]
  · rfl

theorem balance_of_picked (hne : source ≠ c)
    (hcap : (s.normalQueue source).length ≤ maxReadyTasks) (h : picked c source s = some t) :
    Requeued source (if allowsCore (s.tcb t).aux.cpuAffinity c then c else source) t s
      (balance c source s) := by
  obtain ⟨hload, h⟩ := Option.ite_none_right_eq_some.mp h
  obtain ⟨⟨dest, hdest⟩, hlt⟩ := And.imp_left Option.isSome_iff_exists.mp hload
  cases hsource : (s.cpuSchedulers source).schedulers with
  | none =>
    rw [State.normalQueue, CpuSchedData.readyQueue, hsource] at h
    cases h
  | some schedulers =>
    have hqueue : schedulers.normal.readyQueue = s.normalQueue source := by
      rw [State.normalQueue, CpuSchedData.readyQueue, hsource]
      rfl
    have hcons : s.normalQueue source = t :: (s.normalQueue source).tail :=
      (cons_head?_tail h).symm
    obtain ⟨normal, hpick⟩ : ∃ normal, schedulers.normal.pickNext = (some t, normal) := by
      unfold RoundRobinScheduler.pickNext
      rw [hqueue, hcons]
      exact ⟨_, rfl⟩
    obtain ⟨hfirst, hq⟩ := normalQueue_pickNext hsource hpick
    have hlen : (s.normalQueue source).tail.length < maxReadyTasks := by
      rw [hcons, length_cons] at hcap
      exact hcap
    rw [balance_of_pickNext hsource hdest hlt hpick]
    set target := if allowsCore (s.tcb t).aux.cpuAffinity c then c else source with htarget
    have hcases : target = c ∨ target = source := by
      rw [htarget]
      split
      · exact .inl rfl
      · exact .inr rfl
    rcases hcases with heq | heq
    · rw [heq]
      refine requeued_of_enqueue hfirst hq rfl (by rwa [setCpu_cpuSchedulers_of_ne _ _ _ hne.symm]) ?_
      rw [hq, update_of_ne hne.symm]
      exact (Nat.lt_of_succ_lt hlt).trans_le hcap
    rw [heq]
    refine requeued_of_enqueue hfirst hq rfl (by rw [setCpu_cpuSchedulers_self]) ?_
    rw [hq, update_self]
    exact hlen

/-! ## The whole operation -/

/-- The queues of the schedulers are lists of bounded capacity. -/
def WithinCapacity (s : State N) : Prop := ∀ i, (s.normalQueue i).length ≤ maxReadyTasks

theorem dualCore_cases : ∀ i : dualCore.Core, i = cpu0 ∨ i = cpu1 := by decide

theorem withinCapacity_dualCore {s : State dualCore} (h₀ : (s.normalQueue cpu0).length ≤ 3)
    (h₁ : s.normalQueue cpu1 = []) : WithinCapacity s := by
  intro i
  rcases dualCore_cases i with rfl | rfl
  · exact h₀.trans (by decide)
  · rw [h₁]
    exact Nat.zero_le _

def Refuses (c source : N.Core) (t : TaskPtr) (s : State N) : Prop :=
  balanceSource c s = some source ∧ picked c source s = some t ∧
    allowsCore (s.tcb t).aux.cpuAffinity c = false

def Steals (c source : N.Core) (t : TaskPtr) (s : State N) : Prop :=
  balanceSource c s = some source ∧ picked c source s = some t ∧
    allowsCore (s.tcb t).aux.cpuAffinity c = true

theorem length_of_picked (h : picked c source s = some t) :
    (s.normalQueue c).length + 1 < (s.normalQueue source).length := by
  unfold picked at h
  split at h
  · rename_i hload
    exact hload.2
  · cases h

theorem balanceWhole_cases (hcap : WithinCapacity s) (c : N.Core) :
    balanceWhole c s = s ∧ (∀ source t, ¬ Refuses c source t s) ∨
    (∃ source t, Steals c source t s ∧ Requeued source c t s (balanceWhole c s)) ∨
    ∃ source t, Refuses c source t s ∧ Requeued source source t s (balanceWhole c s) := by
  unfold balanceWhole
  cases hsource : balanceSource c s with
  | none =>
    refine .inl ⟨rfl, ?_⟩
    intro source t h
    cases hsource.symm.trans h.1
  | some source =>
    have hne := (balanceSource_spec hsource).1
    cases hpick : picked c source s with
    | none =>
      refine .inl ⟨balance_of_picked_none hpick, ?_⟩
      intro source' t h
      cases hsource.symm.trans h.1
      cases hpick.symm.trans h.2.1
    | some t =>
      have hrequeued := balance_of_picked hne (hcap source) hpick
      cases hallowed : allowsCore (s.tcb t).aux.cpuAffinity c with
      | true =>
        rw [hallowed, if_pos rfl] at hrequeued
        exact .inr (.inl ⟨source, t, ⟨hsource, hpick, hallowed⟩, hrequeued⟩)
      | false =>
        rw [hallowed, if_neg Bool.false_ne_true] at hrequeued
        exact .inr (.inr ⟨source, t, ⟨hsource, hpick, hallowed⟩, hrequeued⟩)

theorem Steals.not_refuses (h : Steals c source t s) (source' : N.Core) (u : TaskPtr) :
    ¬ Refuses c source' u s := by
  rintro ⟨hsource, hpick, hallowed⟩
  cases h.1.symm.trans hsource
  cases h.2.1.symm.trans hpick
  cases h.2.2.symm.trans hallowed

theorem Refuses.unique {source' : N.Core} (h : Refuses c source t s) (h' : Refuses c source' u s) :
    source' = source ∧ u = t := by
  have hsource : source' = source := Option.some.inj (h'.1.symm.trans h.1)
  subst hsource
  exact ⟨rfl, Option.some.inj (h'.2.1.symm.trans h.2.1)⟩

theorem Steals.lengths (h : Steals c source t s) (hr : Requeued source c t s s') :
    (s'.normalQueue c).length = (s.normalQueue c).length + 1 ∧
    (s'.normalQueue source).length + 1 = (s.normalQueue source).length ∧
    (s'.normalQueue c).length ≤ (s'.normalQueue source).length := by
  have hne := (balanceSource_spec h.1).1
  have hlen := length_of_picked h.2.1
  have hgained := congrArg length (hr.gained hne)
  have htaken := congrArg length hr.cons
  rw [← hr.taken hne, length_cons] at htaken
  rw [length_append, length_singleton] at hgained
  omega

theorem WithinCapacity.balanceWhole (hcap : WithinCapacity s) (c : N.Core) :
    WithinCapacity (balanceWhole c s) := by
  intro i
  have hi := hcap i
  rcases balanceWhole_cases hcap c with ⟨hsame, -⟩ | ⟨source, t, hsteals, h⟩ | ⟨source, t, -, h⟩
  · rw [hsame]
    exact hi
  · obtain ⟨hc, hs, hle⟩ := hsteals.lengths h
    by_cases hsource : i = source
    · subst hsource
      omega
    by_cases hcore : i = c
    · subst hcore
      have := hcap source
      omega
    · rw [h.other hsource hcore]
      exact hi
  · rw [h.length_eq i]
    exact hi

/-- `Balance` loses and invents no task, and moves at most one, from a longest queue to a core on
which it may run, which then has no longer queue. -/
theorem balance_conservative (hcap : WithinCapacity s) (c : N.Core) :
    (∑ i, ((balanceWhole c s).normalQueue i : Multiset TaskPtr) =
      ∑ i, (s.normalQueue i : Multiset TaskPtr)) ∧
    WithinCapacity (balanceWhole c s) ∧
    ((balanceWhole c s).normalQueue = s.normalQueue ∨
      ∃ source, source ≠ c ∧
        (∀ i, i ≠ c → (s.normalQueue i).length ≤ (s.normalQueue source).length) ∧
        (∀ i, i ≠ c → i ≠ source → (balanceWhole c s).normalQueue i = s.normalQueue i) ∧
        ((balanceWhole c s).normalQueue c).length ≤ ((balanceWhole c s).normalQueue source).length ∧
        ((balanceWhole c s).normalQueue c = s.normalQueue c ∧
            ((balanceWhole c s).normalQueue source).Perm (s.normalQueue source) ∨
          ∃ t, allowsCore (s.tcb t).aux.cpuAffinity c = true ∧
            s.normalQueue source = t :: (balanceWhole c s).normalQueue source ∧
            (balanceWhole c s).normalQueue c = s.normalQueue c ++ [t])) := by
  refine ⟨?_, hcap.balanceWhole c, ?_⟩
  · rcases balanceWhole_cases hcap c with ⟨hsame, -⟩ | ⟨source, t, -, h⟩ | ⟨source, t, -, h⟩
    · rw [hsame]
    all_goals exact h.sum_queues
  · rcases balanceWhole_cases hcap c with
      ⟨hsame, -⟩ | ⟨source, t, hsteals, h⟩ | ⟨source, t, hrefuses, h⟩
    · rw [hsame]
      exact .inl rfl
    · obtain ⟨hne, hlongest⟩ := balanceSource_spec hsteals.1
      have hcons := h.cons
      rw [← h.taken hne] at hcons
      exact .inr ⟨source, hne, hlongest, fun i hc hi => h.other hi hc, (hsteals.lengths h).2.2,
        .inr ⟨t, hsteals.2.2, hcons, h.gained hne⟩⟩
    obtain ⟨hne, hlongest⟩ := balanceSource_spec hrefuses.1
    have hlen := length_of_picked hrefuses.2.1
    refine .inr ⟨source, hne, hlongest, fun i _ hi => h.other hi hi, ?_,
      .inl ⟨h.other hne.symm hne.symm, ?_⟩⟩
    · rw [h.length_eq, h.length_eq]
      omega
    · rw [h.rotated, h.cons]
      exact perm_append_singleton t _

def threeTasks : List (Action dualCore) :=
  bootBoth ++ replicate 3 ⟨cpu0, .addTask {}⟩

/-- Core 1 takes the first of them. -/
theorem balance_conservative_threeTasks : ∃ m : Machine dualCore,
    (system sv39 (bump 5) 1000).Reachable m ∧
      m.kernel.normalQueue cpu0 = [4, 5, 6] ∧
      (balanceWhole cpu1 m.kernel).normalQueue cpu1 = [4] ∧
      ∑ i, ((balanceWhole cpu1 m.kernel).normalQueue i : Multiset TaskPtr) =
        ∑ i, (m.kernel.normalQueue i : Multiset TaskPtr) := by
  obtain ⟨m, hm, hq₀, hq₁, hmoved⟩ := dualCore_reaches (fun _ _ => True) threeTasks
    (fun m => m.kernel.normalQueue cpu0 = [4, 5, 6] ∧ m.kernel.normalQueue cpu1 = [] ∧
      (balanceWhole cpu1 m.kernel).normalQueue cpu1 = [4]) (by decide)
  exact ⟨m, hm, hq₀, hmoved,
    (balance_conservative (withinCapacity_dualCore (congrArg length hq₀).le hq₁) cpu1).1⟩

/-! ## Steals that fail -/

/-- No task is put back, or it is the only one in its queue and its time slice is a new one. -/
def Harmless (c : N.Core) (s : State N) : Prop :=
  ∀ source t, Refuses c source t s → (∀ u ∈ s.normalQueue source, u = t) ∧
    (s.tcb t).schedInfo.timeSliceRemaining = (s.tcb t).schedInfo.timeSliceDefault

def Untouched (s s' : State N) : Prop :=
  s'.normalQueue = s.normalQueue ∧
    ∀ t, (s'.tcb t).schedInfo.timeSliceRemaining = (s.tcb t).schedInfo.timeSliceRemaining

theorem append_singleton_eq_cons_iff {α : Type*} {a : α} {l : List α} :
    l ++ [a] = a :: l ↔ ∀ b ∈ l, b = a := by
  induction l with
  | nil => simp
  | cons b l ih =>
    rw [cons_append, cons.injEq, forall_mem_cons]
    constructor
    · rintro ⟨rfl, h⟩
      exact ⟨rfl, ih.mp h⟩
    · rintro ⟨rfl, h⟩
      exact ⟨rfl, ih.mpr h⟩

theorem Requeued.untouched_iff (h : Requeued source source t s s') :
    Untouched s s' ↔ (∀ u ∈ s.normalQueue source, u = t) ∧
      (s.tcb t).schedInfo.timeSliceRemaining = (s.tcb t).schedInfo.timeSliceDefault := by
  have hqueue : s'.normalQueue source = s.normalQueue source ↔
      ∀ u ∈ s.normalQueue source, u = t := by
    rw [h.rotated, h.cons, tail_cons, append_singleton_eq_cons_iff, forall_mem_cons]
    exact (and_iff_right rfl).symm
  constructor
  · rintro ⟨hqueues, hslices⟩
    refine ⟨hqueue.mp (congrFun hqueues source), ?_⟩
    have hslice := hslices t
    rw [h.self] at hslice
    exact hslice.symm
  · rintro ⟨hall, hslice⟩
    refine ⟨?_, ?_⟩
    · funext i
      by_cases hi : i = source
      · rw [hi]
        exact hqueue.mpr hall
      · exact h.other hi hi
    · intro u
      by_cases hu : u = t
      · rw [hu, h.self]
        exact hslice.symm
      · rw [h.tcb u hu]

theorem untouched_iff_harmless (hcap : WithinCapacity s) (c : N.Core) :
    ((balanceWhole c s).normalQueue c = s.normalQueue c → Untouched s (balanceWhole c s)) ↔
      Harmless c s := by
  rcases balanceWhole_cases hcap c with
    ⟨hsame, hnone⟩ | ⟨source, t, hsteals, h⟩ | ⟨source, t, hrefuses, h⟩
  · rw [hsame]
    exact ⟨fun _ source t href => absurd href (hnone source t), fun _ _ => ⟨rfl, fun _ => rfl⟩⟩
  · refine ⟨fun _ source' u href => absurd href (hsteals.not_refuses source' u), ?_⟩
    intro _ heq
    have hlength := (hsteals.lengths h).1
    rw [heq] at hlength
    exact absurd hlength (Nat.ne_of_lt (Nat.lt_succ_self _))
  have hne := (balanceSource_spec hrefuses.1).1
  constructor
  · intro hprop source' u href
    obtain ⟨rfl, rfl⟩ := hrefuses.unique href
    exact h.untouched_iff.mp (hprop (h.other hne.symm hne.symm))
  · intro hharmless _
    exact h.untouched_iff.mpr (hharmless source t hrefuses)

def balanceSystem (start : State N) : Transition (State N) N.Core where
  init s := s = start
  step s c := some (balanceWhole c s)

theorem suffix_of_harmless (hcap : WithinCapacity s) (hi : c ≠ i) (hharmless : Harmless c s) :
    (balanceWhole c s).normalQueue i <:+ s.normalQueue i := by
  rcases balanceWhole_cases hcap c with
    ⟨hsame, -⟩ | ⟨source, t, hsteals, h⟩ | ⟨source, t, hrefuses, h⟩
  · rw [hsame]
  · by_cases hsource : i = source
    · subst hsource
      rw [h.taken hi.symm]
      exact tail_suffix _
    · rw [h.other hsource hi.symm]
  · have huntouched := h.untouched_iff.mpr (hharmless source t hrefuses)
    rw [huntouched.1]

/-- A steal that fails has no effect if and only if no task has to be put back. In runs of such
calls on the other cores, a task only gets closer to the head of its queue. -/
theorem failed_steal_untouched_iff (hcap : WithinCapacity s) :
    (∀ c, ((balanceWhole c s).normalQueue c = s.normalQueue c → Untouched s (balanceWhole c s)) ↔
      Harmless c s) ∧
    ∀ i s', (balanceSystem s).ReachableBy (fun s c => c ≠ i ∧ Harmless c s) s' →
      s'.normalQueue i <:+ s.normalQueue i := by
  refine ⟨untouched_iff_harmless hcap, ?_⟩
  intro i s' hreach
  have hinv : WithinCapacity s' ∧ s'.normalQueue i <:+ s.normalQueue i := by
    refine hreach.invariant (P := fun s' => WithinCapacity s' ∧
      s'.normalQueue i <:+ s.normalQueue i) ?_ ?_
    · rintro _ rfl
      exact ⟨hcap, suffix_rfl⟩
    · rintro s₁ c s₂ ⟨hcap₁, hsuffix⟩ ⟨hc, hharmless⟩ hstep
      cases hstep
      exact ⟨hcap₁.balanceWhole c, (suffix_of_harmless hcap₁ hc hharmless).trans hsuffix⟩
  exact hinv.2

/-- Core 1 steals the first of three tasks, and the others get closer to the head. -/
theorem failed_steal_untouched_stolen : ∃ m : Machine dualCore,
    (system sv39 (bump 5) 1000).Reachable m ∧ Steals cpu1 cpu0 4 m.kernel ∧
      Harmless cpu1 m.kernel ∧
      (balanceWhole cpu1 m.kernel).normalQueue cpu0 <:+ m.kernel.normalQueue cpu0 := by
  obtain ⟨m, hm, hq₀, hq₁, hsource, hpicked, hallows⟩ := dualCore_reaches
    (fun _ _ => True) threeTasks
    (fun m => m.kernel.normalQueue cpu0 = [4, 5, 6] ∧ m.kernel.normalQueue cpu1 = [] ∧
      balanceSource cpu1 m.kernel = some cpu0 ∧ picked cpu1 cpu0 m.kernel = some 4 ∧
      allowsCore (m.kernel.tcb 4).aux.cpuAffinity cpu1 = true) (by decide)
  have hcap := withinCapacity_dualCore (congrArg length hq₀).le hq₁
  have hharmless : Harmless cpu1 m.kernel := by
    rintro source t ⟨hsource', hpicked', hrefused⟩
    cases hsource.symm.trans hsource'
    cases hpicked.symm.trans hpicked'
    exact absurd (hallows.symm.trans hrefused) nofun
  have hstep : (balanceSystem m.kernel).ReachableBy (fun s c => c ≠ cpu0 ∧ Harmless c s)
      (balanceWhole cpu1 m.kernel) := .step (.init rfl) ⟨by decide, hharmless⟩ rfl
  exact ⟨m, hm, ⟨hsource, hpicked, hallows⟩, hharmless,
    (failed_steal_untouched_iff hcap).2 cpu0 _ hstep⟩

/-- Three tasks that may only run on core 0 wait there. Core 1 takes the first, and puts it back
behind the others. -/
theorem failed_steal_rotates : ∃ m : Machine dualCore,
    (system sv39 (bump 5) 1000).Reachable m ∧ WithinCapacity m.kernel ∧
      (balanceWhole cpu1 m.kernel).normalQueue cpu1 = m.kernel.normalQueue cpu1 ∧
      m.kernel.normalQueue cpu0 = [4, 5, 6] ∧
      (balanceWhole cpu1 m.kernel).normalQueue cpu0 = [5, 6, 4] := by
  obtain ⟨m, hm, hq₀, hq₁, hrotated, hsame⟩ := dualCore_reaches (fun _ _ => True)
    (bootBoth ++ replicate 3 ⟨cpu0, .addTask { aux := { cpuAffinity := 1 } }⟩)
    (fun m => m.kernel.normalQueue cpu0 = [4, 5, 6] ∧ m.kernel.normalQueue cpu1 = [] ∧
      (balanceWhole cpu1 m.kernel).normalQueue cpu0 = [5, 6, 4] ∧
      (balanceWhole cpu1 m.kernel).normalQueue cpu1 = m.kernel.normalQueue cpu1) (by decide)
  exact ⟨m, hm, withinCapacity_dualCore (congrArg length hq₀).le hq₁, hsame, hq₀, hrotated⟩

end SimpleKernel.TaskManager
