import Mathlib.Data.Finset.Card
import SimpleKernel.Verification.Task.Placement

/-! A ready task is in a ready queue, as long as no core has more tasks than a ready queue
can take. -/

namespace SimpleKernel.TaskManager

open VirtualMemory (CpuIo Allocator sv39 bump)

variable {N : CoreCount} {A : CpuIo} {al : Allocator A} {tick : ℕ} {m m' : Machine N}
  {a : Action N} {s : State N} {b b' : Board N} {c i : N.Core} {t : TaskPtr}

/-! ## The tasks of a core -/

namespace Board

open Classical in
noncomputable def residents (b : Board N) (c : N.Core) : Finset TaskPtr :=
  (Finset.range b.created).filter fun t => b.Near c t ∧ b.policy t ≠ .idle

theorem mem_residents (hinv : b.Inv) : t ∈ b.residents c ↔ b.Near c t ∧ b.policy t ≠ .idle := by
  simp only [residents, Finset.mem_filter, Finset.mem_range]
  exact ⟨fun h => h.2, fun h => ⟨hinv.created h.1, h⟩⟩

def Roomy (b : Board N) : Prop := ∀ c, (b.residents c).card ≤ maxReadyTasks

def Lossless (b : Board N) : Prop :=
  ∀ t, t < b.created → b.status t = .ready → b.policy t ≠ .idle →
    ∃ c, t ∈ b.holds (.ready c (b.policy t))

theorem card_ready_le (hinv : b.Inv) (c : N.Core) (p : SchedPolicy) {r : Finset TaskPtr}
    (hr : ∀ u ∈ b.holds (.ready c p), u ∈ r) : Multiset.card (b.holds (.ready c p)) ≤ r.card := by
  classical
  rw [← Multiset.toFinset_card_of_nodup (hinv.exclusive.nodup _)]
  exact Finset.card_le_card fun u hu => hr u (Multiset.mem_toFinset.mp hu)

theorem card_ready_lt (hinv : b.Inv) {p : SchedPolicy} (hfree : b.Free t) {r : Finset TaskPtr}
    (ht : t ∈ r) (hcard : r.card ≤ maxReadyTasks) (hr : ∀ u ∈ b.holds (.ready c p), u ∈ r) :
    Multiset.card (b.holds (.ready c p)) < maxReadyTasks := by
  have hle := card_ready_le hinv c p (r := r.erase t) fun u hu =>
    Finset.mem_erase.mpr ⟨fun h => hfree _ (h ▸ hu), hr u hu⟩
  have hpos := Finset.card_pos.mpr ⟨t, ht⟩
  rw [Finset.card_erase_of_mem ht] at hle
  omega

theorem mem_residents_of_ready (hinv : b.Inv) {p : SchedPolicy} (h : t ∈ b.holds (.ready c p)) :
    t ∈ b.residents c :=
  (mem_residents hinv).mpr ⟨near_of_mem h, (hinv.policy h).2 ▸ (hinv.policy h).1⟩

/-! ## Moves lose nothing -/

def LosslessBut (b : Board N) (t : TaskPtr) : Prop :=
  ∀ u, u ≠ t → u < b.created → b.status u = .ready → b.policy u ≠ .idle →
    ∃ c, u ∈ b.holds (.ready c (b.policy u))

theorem LosslessBut.enqueued (h : b.LosslessBut t) (he : Enqueued b i t b') (ho : b.online i)
    (hroom : b.policy t ≠ .idle →
      Multiset.card (b.holds (.ready i (b.policy t))) < maxReadyTasks) : b'.Lossless := by
  intro u hu hs hp
  cases he with
  | push _ _ =>
    by_cases hut : u = t
    · subst hut
      exact ⟨i, Holders.mem_put.mpr (.inl ⟨rfl, rfl⟩)⟩
    · obtain ⟨c, hc⟩ := h u hut hu hs hp
      exact ⟨c, Holders.mem_put.mpr (.inr hc)⟩
  | slot hidle _ =>
    by_cases hut : u = t
    · subst hut
      exact absurd hidle hp
    · exact h u hut hu hs hp
  | drop hfull =>
    by_cases hut : u = t
    · subst hut
      exact absurd (hroom hp) (hfull hp ho).not_gt
    · exact h u hut hu hs hp

theorem Lossless.but (h : b.Lossless) (t : TaskPtr) : b.LosslessBut t := fun u _ => h u

theorem Lossless.create_but (h : b.Lossless) (status : TaskStatus) (p : SchedPolicy)
    (r : ResourceId) : (b.create status p r).LosslessBut b.created := by
  intro u hu hlt hs hp
  obtain ⟨c, hc⟩ := h u (lt_of_le_of_ne (Nat.le_of_lt_succ hlt) hu)
    (by simpa [hu] using hs) (by simpa [hu] using hp)
  exact ⟨c, by simpa [hu] using hc⟩

section

variable (h : b.LosslessBut t)
include h

theorem LosslessBut.lossless (ht : b.status t ≠ .ready ∨ b.policy t = .idle) : b.Lossless := by
  intro u hu hs hp
  by_cases hut : u = t
  · subst hut
    rcases ht with ht | ht
    · exact absurd hs ht
    · exact absurd ht hp
  · exact h u hut hu hs hp

theorem LosslessBut.setStatus (status : TaskStatus) : (b.setStatus t status).LosslessBut t := by
  intro u hu hlt hs hp
  exact h u hu hlt (by simpa [hu] using hs) hp

theorem LosslessBut.take (k : Container N) : (b.take k t).LosslessBut t := by
  intro u hu hlt hs hp
  obtain ⟨c, hc⟩ := h u hu hlt hs hp
  exact ⟨c, (Holders.mem_take_of_ne hu).mpr hc⟩

theorem LosslessBut.put (k : Container N) : (b.put k t).LosslessBut t := by
  intro u hu hlt hs hp
  obtain ⟨c, hc⟩ := h u hu hlt hs hp
  exact ⟨c, Holders.mem_put.mpr (.inr hc)⟩

end

theorem Roomy.card_take_lt (hroom : b.Roomy) (hinv : b.Inv) {k : Container N} {p : SchedPolicy}
    (ht : t ∈ b.holds k) (hp : b.policy t ≠ .idle) :
    Multiset.card ((b.take k t).holds (.ready k.core p)) < maxReadyTasks := by
  refine card_ready_lt hinv.take (hinv.free_take ht) ((mem_residents hinv).mpr ⟨near_of_mem ht, hp⟩)
    (hroom k.core) fun u hu => ?_
  exact mem_residents_of_ready hinv (Holders.mem_of_mem_take hu)

theorem Lossless.arrival (h : b.Lossless) (hinv : b.Inv) (hroom : b.Roomy) (ha : Arrival b b')
    (hc : b'.created = b.created) : b'.Lossless := by
  cases ha with
  | @wakeBlocked i r t _ ht he =>
    refine LosslessBut.enqueued (t := t) ?_ he (hinv.online (near_of_mem ht)) fun hp => ?_
    · exact ((h.but t).take (.blocked i r)).setStatus _
    · exact hroom.card_take_lt hinv ht hp
  | @wakeSleeping i t _ ht he =>
    refine LosslessBut.enqueued (t := t) ?_ he (hinv.online (near_of_mem ht)) fun hp => ?_
    · exact ((h.but t).take (.sleeping i)).setStatus _
    · exact hroom.card_take_lt hinv ht hp
  | add he => exact absurd (he.created.symm.trans hc) (Nat.succ_ne_self _)
  | discard => exact absurd hc (Nat.succ_ne_self _)

theorem Lossless.move (h : b.Lossless) (hinv : b.Inv) (hroom : b.Roomy) (hm : Move c b b')
    (hc : b'.created = b.created) : b'.Lossless := by
  cases hm with
  | @yield t _ hr hs he =>
    refine ((h.but t).setStatus .ready).enqueued he (hinv.online (.inl hr)) fun hp => ?_
    exact card_ready_lt hinv (hinv.free_of_running hs) ((mem_residents hinv).mpr ⟨.inl hr, hp⟩)
      (hroom c) fun u hu => mem_residents_of_ready hinv hu
  | @pick t p _ ht =>
    refine (((h.but t).take (.ready c p)).setStatus ((b.status t).receive .schedule)).lossless
      (b := (b.take (.ready c p) t).setStatus t _) (.inl ?_)
    have hst : b.status t = .ready := hinv.status ht
    simp [hst, TaskStatus.receive]
  | @pickIdle t _ hslot =>
    exact ((h.but t).setStatus ((b.status t).receive .schedule)).lossless (.inr (hinv.slot hslot))
  | @block t r _ _ =>
    refine LosslessBut.lossless (t := t) (((h.but t).setStatus .blocked).put (.blocked c r))
      (.inl ?_)
    simp
  | @sleep t _ _ =>
    refine LosslessBut.lossless (t := t) (((h.but t).setStatus .sleeping).put (.sleeping c))
      (.inl ?_)
    simp
  | @exit t hasParent _ _ =>
    refine ((h.but t).setStatus _).lossless (.inl ?_)
    cases hasParent <;> simp [TaskStatus.receive]
  | arrival ha => exact h.arrival hinv hroom ha hc

/-! ## No core gets too many tasks -/

theorem card_residents_le {r : Finset TaskPtr} (hinv : b'.Inv)
    (hsub : ∀ t, b'.Near c t → b'.policy t ≠ .idle → t ∈ r) : (b'.residents c).card ≤ r.card :=
  Finset.card_le_card fun t ht =>
    hsub t ((mem_residents hinv).mp ht).1 ((mem_residents hinv).mp ht).2

theorem Roomy.move (h : b.Roomy) (hinv : b.Inv) (hm : Move c b b')
    (hc : b'.created = b.created) : b'.Roomy := by
  intro i
  have hinv' := hinv.move hm
  refine (card_residents_le hinv' fun t ht hp => ?_).trans (h i)
  have hlt : t < b.created := hc ▸ hinv'.created ht
  obtain ⟨_, hnear⟩ := hm.near
  rw [hm.policy_eq hlt] at hp
  exact (mem_residents hinv).mpr ⟨(hnear i t ht).resolve_right fun h => h.1.not_gt hlt, hp⟩

theorem Lossless.moves (h : b.Lossless) (hroom : b.Roomy) (hinv : b.Inv) (hm : Moves c b b')
    (hc : b'.created = b.created) : b'.Lossless ∧ b'.Roomy := by
  induction hm with
  | refl => exact ⟨h, hroom⟩
  | @tail b₁ b₂ hrest hstep ih =>
    have hle : b.created ≤ b₁.created := Moves.created_le hrest
    have hle' := hstep.created_le
    obtain ⟨hlossless, hroomy⟩ := ih (by omega)
    have hinv₁ := hinv.moves hrest
    exact ⟨hlossless.move hinv₁ hroomy hstep (by omega), hroomy.move hinv₁ hstep (by omega)⟩

theorem Roomy.of_near (h : b.Roomy) (hinv : b'.Inv)
    (hnear : ∀ j u, b'.Near j u → b'.policy u ≠ .idle → u ∈ b.residents j ∨ (u = t ∧ j = i))
    (hi : t ∈ b.residents i ∨ (b.residents i).card < maxReadyTasks) : b'.Roomy := by
  classical
  intro j
  by_cases hj : j = i ∧ t ∉ b.residents i
  · obtain ⟨rfl, ht⟩ := hj
    calc (b'.residents j).card ≤ (insert t (b.residents j)).card := by
          refine card_residents_le hinv fun u hu hp => ?_
          rcases hnear j u hu hp with h | ⟨rfl, -⟩
          · exact Finset.mem_insert_of_mem h
          · exact Finset.mem_insert_self ..
      _ ≤ (b.residents j).card + 1 := Finset.card_insert_le _ _
      _ ≤ maxReadyTasks := hi.resolve_left ht
  refine (card_residents_le hinv fun u hu hp => ?_).trans (h j)
  rcases hnear j u hu hp with h | ⟨rfl, rfl⟩
  · exact h
  · exact not_not.mp fun ht => hj ⟨rfl, ht⟩

section

variable (h : b.Lossless) (hroom : b.Roomy) (hinv : b.Inv)
include h hroom hinv

theorem Lossless.create {p : SchedPolicy}
    {r : ResourceId} (he : Enqueued (b.create .ready p r) i b.created b') (ho : b.online i)
    (hlt : (b.residents i).card < maxReadyTasks) : b'.Lossless ∧ b'.Roomy := by
  refine ⟨(h.create_but .ready p r).enqueued he ho fun _ => ?_,
    hroom.of_near (hinv.arrival (.add he)) (t := b.created) (i := i) (fun j u hu hp => ?_) (.inr hlt)⟩
  · refine (card_ready_le hinv i _ fun u hu => ?_).trans_lt hlt
    exact mem_residents_of_ready hinv hu
  · rcases he.near hu with hn | hn
    · have hne : u ≠ b.created := (hinv.created hn).ne
      rw [he.policy] at hp
      exact .inl ((mem_residents hinv).mpr ⟨hn, by simpa [hne] using hp⟩)
    · exact .inr hn

theorem Lossless.discard (p : SchedPolicy)
    (r : ResourceId) : (b.create .unInit p r).Lossless ∧ (b.create .unInit p r).Roomy := by
  have hinv' : (b.create .unInit p r).Inv := hinv.create nofun
  refine ⟨(h.create_but .unInit p r).lossless (.inl (by simp)),
    fun j => (card_residents_le hinv' fun u hu hp => ?_).trans (hroom j)⟩
  · have hne : u ≠ b.created := (hinv.created (show b.Near j u from hu)).ne
    exact (mem_residents hinv).mpr ⟨hu, by simpa [hne] using hp⟩

theorem Lossless.steal {source : N.Core} (hs : Steal source i t b b') (ho : b.online i)
    (hi : i = source ∨ (b.residents i).card < maxReadyTasks) : b'.Lossless ∧ b'.Roomy := by
  have htake : ((b.take (.ready source .normal) t).LosslessBut t) := (h.but t).take _
  refine ⟨htake.enqueued hs.2 ho fun hp => ?_,
    hroom.of_near (hinv.steal hs) (t := t) (i := i) (fun j u hu hp => ?_) ?_⟩
  · rcases hi with rfl | hlt
    · exact hroom.card_take_lt hinv hs.1 hp
    · refine (card_ready_le hinv.take i _ fun u hu => ?_).trans_lt hlt
      exact mem_residents_of_ready hinv (Holders.mem_of_mem_take hu)
  · rcases hs.2.near hu with hn | hn
    · rw [hs.2.policy] at hp
      exact .inl ((mem_residents hinv).mpr ⟨near_take hn, hp⟩)
    · exact .inr hn
  · rcases hi with rfl | hlt
    · exact .inl (mem_residents_of_ready hinv hs.1)
    · exact .inr hlt

theorem Lossless.start (hoff : ¬ b.online c) : (b.start c).Lossless ∧ (b.start c).Roomy := by
  have hold : ∀ {u}, u < b.created + 2 → (b.start c).policy u ≠ .idle → u < b.created := by
    intro u hu hp
    refine lt_of_le_of_ne (Nat.le_of_lt_succ (lt_of_le_of_ne (Nat.le_of_lt_succ hu) ?_)) ?_
    all_goals
      rintro rfl
      simp at hp
  refine ⟨fun u hu hs hp => ?_, fun j => (card_residents_le (hinv.start hoff) fun u hu hp => ?_).trans
    (hroom j)⟩
  · have hlt := hold hu hp
    obtain ⟨hstatus, hpolicy⟩ := start_of_lt c hlt
    rw [hpolicy] at hp ⊢
    exact h u hlt (hstatus.symm.trans hs) hp
  · have hlt := hold ((hinv.start hoff).created hu) hp
    rw [(start_of_lt c hlt).2] at hp
    rcases near_start hu with hn | ⟨-, hle, -⟩
    · exact (mem_residents hinv).mpr ⟨hn, hp⟩
    · exact absurd hlt hle.not_gt

end

end Board

/-! ## The population of the cores -/

def State.residents (s : State N) (c : N.Core) : List TaskPtr :=
  ((s.currentTask c).toList ++ (s.containersOf c).flatMap (Container.list s)).filter
    fun t => (s.tcb t).policy ≠ .idle

def State.population (s : State N) (c : N.Core) : ℕ := (s.residents c).dedup.length

theorem mem_state_residents (hinv : s.board.Inv) : t ∈ s.residents c ↔ t ∈ s.board.residents c := by
  rw [Board.mem_residents hinv]
  simp only [State.residents, List.mem_filter, List.mem_append, Option.mem_toList, List.mem_flatMap,
    decide_eq_true_eq]
  refine and_congr_left fun hp => ⟨?_, ?_⟩
  · rintro (h | ⟨k, hk, ht⟩)
    · exact .inl h
    · refine .inr (.inr ⟨k, core_of_mem_containersOf hk, ?_⟩)
      rw [holds_eq_list]
      exact Multiset.mem_coe.mpr ht
  · rintro (h | h | ⟨k, rfl, hk⟩)
    · exact .inl h
    · exact absurd (hinv.slot h) hp
    · rw [holds_eq_list] at hk
      exact .inr ⟨k, mem_containersOf (Multiset.mem_coe.mp hk), Multiset.mem_coe.mp hk⟩

theorem card_residents (hinv : s.board.Inv) (c : N.Core) :
    (s.board.residents c).card = s.population c := by
  rw [State.population, ← List.card_toFinset]
  refine congrArg Finset.card (Finset.ext fun t => ?_)
  rw [List.mem_toFinset, mem_state_residents hinv]

/-- A new task is not of policy `kIdle` and goes to an initialised core that has room for one
more task; `Balance` steals only for a core that has such room. -/
def Machine.hasPlace (m : Machine N) (a : Action N) : Bool :=
  ((m.newTask a).all fun (_, policy, target) => policy ≠ .idle &&
    (m.kernel.cpuSchedulers target).schedulers.isSome &&
    m.kernel.population target < maxReadyTasks) &&
  match m.pc a.core with
  | .balance source _ =>
    (stolen a.core source m.kernel).isNone || m.kernel.population a.core < maxReadyTasks
  | _ => true

/-! ## Runs -/

structure Machine.Supplied (m : Machine N) : Prop extends m.Safe where
  lossless : m.kernel.board.Lossless
  roomy : m.kernel.board.Roomy
  table : ∀ {p t}, m.kernel.taskTable.lookup p = some t →
    t < m.kernel.nextTask ∧ m.kernel.board.policy t ≠ .idle

namespace Machine.Supplied

variable (h : m.Supplied)
include h

theorem balance {source : N.Core} {needPreempt : Bool} (hok : m.hasPlace a)
    (hpc : m.pc a.core = .balance source needPreempt) :
    (balance a.core source m.kernel).board.Lossless ∧
      (TaskManager.balance a.core source m.kernel).board.Roomy := by
  have honline := h.online (c := a.core) (by rw [hpc]; nofun)
  rcases balance_board h.inv a.core source with hb | ⟨t, hb⟩ | ⟨t, ht, hb⟩
  · rw [hb]
    exact ⟨h.lossless, h.roomy⟩
  · exact h.lossless.steal h.roomy h.inv hb (h.inv.online (Board.near_of_mem hb.1)) (.inl rfl)
  refine h.lossless.steal h.roomy h.inv hb honline (.inr ?_)
  rw [card_residents h.inv]
  simp only [Machine.hasPlace, hpc, ht, Option.isNone_some, Bool.false_or, Bool.and_eq_true,
    decide_eq_true_eq] at hok
  exact hok.2

theorem enter {pid : Pid} {policy : SchedPolicy} {target : N.Core} (hok : m.hasPlace a)
    (ha : Admits A al m a m' pid policy target) :
    m'.kernel.board.Lossless ∧ m'.kernel.board.Roomy := by
  simp only [Machine.hasPlace, ha.newTask, Option.all_some, Bool.and_eq_true,
    decide_eq_true_eq] at hok
  obtain ⟨⟨⟨-, honline⟩, hlt⟩, -⟩ := hok
  rw [← card_residents h.inv] at hlt
  rcases ha.admitted.board with ⟨r, hb⟩ | ⟨r, he⟩
  · rw [hb]
    exact h.lossless.discard h.roomy h.inv policy r
  · exact h.lossless.create h.roomy h.inv he honline hlt

theorem board_step (hok : m.hasPlace a) (hstep : Step A al m a m') :
    m'.kernel.board.Lossless ∧ m'.kernel.board.Roomy := by
  have hsame : m'.kernel.board = m.kernel.board →
      m'.kernel.board.Lossless ∧ m'.kernel.board.Roomy := by
    intro hb
    rw [hb]
    exact ⟨h.lossless, h.roomy⟩
  cases hstep with
  | plain hp => exact h.lossless.moves h.roomy h.inv hp.change.moves hp.change.frame.nextTask
  | schedule hs => exact h.lossless.moves h.roomy h.inv hs.effect.moves hs.effect.frame.nextTask
  | switchTo _ _ _ hk => exact hsame (by rw [hk])
  | balance hpc => exact h.balance hok hpc
  | select => exact hsame rfl
  | @reap _ t _ hk => exact hsame (by rw [hk, (reap_spec A t m.kernel).1])
  | enter ha => exact h.enter hok ha
  | init hpc hk =>
    rw [(h.init_board hpc hk).1]
    exact h.lossless.start h.roomy h.inv ((h.off a.core).mp hpc)

theorem step (hok : m.hasPlace a) (hs : next A al tick m a = some m') : m'.Supplied := by
  have hstep := next_step h.toSafe hs
  have hf := (next_exec hs).files h.toSafe
  obtain ⟨hlossless, hroomy⟩ := h.board_step hok hstep
  refine ⟨h.toSafe.step hstep, hlossless, hroomy, fun {p t} ht => ?_⟩
  rcases hf.lookup_cases ht with hold | ⟨rfl, policy, target, hnew, he⟩
  · obtain ⟨hlt, hp⟩ := h.table hold
    rw [hstep.policy_eq h.toSafe hlt]
    exact ⟨hlt.trans_le hf.created_le, hp⟩
  · simp only [Machine.hasPlace, hnew, Option.all_some, Bool.and_eq_true, decide_eq_true_eq] at hok
    rw [he.created, he.policy]
    exact ⟨Nat.lt_succ_self _, hok.1.1.1⟩

end Machine.Supplied

theorem Machine.Initial.supplied (h : m.Initial) : m.Supplied := by
  have hsafe := h.safe
  obtain ⟨memory, rfl⟩ := h
  refine ⟨hsafe, fun t ht => absurd ht (Nat.not_lt_zero t), fun c => ?_, fun ht => ?_⟩
  · exact Nat.zero_le _
  · simp at ht

/-- In every run in which new and stolen tasks find a place, the ready tasks of the table are
held by ready queues or are run. -/
theorem ready_not_lost (A : CpuIo) (al : Allocator A) (tick : ℕ) {m : Machine N}
    (h : (system A al tick).ReachableBy (fun m a => m.hasPlace a) m) :
    ∀ t ∈ m.kernel.tasks, (m.kernel.tcb t).status = .ready → ∃ c,
      (∃ p, t ∈ (m.kernel.cpuSchedulers c).readyQueue p) ∨ m.kernel.currentTask c = some t := by
  have hm : m.Supplied := h.invariant (P := Machine.Supplied)
    (fun _ hm => Machine.Initial.supplied hm)
    fun _ _ _ hm hok hs => hm.step hok hs
  intro t ht hs
  obtain ⟨p, hp⟩ := mem_tasks.mp ht
  obtain ⟨hlt, hpol⟩ := hm.table hp
  obtain ⟨c, hc⟩ := hm.lossless t hlt hs hpol
  exact ⟨c, .inl ⟨_, Multiset.mem_coe.mp hc⟩⟩

/-- Task 4 blocks on core 0, and core 1 wakes it. -/
theorem ready_not_lost_woken : ∃ m : Machine dualCore,
    (system sv39 (bump 5) 1000).ReachableBy (fun m a => m.hasPlace a) m ∧
      (m.kernel.tcb 4).status = .ready ∧ ∃ c,
        (∃ p, 4 ∈ (m.kernel.cpuSchedulers c).readyQueue p) ∨ m.kernel.currentTask c = some 4 := by
  obtain ⟨m, hm, hp⟩ := dualCore_reaches (fun m a => m.hasPlace a)
    (bootBoth ++ blockOnCore0 ++ [goOn cpu0, goOn cpu0, ⟨cpu1, .wakeup (.of .mutex 7)⟩, goOn cpu1])
    (fun m => 4 ∈ m.kernel.tasks ∧ (m.kernel.tcb 4).status = .ready) (by decide)
  exact ⟨m, hm, hp.2, ready_not_lost sv39 (bump 5) 1000 hm 4 hp.1 hp.2⟩

/-- Core 0 adds a task for core 1, which has no schedulers yet. -/
theorem ready_lost_offline : ¬ ∀ m : Machine dualCore,
    (system sv39 (bump 5) 1000).ReachableBy (fun m a => m.undisturbed a) m →
      ∀ t ∈ m.kernel.tasks, (m.kernel.tcb t).status = .ready → ∃ c,
        (∃ p, t ∈ (m.kernel.cpuSchedulers c).readyQueue p) ∨ m.kernel.currentTask c = some t := by
  intro hall
  obtain ⟨m, hm, hmem, hready, hparked, hcur⟩ := dualCore_reaches (fun m a => m.undisturbed a)
    [⟨cpu0, .initCurrentCore⟩, ⟨cpu0, .addTask { aux := { cpuAffinity := 2 } }⟩]
    (fun m => 2 ∈ m.kernel.tasks ∧ (m.kernel.tcb 2).status = .ready ∧ 2 ∉ m.kernel.parked ∧
      ∀ c, m.kernel.currentTask c ≠ some 2) (by decide)
  obtain ⟨c, ⟨p, hq⟩ | hr⟩ := hall m hm 2 hmem hready
  · exact hparked (mem_parked (k := .ready c p) hq)
  · exact hcur c hr

end SimpleKernel.TaskManager
