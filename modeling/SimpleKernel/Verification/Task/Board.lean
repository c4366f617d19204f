import Mathlib.Logic.Relation
import SimpleKernel.Model.Task.Scheduler
import SimpleKernel.Shared.Holders

/-! What scheduling is about: the status of every task and the place where it is kept. The
moves on such a board are what the critical sections of the task manager are made of. -/

namespace SimpleKernel.TaskManager

open Function Holders

/-- The containers that keep tasks: a core's ready queues, its sleeping tasks, and its lists
of blocked tasks. -/
inductive Container (N : CoreCount) where
  | ready (c : N.Core) (policy : SchedPolicy)
  | sleeping (c : N.Core)
  | blocked (c : N.Core) (resourceId : ResourceId)
  deriving DecidableEq

variable {N : CoreCount}

namespace Container

def core : Container N → N.Core
  | ready c _ => c
  | sleeping c => c
  | blocked c _ => c

def status : Container N → TaskStatus
  | ready .. => .ready
  | sleeping .. => .sleeping
  | blocked .. => .blocked

theorem status_ne_running (k : Container N) : k.status ≠ .running := by
  cases k <;> nofun

end Container

/-- `slot` is the task of a core's idle scheduler, `created` the number of tasks so far. -/
@[ext]
structure Board (N : CoreCount) where
  status : TaskPtr → TaskStatus
  policy : TaskPtr → SchedPolicy
  blockedOn : TaskPtr → ResourceId
  holds : Container N → Multiset TaskPtr
  slot : N.Core → Option TaskPtr
  running : N.Core → Option TaskPtr
  online : N.Core → Prop
  created : ℕ

namespace Board

def setStatus (b : Board N) (t : TaskPtr) (status : TaskStatus) : Board N :=
  { b with status := update b.status t status }

def setBlockedOn (b : Board N) (t : TaskPtr) (resourceId : ResourceId) : Board N :=
  { b with blockedOn := update b.blockedOn t resourceId }

def put (b : Board N) (k : Container N) (t : TaskPtr) : Board N :=
  { b with holds := Holders.put b.holds k t }

def take (b : Board N) (k : Container N) (t : TaskPtr) : Board N :=
  { b with holds := Holders.take b.holds k t }

def setSlot (b : Board N) (c : N.Core) (t : TaskPtr) : Board N :=
  { b with slot := update b.slot c (some t) }

def setRunning (b : Board N) (c : N.Core) (t : TaskPtr) : Board N :=
  { b with running := update b.running c (some t) }

def create (b : Board N) (status : TaskStatus) (policy : SchedPolicy) (resourceId : ResourceId) :
    Board N :=
  { b with
    status := update b.status b.created status
    policy := update b.policy b.created policy
    blockedOn := update b.blockedOn b.created resourceId
    created := b.created + 1 }

attribute [simps] setStatus setBlockedOn put take setSlot setRunning create

/-- The core knows the task: it runs it or keeps it somewhere. -/
def Near (b : Board N) (c : N.Core) (t : TaskPtr) : Prop :=
  b.running c = some t ∨ b.slot c = some t ∨ ∃ k : Container N, k.core = c ∧ t ∈ b.holds k

def Free (b : Board N) (t : TaskPtr) : Prop := ∀ k, t ∉ b.holds k

end Board

/-! ## Moves -/

/-- The outcome of an `Enqueue` on core `c`. A task is dropped by a full queue, or by a core
without schedulers; a task of policy `kIdle` may also not be enqueued at all. -/
inductive Enqueued (b : Board N) (c : N.Core) (t : TaskPtr) : Board N → Prop where
  | push : b.policy t ≠ .idle → b.online c → Enqueued b c t (b.put (.ready c (b.policy t)) t)
  | slot : b.policy t = .idle → b.online c → Enqueued b c t (b.setSlot c t)
  | drop : (b.policy t ≠ .idle → b.online c →
      maxReadyTasks ≤ Multiset.card (b.holds (.ready c (b.policy t)))) → Enqueued b c t b

/-- A task that no core runs enters a ready queue, or a task is created in vain. -/
inductive Arrival (b : Board N) : Board N → Prop where
  | wakeBlocked {i r t b'} : t ∈ b.holds (.blocked i r) →
      Enqueued (((b.take (.blocked i r) t).setStatus t ((b.status t).receive .wakeup)).setBlockedOn
        t {}) i t b' → Arrival b b'
  | wakeSleeping {i t b'} : t ∈ b.holds (.sleeping i) →
      Enqueued ((b.take (.sleeping i) t).setStatus t ((b.status t).receive .wakeup)) i t b' →
      Arrival b b'
  | add {i p r b'} : Enqueued (b.create .ready p r) i b.created b' → Arrival b b'
  | discard {p r} : Arrival b (b.create .unInit p r)

/-- What the code that runs on core `c` does to the board, one task at a time. -/
inductive Move (c : N.Core) (b : Board N) : Board N → Prop where
  | yield {t b'} : b.running c = some t → b.status t = .running →
      Enqueued (b.setStatus t .ready) c t b' → Move c b b'
  | pick {t p} : (∀ u, b.running c = some u → b.status u ≠ .running) →
      t ∈ b.holds (.ready c p) →
      Move c b (((b.take (.ready c p) t).setRunning c t).setStatus t
        ((b.status t).receive .schedule))
  | pickIdle {t} : (∀ u, b.running c = some u → b.status u ≠ .running) → b.slot c = some t →
      Move c b ((b.setRunning c t).setStatus t ((b.status t).receive .schedule))
  | block {t} (r) : b.running c = some t → b.status t = .running →
      Move c b (((b.setStatus t .blocked).setBlockedOn t r).put (.blocked c r) t)
  | sleep {t} : b.running c = some t → b.status t = .running →
      Move c b ((b.setStatus t .sleeping).put (.sleeping c) t)
  | exit {t} (hasParent) : b.running c = some t → b.status t = .running →
      Move c b (b.setStatus t (TaskStatus.running.receive (.exit hasParent)))
  | arrival {b'} : Arrival b b' → Move c b b'

def Board.start (b : Board N) (c : N.Core) : Board N :=
  { ((b.create .running .idle {}).create .ready .idle {}) with
    running := update b.running c (some b.created)
    slot := update b.slot c (some (b.created + 1))
    online := fun i => i = c ∨ b.online i }

attribute [simps] Board.start

def Steal (source i : N.Core) (t : TaskPtr) (b b' : Board N) : Prop :=
  t ∈ b.holds (.ready source .normal) ∧ Enqueued (b.take (.ready source .normal) t) i t b'

/-! ## The invariant of the board -/

/-- Every container keeps the tasks that its status, policy and resource say, nobody keeps a
task twice, and a running task is run by some core. -/
structure Board.Inv (b : Board N) : Prop where
  exclusive : Exclusive b.holds
  status : ∀ {k t}, t ∈ b.holds k → b.status t = k.status
  policy : ∀ {c p t}, t ∈ b.holds (.ready c p) → p ≠ .idle ∧ b.policy t = p
  blockedOn : ∀ {c r t}, t ∈ b.holds (.blocked c r) → b.blockedOn t = r
  slot : ∀ {c t}, b.slot c = some t → b.policy t = .idle
  running : ∀ {t}, b.status t = .running → ∃ c, b.running c = some t
  online : ∀ {c t}, b.Near c t → b.online c
  created : ∀ {c t}, b.Near c t → t < b.created
  staffed : ∀ {c}, b.online c → (b.slot c).isSome ∧ (b.running c).isSome

namespace Board

variable {b b' : Board N} {c i : N.Core} {t u : TaskPtr} {k : Container N}

theorem near_of_mem (h : t ∈ b.holds k) : b.Near k.core t := .inr (.inr ⟨k, rfl, h⟩)

theorem Inv.free_of_running (h : b.Inv) (ht : b.status t = .running) : b.Free t :=
  fun k hk => k.status_ne_running ((h.status hk).symm.trans ht)

theorem Inv.free_take (h : b.Inv) (ht : t ∈ b.holds k) : (b.take k t).Free t :=
  fun _ hk => ((h.exclusive.mem_take ht).mp hk).2 rfl

theorem near_take (h : (b.take k t).Near i u) : b.Near i u := by
  rcases h with h | h | ⟨k', hk', h⟩
  · exact .inl h
  · exact .inr (.inl h)
  · exact .inr (.inr ⟨k', hk', mem_of_mem_take h⟩)

theorem near_put (h : (b.put k t).Near i u) : b.Near i u ∨ (u = t ∧ i = k.core) := by
  rcases h with h | h | ⟨k', hk', h⟩
  · exact .inl (.inl h)
  · exact .inl (.inr (.inl h))
  rcases mem_put.mp h with ⟨rfl, rfl⟩ | h
  · exact .inr ⟨rfl, hk'.symm⟩
  · exact .inl (.inr (.inr ⟨k', hk', h⟩))

theorem eq_some_of_update {f : N.Core → Option TaskPtr} (h : update f c (some t) i = some u) :
    f i = some u ∨ (u = t ∧ i = c) := by
  by_cases hi : i = c
  · rw [hi, update_self] at h
    exact .inr ⟨(Option.some.inj h).symm, hi⟩
  · rw [update_of_ne hi] at h
    exact .inl h

theorem near_setSlot (h : (b.setSlot c t).Near i u) : b.Near i u ∨ (u = t ∧ i = c) := by
  rcases h with h | h | h
  · exact .inl (.inl h)
  · exact (eq_some_of_update h).imp_left (.inr ∘ .inl)
  · exact .inl (.inr (.inr h))

theorem near_setRunning (h : (b.setRunning c t).Near i u) : b.Near i u ∨ (u = t ∧ i = c) := by
  rcases h with h | h | h
  · exact (eq_some_of_update h).imp_left .inl
  · exact .inl (.inr (.inl h))
  · exact .inl (.inr (.inr h))

/-! ### The parts of a move -/

theorem near_start (hn : (b.start c).Near i t) :
    b.Near i t ∨ (i = c ∧ b.created ≤ t ∧ t < b.created + 2) := by
  rcases hn with hn | hn | hn
  · refine (eq_some_of_update hn).imp .inl ?_
    rintro ⟨rfl, hi⟩
    exact ⟨hi, le_rfl, Nat.lt_add_of_pos_right Nat.two_pos⟩
  · refine (eq_some_of_update hn).imp (.inr ∘ .inl) ?_
    rintro ⟨rfl, hi⟩
    exact ⟨hi, Nat.le_succ _, Nat.lt_succ_self _⟩
  · exact .inl (.inr (.inr hn))

theorem start_of_lt (c : N.Core) (ht : t < b.created) :
    (b.start c).status t = b.status t ∧ (b.start c).policy t = b.policy t := by
  simp [ht.ne, (Nat.lt_succ_of_lt ht).ne]

section

variable (h : b.Inv)
include h

theorem Inv.take : (b.take k t).Inv where
  __ := h
  exclusive := h.exclusive.take
  status hk := h.status (mem_of_mem_take hk)
  policy hk := h.policy (mem_of_mem_take hk)
  blockedOn hk := h.blockedOn (mem_of_mem_take hk)
  online hn := h.online (near_take hn)
  created hn := h.created (near_take hn)

theorem Inv.setStatus (hfree : b.Free t) {status : TaskStatus}
    (hr : status = .running → ∃ c, b.running c = some t) : (b.setStatus t status).Inv where
  __ := h
  status {k u} hk := by
    have hne : u ≠ t := fun e => hfree k (e ▸ hk)
    simpa [hne] using h.status hk
  running {u} hu := by
    by_cases hne : u = t
    · subst hne
      exact hr (by simpa using hu)
    · exact h.running (by simpa [hne] using hu)

theorem Inv.retire (hfree : b.Free t) (status : TaskStatus) (hs : status ≠ .running) :
    (b.setStatus t status).Inv :=
  h.setStatus hfree fun he => absurd he hs

theorem Inv.setBlockedOn (hfree : b.Free t) (r : ResourceId) :
    (b.setBlockedOn t r).Inv where
  __ := h
  blockedOn {c r u} hk := by
    have hne : u ≠ t := fun e => hfree _ (e ▸ hk)
    simpa [hne] using h.blockedOn hk

theorem Inv.put (k : Container N) (hfree : b.Free t) (hs : b.status t = k.status)
    (hp : ∀ c p, k = .ready c p → p ≠ .idle ∧ b.policy t = p)
    (hb : ∀ c r, k = .blocked c r → b.blockedOn t = r) (ho : b.online k.core)
    (hc : t < b.created) : (b.put k t).Inv where
  __ := h
  exclusive := h.exclusive.put hfree
  status {k' u} hk := by
    rcases mem_put.mp hk with ⟨rfl, rfl⟩ | hk
    · exact hs
    · exact h.status hk
  policy {c p u} hk := by
    rcases mem_put.mp hk with ⟨he, rfl⟩ | hk
    · exact hp c p he.symm
    · exact h.policy hk
  blockedOn {c r u} hk := by
    rcases mem_put.mp hk with ⟨he, rfl⟩ | hk
    · exact hb c r he.symm
    · exact h.blockedOn hk
  online hn := by
    rcases near_put hn with hn | ⟨-, rfl⟩
    · exact h.online hn
    · exact ho
  created hn := by
    rcases near_put hn with hn | ⟨rfl, -⟩
    · exact h.created hn
    · exact hc

theorem Inv.setSlot (hp : b.policy t = .idle) (ho : b.online c)
    (hc : t < b.created) : (b.setSlot c t).Inv where
  __ := h
  slot hs := by
    rcases eq_some_of_update hs with hs | ⟨rfl, -⟩
    · exact h.slot hs
    · exact hp
  online hn := by
    rcases near_setSlot hn with hn | ⟨-, rfl⟩
    · exact h.online hn
    · exact ho
  created hn := by
    rcases near_setSlot hn with hn | ⟨rfl, -⟩
    · exact h.created hn
    · exact hc
  staffed {i} hi := by
    refine ⟨?_, (h.staffed hi).2⟩
    by_cases hic : i = c
    · simp [hic]
    · simpa [hic] using (h.staffed hi).1

theorem Inv.setRunning (hcur : ∀ u, b.running c = some u → b.status u ≠ .running)
    (ho : b.online c) (hc : t < b.created) : (b.setRunning c t).Inv where
  __ := h
  running {u} hu := by
    obtain ⟨i, hi⟩ := h.running hu
    have hic : i ≠ c := by
      rintro rfl
      exact hcur u hi hu
    exact ⟨i, by simpa [hic] using hi⟩
  online hn := by
    rcases near_setRunning hn with hn | ⟨-, rfl⟩
    · exact h.online hn
    · exact ho
  created hn := by
    rcases near_setRunning hn with hn | ⟨rfl, -⟩
    · exact h.created hn
    · exact hc
  staffed {i} hi := by
    refine ⟨(h.staffed hi).1, ?_⟩
    by_cases hic : i = c
    · simp [hic]
    · simpa [hic] using (h.staffed hi).2

theorem Inv.create {status : TaskStatus} {p : SchedPolicy} {r : ResourceId}
    (hs : status ≠ .running) : (b.create status p r).Inv := by
  have hnew : ∀ {c t}, b.Near c t → t ≠ b.created := fun hn => (h.created hn).ne
  refine
    { h with
      status := fun {k t} hk => ?_
      policy := fun {c p t} hk => ?_
      blockedOn := fun {c r t} hk => ?_
      slot := fun {c t} hs => ?_
      running := fun {t} ht => ?_
      created := fun hn => Nat.lt_succ_of_lt (h.created hn) }
  · simpa [hnew (near_of_mem hk)] using h.status hk
  · simpa [hnew (near_of_mem hk)] using h.policy hk
  · simpa [hnew (near_of_mem hk)] using h.blockedOn hk
  · simpa [hnew (.inr (.inl hs))] using h.slot hs
  · by_cases hne : t = b.created
    · exact absurd (by simpa [hne] using ht) hs
    · exact h.running (by simpa [hne] using ht)

/-! ### Whole moves -/

theorem Inv.enqueued (hfree : b.Free t) (hs : b.status t = .ready)
    (hc : t < b.created) (he : Enqueued b c t b') : b'.Inv := by
  cases he with
  | push hp ho =>
    refine h.put (.ready c (b.policy t)) hfree hs (fun i p hk => ?_) (by nofun) ho hc
    cases hk
    exact ⟨hp, rfl⟩
  | slot hp ho => exact h.setSlot hp ho hc
  | drop => exact h

theorem Inv.start (hoff : ¬ b.online c) : (b.start c).Inv := by
  have hnew : ∀ {i t}, b.Near i t → t ≠ b.created ∧ t ≠ b.created + 1 := fun hn =>
    ⟨(h.created hn).ne, (Nat.lt_succ_of_lt (h.created hn)).ne⟩
  have hne : ∀ {i t}, b.Near i t → i ≠ c := by
    rintro i t hn rfl
    exact hoff (h.online hn)
  refine
    { exclusive := h.exclusive
      status := fun {k t} hk => ?_
      policy := fun {i p t} hk => ?_
      blockedOn := fun {i r t} hk => ?_
      slot := fun {i t} hs => ?_
      running := fun {t} ht => ?_
      online := fun {i t} hn => ?_
      created := fun {i t} hn => ?_
      staffed := fun {i} hi => ?_ }
  · simpa [hnew (near_of_mem hk)] using h.status hk
  · simpa [hnew (near_of_mem hk)] using h.policy hk
  · simpa [hnew (near_of_mem hk)] using h.blockedOn hk
  · rcases eq_some_of_update hs with hs | ⟨rfl, -⟩
    · simpa [hnew (.inr (.inl hs))] using h.slot hs
    · simp
  · by_cases ht₁ : t = b.created + 1
    · simp [ht₁] at ht
    by_cases ht₀ : t = b.created
    · exact ⟨c, by simp [ht₀]⟩
    obtain ⟨i, hi⟩ :=
      h.running (t := t) (by simpa [ht₀, ht₁] using ht)
    exact ⟨i, by simpa [hne (.inl hi)] using hi⟩
  · rcases near_start hn with hn | ⟨hi, -⟩
    · exact .inr (h.online hn)
    · exact .inl hi
  · rcases near_start hn with hn | ⟨-, -, hlt⟩
    · exact Nat.lt_add_right 2 (h.created hn)
    · exact hlt
  · by_cases hic : i = c
    · simp [hic]
    · simpa [hic] using h.staffed (hi.resolve_left hic)

theorem Inv.schedule_idle (hp : b.policy t = .idle) (hr : ∃ c, b.running c = some t) :
    (b.setStatus t ((b.status t).receive .schedule)).Inv := by
  by_cases hfree : b.Free t
  · exact h.setStatus hfree fun _ => hr
  obtain ⟨k, hk⟩ := not_forall_not.mp hfree
  have hsame : (b.status t).receive .schedule = b.status t := by
    have hs := h.status hk
    cases k with
    | ready c p => exact absurd ((h.policy hk).2.symm.trans hp) (h.policy hk).1
    | sleeping c => rw [hs]; rfl
    | blocked c r => rw [hs]; rfl
  rwa [hsame, Board.setStatus, update_eq_self]

theorem Inv.arrival (ha : Arrival b b') : b'.Inv := by
  cases ha with
  | @wakeBlocked i r t _ ht he =>
    have hfree := h.free_take ht
    have hready : (b.status t).receive .wakeup = .ready := by rw [h.status ht]; rfl
    rw [hready] at he
    exact ((h.take.retire hfree .ready nofun).setBlockedOn hfree _).enqueued hfree
      (by simp) (h.created (near_of_mem ht)) he
  | @wakeSleeping i t _ ht he =>
    have hfree := h.free_take ht
    have hready : (b.status t).receive .wakeup = .ready := by rw [h.status ht]; rfl
    rw [hready] at he
    exact (h.take.retire hfree .ready nofun).enqueued hfree (by simp)
      (h.created (near_of_mem ht)) he
  | @add i p r _ he =>
    have hnew : (b.create .ready p r).Inv := h.create nofun
    exact hnew.enqueued (fun k hk => (h.created (near_of_mem hk)).ne rfl)
      (by simp) (Nat.lt_succ_self _) he
  | discard => exact h.create nofun

theorem Inv.move (hm : Move c b b') : b'.Inv := by
  cases hm with
  | @yield t _ hr hs he =>
    have hfree := h.free_of_running hs
    exact (h.retire hfree .ready nofun).enqueued hfree (by simp)
      (h.created (.inl hr)) he
  | @pick t p hcur ht =>
    have hn : b.Near c t := near_of_mem ht
    exact (h.take.setRunning hcur (h.online hn) (h.created hn)).setStatus (h.free_take ht)
      fun _ => ⟨c, by simp⟩
  | @pickIdle t hcur ht =>
    have hn : b.Near c t := .inr (.inl ht)
    exact (h.setRunning hcur (h.online hn) (h.created hn)).schedule_idle (h.slot ht)
      ⟨c, by simp⟩
  | @block t r hr hs =>
    have hfree := h.free_of_running hs
    refine ((h.retire hfree .blocked nofun).setBlockedOn hfree r).put (.blocked c r) hfree
      (by simp [Container.status]) (by nofun) ?_
      (h.online (.inl hr)) (h.created (.inl hr))
    intro i r' hk
    cases hk
    simp
  | @sleep t hr hs =>
    have hfree := h.free_of_running hs
    exact (h.retire hfree .sleeping nofun).put (.sleeping c) hfree
      (by simp [Container.status]) (by nofun) (by nofun) (h.online (.inl hr))
      (h.created (.inl hr))
  | @exit t hasParent hr hs =>
    exact h.retire (h.free_of_running hs) _ fun he => by cases hasParent <;> cases he
  | arrival ha => exact h.arrival ha

theorem Inv.steal {source : N.Core} (hs : Steal source i t b b') : b'.Inv :=
  h.take.enqueued (h.free_take hs.1) (h.status hs.1) (h.created (near_of_mem hs.1)) hs.2

end

end Board

/-! ## What the steps leave alone -/

section Frame

variable {b b' : Board N} {c i : N.Core} {t u : TaskPtr}

section

variable (he : Enqueued b c t b')
include he

theorem Enqueued.near (hn : b'.Near i u) : b.Near i u ∨ (u = t ∧ i = c) := by
  cases he with
  | push => exact Board.near_put hn
  | slot => exact Board.near_setSlot hn
  | drop => exact .inl hn

theorem Enqueued.status : b'.status = b.status := by
  cases he <;> rfl

theorem Enqueued.policy : b'.policy = b.policy := by
  cases he <;> rfl

theorem Enqueued.running : b'.running = b.running := by
  cases he <;> rfl

theorem Enqueued.online : b'.online = b.online := by
  cases he <;> rfl

theorem Enqueued.created : b'.created = b.created := by
  cases he <;> rfl

end

theorem Arrival.near (ha : Arrival b b') : ∃ i₀ : Option N.Core, ∀ i t, b'.Near i t →
    b.Near i t ∨ (b.created ≤ t ∧ some i = i₀) := by
  cases ha with
  | wakeBlocked ht he | wakeSleeping ht he =>
    refine ⟨none, fun i u hn => .inl ?_⟩
    rcases he.near hn with hn | ⟨rfl, rfl⟩
    · exact Board.near_take hn
    · exact Board.near_of_mem ht
  | @add i₀ _ _ _ he =>
    refine ⟨some i₀, fun i u hn => ?_⟩
    rcases he.near hn with hn | ⟨rfl, rfl⟩
    · exact .inl hn
    · exact .inr ⟨le_rfl, rfl⟩
  | discard => exact ⟨none, fun i u hn => .inl hn⟩

theorem Move.near (hm : Move c b b') : ∃ i₀ : Option N.Core, ∀ i t, b'.Near i t →
    b.Near i t ∨ (b.created ≤ t ∧ some i = i₀) := by
  cases hm with
  | yield hr _ he =>
    refine ⟨none, fun i u hn => .inl ?_⟩
    rcases he.near hn with hn | ⟨rfl, rfl⟩
    · exact hn
    · exact .inl hr
  | pick _ ht =>
    refine ⟨none, fun i u hn => .inl ?_⟩
    rcases Board.near_setRunning hn with hn | ⟨rfl, rfl⟩
    · exact Board.near_take hn
    · exact Board.near_of_mem ht
  | pickIdle _ ht =>
    refine ⟨none, fun i u hn => .inl ?_⟩
    rcases Board.near_setRunning hn with hn | ⟨rfl, rfl⟩
    · exact hn
    · exact .inr (.inl ht)
  | block r hr _ | sleep hr _ =>
    refine ⟨none, fun i u hn => .inl ?_⟩
    rcases Board.near_put hn with hn | ⟨rfl, rfl⟩
    · exact hn
    · exact .inl hr
  | exit _ _ _ => exact ⟨none, fun i u hn => .inl hn⟩
  | arrival ha => exact ha.near

theorem Arrival.running (ha : Arrival b b') : b'.running = b.running := by
  cases ha with
  | wakeBlocked _ he | wakeSleeping _ he | add he => rw [he.running]; rfl
  | discard => rfl

theorem Move.running_of_ne (hm : Move c b b') (hi : i ≠ c) : b'.running i = b.running i := by
  cases hm with
  | yield _ _ he => rw [he.running]; rfl
  | pick _ _ => simp [hi]
  | pickIdle _ _ => simp [hi]
  | block | sleep | exit => rfl
  | arrival ha => rw [ha.running]

theorem Arrival.online (ha : Arrival b b') : b'.online = b.online := by
  cases ha with
  | wakeBlocked _ he | wakeSleeping _ he | add he => rw [he.online]; rfl
  | discard => rfl

theorem Move.online (hm : Move c b b') : b'.online = b.online := by
  cases hm with
  | yield _ _ he => rw [he.online]; rfl
  | pick | pickIdle | block | sleep | exit => rfl
  | arrival ha => rw [ha.online]

theorem Arrival.created_le (ha : Arrival b b') : b.created ≤ b'.created := by
  cases ha with
  | wakeBlocked _ he | wakeSleeping _ he => rw [he.created]; exact le_rfl
  | add he => rw [he.created]; exact Nat.le_succ _
  | discard => exact Nat.le_succ _

theorem Move.created_le (hm : Move c b b') : b.created ≤ b'.created := by
  cases hm with
  | yield _ _ he => rw [he.created]; exact le_rfl
  | pick | pickIdle | block | sleep | exit => exact le_rfl
  | arrival ha => exact ha.created_le

theorem Arrival.policy_eq (ha : Arrival b b') (ht : t < b.created) : b'.policy t = b.policy t := by
  have hne : t ≠ b.created := ht.ne
  cases ha with
  | wakeBlocked _ he | wakeSleeping _ he => rw [he.policy]; rfl
  | add he => rw [he.policy]; simp [hne]
  | discard => simp [hne]

theorem Move.policy_eq (hm : Move c b b') (ht : t < b.created) : b'.policy t = b.policy t := by
  cases hm with
  | yield _ _ he => rw [he.policy]; rfl
  | pick | pickIdle | block | sleep | exit => rfl
  | arrival ha => exact ha.policy_eq ht

theorem Arrival.status_eq (ha : Arrival b b') (ht : t < b.created) (hk : b.Free t) :
    b'.status t = b.status t := by
  have hne : t ≠ b.created := ht.ne
  have hkept : ∀ {k u}, u ∈ b.holds k → t ≠ u := by
    rintro k u hu rfl
    exact hk k hu
  cases ha with
  | wakeBlocked hu he =>
    rw [he.status]; simp [hkept hu]
  | wakeSleeping hu he => rw [he.status]; simp [hkept hu]
  | add he => rw [he.status]; simp [hne]
  | discard => simp [hne]

theorem Move.status_eq (hm : Move c b b') (ht : t < b.created) (hr : b.running c ≠ some t)
    (hk : b.Free t) (hs : b.status t = .running) : b'.status t = b.status t := by
  have hcur : ∀ {u}, b.running c = some u → t ≠ u := by
    rintro u hu rfl
    exact hr hu
  have hkept : ∀ {k u}, u ∈ b.holds k → t ≠ u := by
    rintro k u hu rfl
    exact hk k hu
  cases hm with
  | yield hu _ he => rw [he.status]; simp [hcur hu]
  | pick _ hu => simp [hkept hu]
  | @pickIdle u _ hu =>
    by_cases htu : t = u
    · subst htu
      simp [hs, TaskStatus.receive]
    · simp [htu]
  | block r hu _ => simp [hcur hu]
  | sleep hu _ => simp [hcur hu]
  | exit _ hu _ => simp [hcur hu]
  | arrival ha => exact ha.status_eq ht hk

theorem Arrival.status_running (ha : Arrival b b') (hinv : b.Inv) (hs : b.status t = .running) :
    b'.status t = .running := by
  obtain ⟨i, hi⟩ := hinv.running hs
  rw [ha.status_eq (hinv.created (.inl hi)) (hinv.free_of_running hs), hs]

theorem Move.status_running (hm : Move c b b') (hinv : b.Inv) (hs : b.status t = .running)
    (hr : b.running c ≠ some t) : b'.status t = .running := by
  obtain ⟨i, hi⟩ := hinv.running hs
  rw [hm.status_eq (hinv.created (.inl hi)) hr (hinv.free_of_running hs) hs, hs]

end Frame

/-! ## Chains of steps -/

section Chains

variable {b b' : Board N} {c i : N.Core} {t : TaskPtr}

abbrev Arrivals : Board N → Board N → Prop := Relation.ReflTransGen Arrival

abbrev Moves (c : N.Core) : Board N → Board N → Prop := Relation.ReflTransGen (Move c)

theorem Arrivals.moves (ha : Arrivals b b') (c : N.Core) : Moves c b b' :=
  Relation.ReflTransGen.mono (fun _ _ => Move.arrival) _ _ ha

theorem Board.Inv.moves (h : b.Inv) (hm : Moves c b b') : b'.Inv := by
  induction hm with
  | refl => exact h
  | tail _ hstep ih => exact ih.move hstep

theorem Board.Inv.arrivals (h : b.Inv) (ha : Arrivals b b') : b'.Inv := by
  induction ha with
  | refl => exact h
  | tail _ hstep ih => exact ih.arrival hstep

theorem Arrivals.running (ha : Arrivals b b') : b'.running = b.running := by
  induction ha with
  | refl => rfl
  | tail _ hstep ih => rw [hstep.running, ih]

theorem Arrivals.status_running (ha : Arrivals b b') (hinv : b.Inv) (hs : b.status t = .running) :
    b'.status t = .running := by
  induction ha with
  | refl => exact hs
  | tail hrest hstep ih => exact hstep.status_running (hinv.arrivals hrest) ih

section

variable (hm : Moves c b b')
include hm

theorem Moves.running_of_ne (hi : i ≠ c) : b'.running i = b.running i := by
  induction hm with
  | refl => rfl
  | tail _ hstep ih => rw [hstep.running_of_ne hi, ih]

theorem Moves.online : b'.online = b.online := by
  induction hm with
  | refl => rfl
  | tail _ hstep ih => rw [hstep.online, ih]

theorem Moves.created_le : b.created ≤ b'.created := by
  induction hm with
  | refl => exact le_rfl
  | tail _ hstep ih => exact ih.trans hstep.created_le

theorem Moves.policy_eq (ht : t < b.created) : b'.policy t = b.policy t := by
  induction hm with
  | refl => rfl
  | tail hrest hstep ih => rw [hstep.policy_eq (ht.trans_le (Moves.created_le hrest)), ih]

theorem Moves.near_of_lt (ht : t < b.created) (hn : b'.Near i t) : b.Near i t := by
  induction hm with
  | refl => exact hn
  | tail hrest hstep ih =>
    obtain ⟨_, hnear⟩ := hstep.near
    obtain hn | ⟨hle, -⟩ := hnear i t hn
    · exact ih hn
    · exact absurd (ht.trans_le (Moves.created_le hrest)) hle.not_gt

end

end Chains

end SimpleKernel.TaskManager
