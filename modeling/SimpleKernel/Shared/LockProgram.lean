import Mathlib.Data.Fintype.Basic
import Mathlib.Logic.Relation
import Mathlib.Order.Basic
import SimpleKernel.Shared.Transition

/-! Programs that take and release locks, run by cores that switch between threads. If every program
takes its locks in increasing order, no cores wait for each other in a cycle. -/

namespace SimpleKernel

/-- What a program does with the locks `α` on cores `κ`. A branch on data is a `choice`, and a core
that depends on data is any one. -/
inductive LockProgram (κ α : Type) where
  | skip
  | lock (l : α)
  | unlock (l : α)
  | seq (p q : LockProgram κ α)
  | choice (p q : LockProgram κ α)
  -- any number of rounds
  | loop (p : LockProgram κ α)
  -- the program may use the core that it is on
  | coreId (p : κ → LockProgram κ α)
  | anyCore (p : κ → LockProgram κ α)
  -- a new thread
  | spawn
  -- the core goes on with another thread
  | switchTo

variable {κ α ω : Type}

namespace LockProgram

instance : AndThen (LockProgram κ α) := ⟨fun p q => .seq p (q ())⟩

def optionally (p : LockProgram κ α) : LockProgram κ α := .choice p .skip

def guarded (l : α) (body : LockProgram κ α) : LockProgram κ α := .lock l >> body >> .unlock l

def forEach {ι : Type} (body : ι → LockProgram κ α) : List ι → LockProgram κ α
  | [] => .skip
  | i :: rest => body i >> forEach body rest

end LockProgram

/-! ## Cores and threads -/

/-- `code c` is what the thread on core `c` has still to do, `held c` are the locks that the core
holds, and `suspended` are the other threads. -/
structure LockMachine (κ α : Type) where
  code : κ → List (LockProgram κ α) := fun _ => []
  held : κ → List α := fun _ => []
  suspended : List (List (LockProgram κ α)) := []

/-- A core without a lock may be interrupted by any operation. `run` executes the next command, with
the choices that it leaves open. -/
inductive LockAction (κ ω : Type) where
  | call (c : κ) (op : ω)
  | run (c : κ) (branch : Bool) (core : κ) (thread : ℕ)

namespace LockMachine

variable [DecidableEq κ] [Fintype κ] [DecidableEq α]

def goto (s : LockMachine κ α) (c : κ) (code : List (LockProgram κ α)) : LockMachine κ α :=
  { s with code := Function.update s.code c code }

def setHeld (s : LockMachine κ α) (c : κ) (held : List α) : LockMachine κ α :=
  { s with held := Function.update s.held c held }

/-- The next command of core `c`, with `code` behind it. A lock is taken when no core holds it. -/
def exec (s : LockMachine κ α) (c : κ) (branch : Bool) (core : κ) (thread : ℕ)
    (code : List (LockProgram κ α)) : LockProgram κ α → Option (LockMachine κ α)
  | .skip => some (s.goto c code)
  | .lock l =>
    if ∀ c', l ∉ s.held c' then some ((s.goto c code).setHeld c (l :: s.held c)) else none
  | .unlock l => some ((s.goto c code).setHeld c ((s.held c).erase l))
  | .seq p q => some (s.goto c (p :: q :: code))
  | .choice p q => some (s.goto c ((if branch then p else q) :: code))
  | .loop p => some (s.goto c (if branch then p :: .loop p :: code else code))
  | .coreId p => some (s.goto c (p c :: code))
  | .anyCore p => some (s.goto c (p core :: code))
  | .spawn => some { s.goto c code with suspended := [] :: s.suspended }
  | .switchTo => s.suspended[thread]?.map fun next =>
    { s.goto c next with suspended := s.suspended.set thread code }

def step (ops : ω → LockProgram κ α) (s : LockMachine κ α) :
    LockAction κ ω → Option (LockMachine κ α)
  | .call c op => if s.held c = [] then some (s.goto c (ops op :: s.code c)) else none
  | .run c branch core thread =>
    match s.code c with
    | [] => none
    | p :: code => s.exec c branch core thread code p

end LockMachine

def lockSystem [DecidableEq κ] [Fintype κ] [DecidableEq α] (ops : ω → LockProgram κ α) :
    Transition (LockMachine κ α) (LockAction κ ω) where
  init s := s = {}
  step := LockMachine.step ops

/-! ## Waiting -/

namespace LockMachine

def request (s : LockMachine κ α) (c : κ) : Option α :=
  match s.code c with
  | .lock l :: _ => some l
  | _ => none

/-- Core `c` asks for a lock that core `c'` holds. -/
def Waits (s : LockMachine κ α) (c c' : κ) : Prop := ∃ l, s.request c = some l ∧ l ∈ s.held c'

end LockMachine

/-! ## Programs in order -/

namespace LockProgram

variable [DecidableEq α] [Preorder α] {p q : LockProgram κ α} {held : List α}
  {post post' : List α → Prop}

/-- With the locks `held`, the program asks for greater ones only, releases what it holds, switches
without a lock, and ends with locks that satisfy `post`. -/
def Safe : LockProgram κ α → (List α → Prop) → List α → Prop
  | .skip, post, held => post held
  | .lock l, post, held => (∀ x ∈ held, x < l) ∧ post (l :: held)
  | .unlock l, post, held => l ∈ held ∧ post (held.erase l)
  | .seq p q, post, held => p.Safe (q.Safe post) held
  | .choice p q, post, held => p.Safe post held ∧ q.Safe post held
  | .loop p, post, held => p.Safe (· = held) held ∧ post held
  | .coreId p, post, held => ∀ c, (p c).Safe post held
  | .anyCore p, post, held => ∀ c, (p c).Safe post held
  | .spawn, post, held => post held
  | .switchTo, post, held => held = [] ∧ post []

theorem Safe.mono (h : p.Safe post held) (hpost : ∀ x, post x → post' x) : p.Safe post' held := by
  induction p generalizing post post' held with
  | skip => exact hpost _ h
  | lock l => exact ⟨h.1, hpost _ h.2⟩
  | unlock l => exact ⟨h.1, hpost _ h.2⟩
  | seq p q ihp ihq => exact ihp h fun x hx => ihq hx hpost
  | choice p q ihp ihq => exact ⟨ihp h.1 hpost, ihq h.2 hpost⟩
  | loop p ih => exact ⟨h.1, hpost _ h.2⟩
  | coreId p ih => exact fun c => ih c (h c) hpost
  | anyCore p ih => exact fun c => ih c (h c) hpost
  | spawn => exact hpost _ h
  | switchTo => exact ⟨h.1, hpost _ h.2⟩

/-- The program ends with the locks that it started with. -/
def Keeps (p : LockProgram κ α) (held : List α) : Prop := p.Safe (· = held) held

theorem Keeps.safe (h : p.Keeps held) (hpost : post held) : p.Safe post held :=
  Safe.mono h fun _ hx => hx ▸ hpost

/-! ### Rules -/

theorem Keeps.skip : (.skip : LockProgram κ α).Keeps held := rfl

theorem Keeps.spawn : (.spawn : LockProgram κ α).Keeps held := rfl

theorem Keeps.switchTo : (.switchTo : LockProgram κ α).Keeps [] := ⟨rfl, rfl⟩

section

variable (hp : p.Keeps held)
include hp

theorem Keeps.andThen (hq : q.Keeps held) : (p >> q).Keeps held := hp.safe hq

theorem Keeps.choice (hq : q.Keeps held) : (p.choice q).Keeps held := ⟨hp, hq⟩

theorem Keeps.optionally : p.optionally.Keeps held := hp.choice .skip

theorem Keeps.loop : p.loop.Keeps held := ⟨hp, rfl⟩

end

theorem Keeps.coreId {p : κ → LockProgram κ α} (hp : ∀ c, (p c).Keeps held) :
    (LockProgram.coreId p).Keeps held := hp

theorem Keeps.anyCore {p : κ → LockProgram κ α} (hp : ∀ c, (p c).Keeps held) :
    (LockProgram.anyCore p).Keeps held := hp

theorem Keeps.guarded {l : α} (hl : ∀ x ∈ held, x < l) (hp : p.Keeps (l :: held)) :
    (guarded l p).Keeps held := by
  refine ⟨hl, ?_⟩
  apply hp.safe
  exact ⟨List.mem_cons_self, List.erase_cons_head l held⟩

theorem Keeps.forEach {ι : Type} {body : ι → LockProgram κ α} {l : List ι}
    (hp : ∀ i, (body i).Keeps held) : (forEach body l).Keeps held := by
  induction l with
  | nil => exact .skip
  | cons i rest ih => exact (hp i).andThen ih

end LockProgram

namespace LockMachine

open LockProgram

variable [DecidableEq κ] [Fintype κ] [DecidableEq α] [Preorder α] {s s' : LockMachine κ α}
  {ops : ω → LockProgram κ α} {code : List (LockProgram κ α)} {c c' : κ}

/-- What a thread has still to do is safe, and releases all locks. -/
def SafeFrom : List (LockProgram κ α) → List α → Prop
  | [], held => held = []
  | p :: code, held => p.Safe (SafeFrom code) held

/-- All threads are safe, and a suspended one holds no lock. -/
structure Disciplined (s : LockMachine κ α) : Prop where
  code : ∀ c, SafeFrom (s.code c) (s.held c)
  suspended : ∀ code ∈ s.suspended, SafeFrom code []

/-! ## Steps -/

omit [Fintype κ] in
theorem Disciplined.goto (h : Disciplined s) (hcode : SafeFrom code (s.held c)) :
    Disciplined (s.goto c code) where
  code c' := by
    by_cases hc : c' = c
    · subst hc
      simpa [LockMachine.goto] using hcode
    · simpa [LockMachine.goto, hc] using h.code c'
  suspended := h.suspended

omit [Fintype κ] in
theorem Disciplined.setHeld {held : List α} (h : Disciplined s) (hcode : SafeFrom code held) :
    Disciplined ((s.goto c code).setHeld c held) where
  code c' := by
    by_cases hc : c' = c
    · subst hc
      simpa [LockMachine.goto, LockMachine.setHeld] using hcode
    · simpa [LockMachine.goto, LockMachine.setHeld, hc] using h.code c'
  suspended := h.suspended

theorem Disciplined.exec {p : LockProgram κ α} {branch : Bool} {core : κ} {thread : ℕ}
    (h : Disciplined s) (hp : p.Safe (SafeFrom code) (s.held c))
    (hs : s.exec c branch core thread code p = some s') : Disciplined s' := by
  cases p with
  | skip =>
    cases hs
    exact h.goto hp
  | lock l =>
    obtain ⟨-, ⟨⟩⟩ := Option.ite_none_right_eq_some.mp hs
    exact h.setHeld hp.2
  | unlock l =>
    cases hs
    exact h.setHeld hp.2
  | seq p q =>
    cases hs
    exact h.goto hp
  | choice p q =>
    cases hs
    apply h.goto
    cases branch with
    | true => exact hp.1
    | false => exact hp.2
  | loop p =>
    cases hs
    apply h.goto
    cases branch with
    | true => exact Keeps.safe hp.1 hp
    | false => exact hp.2
  | coreId p =>
    cases hs
    exact h.goto (hp c)
  | anyCore p =>
    cases hs
    exact h.goto (hp core)
  | spawn =>
    cases hs
    obtain ⟨hcode, hsuspended⟩ := h.goto hp
    refine ⟨hcode, ?_⟩
    intro k hk
    rcases List.mem_cons.mp hk with rfl | hk
    · exact rfl
    · exact hsuspended k hk
  | switchTo =>
    obtain ⟨next, hnext, rfl⟩ := Option.map_eq_some_iff.mp hs
    obtain ⟨hheld, hrest⟩ := hp
    have hsafe := h.suspended next (List.mem_of_getElem? hnext)
    obtain ⟨hcode, -⟩ := h.goto (c := c) (hheld ▸ hsafe)
    refine ⟨hcode, ?_⟩
    intro k hk
    rcases List.mem_or_eq_of_mem_set hk with hk | rfl
    · exact h.suspended k hk
    · exact hrest

theorem Disciplined.step {action : LockAction κ ω} (hops : ∀ op, (ops op).Keeps [])
    (h : Disciplined s) (hs : s.step ops action = some s') : Disciplined s' := by
  cases action with
  | call c op =>
    obtain ⟨hheld, ⟨⟩⟩ := Option.ite_none_right_eq_some.mp hs
    apply h.goto
    have hcode := h.code c
    rw [hheld] at hcode ⊢
    exact (hops op).safe hcode
  | run c branch core thread =>
    simp only [LockMachine.step] at hs
    have hcode := h.code c
    split at hs
    · cases hs
    rename_i p code heq
    rw [heq] at hcode
    exact h.exec hcode hs

theorem disciplined_of_reachable (hops : ∀ op, (ops op).Keeps [])
    (h : (lockSystem ops).Reachable s) : Disciplined s := by
  refine h.invariant (P := Disciplined) ?_ ?_
  · rintro _ rfl
    exact ⟨fun _ => rfl, nofun⟩
  · exact fun s a s' hs hstep => hs.step hops hstep

/-! ## No cycle -/

omit [DecidableEq κ] [Fintype κ] in
theorem Disciplined.lt_request {l l' : α} (h : Disciplined s) (hl : l ∈ s.held c)
    (hl' : s.request c = some l') : l < l' := by
  have hcode := h.code c
  unfold request at hl'
  split at hl'
  · rename_i m code heq
    cases hl'
    rw [heq] at hcode
    exact hcode.1 l hl
  · cases hl'

omit [DecidableEq κ] [Fintype κ] in
theorem Disciplined.request_lt (h : Disciplined s) (hw : Relation.TransGen s.Waits c c') :
    ∃ l, s.request c = some l ∧ ∀ l', s.request c' = some l' → l < l' := by
  induction hw with
  | single hw =>
    obtain ⟨l, hl, hheld⟩ := hw
    exact ⟨l, hl, fun l' hl' => h.lt_request hheld hl'⟩
  | tail _ hw ih =>
    obtain ⟨l, hl, hlt⟩ := ih
    obtain ⟨m, hm, hheld⟩ := hw
    exact ⟨l, hl, fun l' hl' => (hlt m hm).trans (h.lt_request hheld hl')⟩

omit [DecidableEq κ] [Fintype κ] in
theorem Disciplined.acyclic (h : Disciplined s) (c : κ) : ¬ Relation.TransGen s.Waits c c := by
  intro hw
  obtain ⟨l, hl, hlt⟩ := h.request_lt hw
  exact lt_irrefl l (hlt l hl)

end LockMachine

end SimpleKernel
