import SimpleKernel.Model.AtExit

/-! The functions that `__cxa_finalize` calls are called once, unless it is called for all of them
and then again. -/

namespace SimpleKernel.AtExit

open List

variable {e : Entry} {f : Option ℕ} {n i : ℕ} {s : State}

/-! ## One call -/

/-- What a call makes of an entry. -/
def Entry.finalize (e : Entry) (f : Option ℕ) : Entry :=
  if f ≠ none ∧ e.hit f then { e with destructorFunc := none } else e

theorem finalizeLoop_length (f : Option ℕ) (n : ℕ) (funcs : List Entry) :
    (finalizeLoop f n funcs).1.length = funcs.length := by
  induction n generalizing funcs with
  | zero => rfl
  | succ n ih =>
    rw [finalizeLoop]
    split
    · exact ih funcs
    split
    · refine (ih _).trans ?_
      split <;> simp
    · exact ih funcs

theorem finalizeLoop_descends (f : Option ℕ) (n : ℕ) (funcs : List Entry) :
    (finalizeLoop f n funcs).2.Pairwise (fun p q => q.1 < p.1) ∧
      ∀ p ∈ (finalizeLoop f n funcs).2, p.1 < n := by
  induction n generalizing funcs with
  | zero => simp [finalizeLoop]
  | succ n ih =>
    have hrest : ∀ funcs, (finalizeLoop f n funcs).2.Pairwise (fun p q => q.1 < p.1) ∧
        ∀ p ∈ (finalizeLoop f n funcs).2, p.1 < n + 1 :=
      fun funcs => (ih funcs).imp_right fun h p hp => Nat.lt_succ_of_lt (h p hp)
    rw [finalizeLoop]
    split
    · exact hrest funcs
    split
    · simp only [pairwise_cons, forall_mem_cons]
      exact ⟨⟨(ih _).2, (ih _).1⟩, Nat.lt_succ_self n, (hrest _).2⟩
    · exact hrest funcs

theorem finalizeLoop_entry (f : Option ℕ) (n : ℕ) {funcs : List Entry} (h : funcs[i]? = some e) :
    (finalizeLoop f n funcs).1[i]? = some (if i < n then e.finalize f else e) ∧
      (finalizeLoop f n funcs).2.filter (·.1 = i) = if i < n ∧ e.hit f then [(i, e)] else [] := by
  induction n generalizing funcs e with
  | zero => simp [finalizeLoop, h]
  | succ n ih =>
    rw [finalizeLoop]
    by_cases hi : i = n
    · subst hi
      rw [h]
      by_cases hhit : e.hit f
      · have hset : (if f = none then funcs else
            funcs.set i { e with destructorFunc := none })[i]? = some (e.finalize f) := by
          cases f with
          | none => simpa [Entry.finalize] using h
          | some f =>
            obtain ⟨hlt, -⟩ := List.getElem?_eq_some_iff.mp h
            simp [Entry.finalize, hhit, hlt]
        simpa [hhit] using ih hset
      · simpa [hhit, Entry.finalize] using ih h
    · have hlt : i < n + 1 ↔ i < n := by omega
      simp only [hlt]
      split
      · exact ih h
      split
      · have hset : (if f = none then funcs else
            funcs.set n { ‹Entry› with destructorFunc := none })[i]? = some e := by
          split
          · exact h
          · rw [getElem?_set_ne (Ne.symm hi), h]
        simpa [Ne.symm hi] using ih hset
      · exact ih h

/-! ## Sequences of calls -/

/-- The invocations of the entry with this index. -/
def State.invocations (s : State) (i : ℕ) : List Invocation := s.log.flatten.filter (·.1 = i)

def Call.hits : Call → Entry → Bool
  | .atexit _ _, _ => false
  | .finalize f, e => e.hit f

def Call.leaves : Call → Entry → Entry
  | .atexit _ _, e => e
  | .finalize f, e => e.finalize f

theorem step_entry (c : Call) (h : s.atexitFuncs[i]? = some e) :
    (step s c).atexitFuncs[i]? = some (c.leaves e) ∧
      (step s c).invocations i = s.invocations i ++ if c.hits e then [(i, e)] else [] := by
  obtain ⟨hlt, -⟩ := List.getElem?_eq_some_iff.mp h
  cases c with
  | atexit f obj =>
    simp only [step, atexit, Call.hits, Call.leaves, Bool.false_eq_true, if_false, append_nil]
    split
    · exact ⟨h, rfl⟩
    · exact ⟨by rw [getElem?_append_left hlt, h], rfl⟩
  | finalize f =>
    have hloop := finalizeLoop_entry f s.atexitFuncs.length h
    cases hhit : e.hit f <;>
      simpa [step, finalize, Call.hits, Call.leaves, State.invocations, hlt, hhit] using hloop

def Entry.times (e : Entry) : List Call → ℕ
  | [] => 0
  | c :: calls => (if c.hits e then 1 else 0) + (c.leaves e).times calls

theorem times_of_cleared (h : e.destructorFunc = none) (calls : List Call) : e.times calls = 0 := by
  have hhit : ∀ f, e.hit f = false := by
    intro f
    cases f <;> simp [Entry.hit, h]
  induction calls with
  | nil => rfl
  | cons c calls ih => cases c <;> simp [Entry.times, Call.hits, Call.leaves, Entry.finalize, hhit, ih]

theorem replicate_times (c : Call) (calls : List Call) (e : Entry) (i : ℕ) :
    replicate ((c.leaves e).times calls) (i, c.leaves e) =
      replicate ((c.leaves e).times calls) (i, e) := by
  cases c with
  | atexit f obj => rfl
  | finalize f =>
    simp only [Call.leaves, Entry.finalize]
    split
    · rw [times_of_cleared rfl]
      rfl
    · rfl

theorem foldl_entry (calls : List Call) (h : s.atexitFuncs[i]? = some e) :
    (calls.foldl step s).invocations i = s.invocations i ++ replicate (e.times calls) (i, e) := by
  induction calls generalizing s e with
  | nil => simp [Entry.times]
  | cons c calls ih =>
    obtain ⟨hentry, hcalled⟩ := step_entry c h
    rw [foldl_cons, ih hentry, hcalled, append_assoc, Entry.times, replicate_times, replicate_add]
    cases c.hits e <;> rfl

def Call.concerns (f : ℕ) : Call → Bool
  | .atexit _ _ => false
  | .finalize none => true
  | .finalize (some g) => g = f

section Times

variable {f : ℕ} (obj : ℕ) (calls : List Call)

theorem times_eq_zero_iff :
    (⟨some f, obj⟩ : Entry).times calls = 0 ↔ calls.filter (·.concerns f) = [] := by
  induction calls with
  | nil => simp [Entry.times]
  | cons c calls ih =>
    rcases c with ⟨g, o⟩ | _ | g
    · simpa [Entry.times, Call.hits, Call.leaves, Call.concerns] using ih
    · simp [Entry.times, Call.hits, Entry.hit, Call.concerns]
    · by_cases hg : f = g
      · simp [Entry.times, Call.hits, Entry.hit, Call.concerns, hg]
      · simpa [Entry.times, Call.hits, Call.leaves, Entry.finalize, Entry.hit, Call.concerns, hg,
          Ne.symm hg] using ih

theorem times_le_one_iff : (⟨some f, obj⟩ : Entry).times calls ≤ 1 ↔
    ∀ c rest, calls.filter (·.concerns f) ≠ .finalize none :: c :: rest := by
  induction calls with
  | nil => simp [Entry.times]
  | cons c calls ih =>
    rcases c with ⟨g, o⟩ | _ | g
    · simpa [Entry.times, Call.hits, Call.leaves, Call.concerns] using ih
    · have htimes : (⟨some f, obj⟩ : Entry).times (.finalize none :: calls) =
          1 + (⟨some f, obj⟩ : Entry).times calls := rfl
      have hfilter : (Call.finalize none :: calls).filter (·.concerns f) =
          .finalize none :: calls.filter (·.concerns f) := rfl
      have hle : ∀ k, 1 + k ≤ 1 ↔ k = 0 := by omega
      rw [htimes, hfilter, hle, times_eq_zero_iff]
      cases calls.filter (·.concerns f) <;> simp
    · by_cases hg : f = g
      · simp [Entry.times, Call.hits, Call.leaves, Entry.finalize, Entry.hit, Call.concerns, hg,
          times_of_cleared]
      · simpa [Entry.times, Call.hits, Call.leaves, Entry.finalize, Entry.hit, Call.concerns, hg,
          Ne.symm hg] using ih

end Times

def State.Descends (s : State) : Prop :=
  ∀ log ∈ s.log, log.Pairwise (fun p q => q.1 < p.1) ∧ ∀ p ∈ log, p.1 < s.atexitFuncs.length

theorem State.Descends.step (h : s.Descends) (c : Call) : (step s c).Descends := by
  cases c with
  | atexit f obj =>
    simp only [AtExit.step, atexit]
    split
    · exact h
    · refine fun log hlog => (h log hlog).imp_right fun hlt p hp => ?_
      simpa using Nat.lt_succ_of_lt (hlt p hp)
  | finalize f =>
    have hlen := finalizeLoop_length f s.atexitFuncs.length s.atexitFuncs
    refine forall_mem_append.mpr ⟨fun log hlog => ?_, forall_mem_singleton.mpr ?_⟩
    · exact (h log hlog).imp_right fun hlt p hp => Nat.lt_of_lt_of_eq (hlt p hp) hlen.symm
    · obtain ⟨hdown, hlt⟩ := finalizeLoop_descends f s.atexitFuncs.length s.atexitFuncs
      exact ⟨hdown, fun p hp => Nat.lt_of_lt_of_eq (hlt p hp) hlen.symm⟩

theorem run_descends (calls : List Call) : (run calls).Descends :=
  foldlRecOn (motive := State.Descends) calls AtExit.step (by simp [State.Descends])
    fun _ h c _ => h.step c

/-- The calls register the pair as entry `i`, and go on with `after`. -/
def Registers (calls : List Call) (i f obj : ℕ) (after : List Call) : Prop :=
  ∃ before, calls = before ++ .atexit f obj :: after ∧ (atexit (run before) f obj).1 = 0 ∧
    i = (run before).atexitFuncs.length

theorem Registers.invocations {calls after : List Call} {f obj : ℕ}
    (h : Registers calls i f obj after) : (run calls).invocations i =
      replicate ((⟨some f, obj⟩ : Entry).times after) (i, ⟨some f, obj⟩) := by
  obtain ⟨before, rfl, hok, rfl⟩ := h
  have hrun : run (before ++ .atexit f obj :: after) =
      after.foldl AtExit.step (AtExit.step (run before) (.atexit f obj)) := by
    simp [run]
  have hnew : AtExit.step (run before) (.atexit f obj) =
      { run before with atexitFuncs := (run before).atexitFuncs ++ [⟨some f, obj⟩] } := by
    unfold AtExit.step atexit at *
    dsimp only at hok ⊢
    split at hok
    · cases hok
    · rename_i hfull
      rw [if_neg hfull]
  have hnone : (run before).invocations (run before).atexitFuncs.length = [] := by
    refine filter_eq_nil_iff.mpr fun p hp => ?_
    obtain ⟨log, hlog, hmem⟩ := mem_flatten.mp hp
    simpa using Nat.ne_of_lt ((run_descends before log hlog).2 p hmem)
  rw [hrun, hnew, foldl_entry (e := ⟨some f, obj⟩) after (by simp)]
  change (run before).invocations _ ++ _ = _
  rw [hnone, nil_append]

/-- A call invokes the entries from the last registered one to the first. Every registered pair is
invoked at most once, and exactly once if `__cxa_finalize(nullptr)` follows, if and only if after each
registration no call for the function or for all of them comes behind a `__cxa_finalize(nullptr)`,
unless the function was cleared before. -/
theorem destructors_once_iff (calls : List Call) :
    (∀ log ∈ (run calls).log, log.Pairwise fun p q => q.1 < p.1) ∧
    ((∀ i f obj after, Registers calls i f obj after → ∃ n ≤ 1,
        (run calls).invocations i = replicate n (i, ⟨some f, obj⟩) ∧ (.finalize none ∈ after → n = 1)) ↔
      ∀ i f obj after, Registers calls i f obj after →
        ∀ c rest, after.filter (·.concerns f) ≠ .finalize none :: c :: rest) := by
  refine ⟨fun log hlog => (run_descends calls log hlog).1, forall₄_congr fun i f obj after =>
    imp_congr_right fun h => ?_⟩
  rw [h.invocations, ← times_le_one_iff obj]
  constructor
  · rintro ⟨n, hn, heq, -⟩
    rwa [(replicate_inj.mp heq).1]
  · intro hle
    refine ⟨_, hle, rfl, fun hmem => Nat.le_antisymm hle (Nat.one_le_iff_ne_zero.mpr fun h0 => ?_)⟩
    have hfilter := (times_eq_zero_iff obj after).mp h0
    exact not_mem_nil (hfilter ▸ mem_filter.mpr ⟨hmem, rfl⟩)

/-- `__cxa_finalize(nullptr)` leaves the functions in the table. -/
theorem invoked_twice :
    (run [.atexit 1 0, .finalize none, .finalize none]).invocations 0 =
      [(0, ⟨some 1, 0⟩), (0, ⟨some 1, 0⟩)] := by
  decide

end SimpleKernel.AtExit
