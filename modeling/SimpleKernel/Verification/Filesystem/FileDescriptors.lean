import Mathlib.Algebra.BigOperators.Group.Finset.Piecewise
import Mathlib.Data.Fintype.Basic
import SimpleKernel.Model.Filesystem.FileDescriptorTable

/-! The count of open descriptors is the number of entries that are not null, unless
`SetupStandardFiles` replaces a standard file by a null pointer. -/

namespace SimpleKernel.Filesystem

open Function FileDescriptorTable

variable {t : FileDescriptorTable} {fd e : Fd} {file : Option FilePtr} {s s' : FdTables}
  {a : FdCall} {i j : ℕ}

namespace FileDescriptorTable

def openEntries (t : FileDescriptorTable) : ℕ :=
  (Finset.univ.filter fun fd => (t.table fd).isSome).card

def unit (file : Option FilePtr) : ℕ := if file.isSome then 1 else 0

/-! ## The number of entries -/

theorem openEntries_eq_sum (t : FileDescriptorTable) : t.openEntries = ∑ fd, unit (t.table fd) :=
  Finset.card_filter _ _

theorem openEntries_set (t : FileDescriptorTable) (fd : Fd) (file : Option FilePtr) :
    (t.set fd file).openEntries + unit (t.table fd) = t.openEntries + unit file := by
  have hset : (fun e => unit ((t.set fd file).table e)) =
      update (fun e => unit (t.table e)) fd (unit file) := by
    funext e
    by_cases he : e = fd
    · subst he
      simp [set]
    · simp [set, he]
  have hsplit := Finset.add_sum_erase Finset.univ (fun e => unit (t.table e)) (Finset.mem_univ fd)
  rw [openEntries_eq_sum, openEntries_eq_sum, hset, Finset.sum_update_of_mem (Finset.mem_univ fd),
    Finset.sdiff_singleton_eq_erase, ← hsplit]
  omega

theorem openEntries_of_forall_none (h : ∀ fd, t.table fd = none) : t.openEntries = 0 := by
  rw [openEntries_eq_sum]
  exact Finset.sum_eq_zero fun fd _ => by rw [h fd]; rfl

def Counted (t : FileDescriptorTable) : Prop := t.openCount = t.openEntries

theorem Counted.set (h : t.Counted) {count : ℤ}
    (hcount : count + unit (t.table fd) = t.openCount + unit file) :
    Counted { t.set fd file with openCount := count } := by
  have hentries := openEntries_set t fd file
  unfold Counted at h ⊢
  change count = (t.set fd file).openEntries
  omega

theorem Counted.open (h : t.Counted) (hfree : t.table fd = none) (hfile : file ≠ none) :
    Counted { t.set fd file with openCount := t.openCount + 1 } := by
  obtain ⟨f, rfl⟩ := Option.ne_none_iff_exists'.mp hfile
  apply h.set
  rw [hfree]
  simp [unit]

theorem Counted.close (h : t.Counted) (hused : t.table fd ≠ none) :
    Counted { t.set fd none with openCount := t.openCount - 1 } := by
  obtain ⟨f, hf⟩ := Option.ne_none_iff_exists'.mp hused
  apply h.set
  rw [hf]
  simp [unit]

/-! ## `Alloc` returns the least free descriptor -/

theorem firstFree_eq_none : t.firstFree = none ↔ ∀ fd, stderrFd < fd → t.table fd ≠ none := by
  unfold firstFree
  simp

theorem firstFree_eq_some (h : t.firstFree = some fd) :
    stderrFd < fd ∧ t.table fd = none ∧ ∀ e, stderrFd < e → t.table e = none → fd ≤ e := by
  obtain ⟨hfd, k, hk, hget, hbefore⟩ := List.find?_eq_some_iff_getElem.mp h
  rw [Bool.and_eq_true, decide_eq_true_eq, decide_eq_true_eq] at hfd
  refine ⟨hfd.1, hfd.2, ?_⟩
  intro e he hfree
  by_contra hlt
  rw [not_le] at hlt
  have hval : fd.val = k := by
    rw [← hget]
    simp
  have hlt' : e.val < k := by
    rw [← hval]
    exact hlt
  have hno := hbefore e.val hlt'
  simp [he, hfree] at hno

theorem alloc_error_iff (t : FileDescriptorTable) (f : FilePtr) :
    (∃ error, (t.alloc (some f)).1 = .error error) ↔ ∀ fd, stderrFd < fd → t.table fd ≠ none := by
  rw [← firstFree_eq_none]
  unfold alloc
  cases t.firstFree with
  | none => exact iff_of_true ⟨_, rfl⟩ rfl
  | some fd => exact iff_of_false nofun nofun

theorem alloc_ok {f : FilePtr} (h : (t.alloc (some f)).1 = .ok fd) :
    stderrFd < fd ∧ t.table fd = none ∧ ∀ e, stderrFd < e → t.table e = none → fd ≤ e := by
  unfold alloc at h
  cases hfirst : t.firstFree with
  | none =>
    rw [hfirst] at h
    cases h
  | some fd' =>
    rw [hfirst] at h
    cases h
    exact firstFree_eq_some hfirst

/-! ## The operations keep the count -/

theorem Counted.free (h : t.Counted) (fd : ℤ) : (t.free fd).2.Counted := by
  unfold FileDescriptorTable.free
  cases index fd with
  | none => exact h
  | some fd =>
    dsimp only
    split_ifs with hused
    · exact h
    · exact h.close hused

theorem Counted.dupTo (h : t.Counted) (f : FilePtr) (newFd : Fd) :
    (t.dupTo (some f) newFd).2.Counted := by
  unfold FileDescriptorTable.dupTo
  split
  · rename_i hused
    refine (h.close hused).open ?_ nofun
    exact update_self ..
  · rename_i hfree
    exact h.open (not_not.mp hfree) nofun

def Enters (t : FileDescriptorTable) (r : Expected Fd × FileDescriptorTable) : Prop :=
  r.2 = t ∨ ∃ f fd, r = t.dupTo (some f) fd

theorem enters_firstFree (hfirst : t.firstFree = some fd) (f : FilePtr) :
    t.Enters (.ok fd, { t.set fd (some f) with openCount := t.openCount + 1 }) := by
  refine .inr ⟨f, fd, ?_⟩
  unfold dupTo
  rw [if_neg (not_not.mpr (firstFree_eq_some hfirst).2.1)]

theorem enters_alloc (t : FileDescriptorTable) (file : Option FilePtr) :
    t.Enters (t.alloc file) := by
  unfold alloc
  cases file with
  | none => exact .inl rfl
  | some f =>
    cases hfirst : t.firstFree with
    | none => exact .inl rfl
    | some fd => exact enters_firstFree hfirst f

theorem enters_dup (t : FileDescriptorTable) (oldFd newFd : ℤ) : t.Enters (t.dup oldFd newFd) := by
  unfold dup
  cases (index oldFd).bind t.table with
  | none => exact .inl rfl
  | some f =>
    cases index newFd with
    | some newFd => exact .inr ⟨f, newFd, rfl⟩
    | none =>
      dsimp only
      split
      · cases hfirst : t.firstFree with
        | none => exact .inl rfl
        | some fd => exact enters_firstFree hfirst f
      · exact .inl rfl

theorem Counted.enters {r : Expected Fd × FileDescriptorTable} (h : t.Counted) (hr : t.Enters r) :
    r.2.Counted := by
  obtain hsame | ⟨f, fd, rfl⟩ := hr
  · rwa [hsame]
  · exact h.dupTo f fd

theorem Counted.empty : Counted { table := fun _ => none, openCount := 0 } := by
  rfl

def keepsFile (t : FileDescriptorTable) (fd : Fd) (file : Option FilePtr) : Bool :=
  t.table fd = none || file.isSome

def replace (t : FileDescriptorTable) (fd : Fd) (file : Option FilePtr) : FileDescriptorTable :=
  (t.countNew fd file).set fd file

section

variable (t file)

theorem set_table_of_ne (he : e ≠ fd) : (t.set fd file).table e = t.table e :=
  update_of_ne he _ _

theorem countNew_set (file' : Option FilePtr) (he : e ≠ fd) :
    (t.set fd file).countNew e file' = (t.countNew e file').set fd file := by
  unfold countNew
  rw [set_table_of_ne t file he]
  split
  · rfl
  · rfl

theorem table_countNew (fd : Fd) (file : Option FilePtr) :
    (t.countNew fd file).table = t.table := by
  unfold countNew
  split
  · rfl
  · rfl

end

theorem keepsFile_replace (h : t.keepsFile e file) (file' : Option FilePtr) (he : e ≠ fd) :
    (t.replace fd file').keepsFile e file := by
  unfold keepsFile replace at *
  rw [set_table_of_ne _ _ he, table_countNew]
  exact h

theorem setupStandardFiles_eq (t : FileDescriptorTable)
    (stdinFile stdoutFile stderrFile : Option FilePtr) :
    t.setupStandardFiles stdinFile stdoutFile stderrFile =
      ((t.replace stdinFd stdinFile).replace stdoutFd stdoutFile).replace stderrFd stderrFile := by
  unfold setupStandardFiles replace
  rw [countNew_set _ _ _ (by decide), countNew_set _ _ _ (by decide), countNew_set _ _ _ (by decide)]

theorem Counted.replace (h : t.Counted) (hkeeps : t.keepsFile fd file) :
    (t.replace fd file).Counted := by
  have hcount : (t.countNew fd file).openCount + unit (t.table fd) = t.openCount + unit file := by
    unfold countNew
    unfold keepsFile at hkeeps
    cases hfd : t.table fd with
    | none =>
      cases file with
      | none => simp
      | some f => simp [unit]
    | some g =>
      cases file with
      | none =>
        rw [hfd] at hkeeps
        cases hkeeps
      | some f => simp [unit]
  have hset := h.set hcount
  unfold FileDescriptorTable.replace FileDescriptorTable.set
  rw [table_countNew]
  exact hset

variable {stdinFile stdoutFile stderrFile : Option FilePtr}

theorem Counted.setupStandardFiles (h : t.Counted)
    (hin : t.keepsFile stdinFd stdinFile) (hout : t.keepsFile stdoutFd stdoutFile)
    (herr : t.keepsFile stderrFd stderrFile) :
    (t.setupStandardFiles stdinFile stdoutFile stderrFile).Counted := by
  rw [setupStandardFiles_eq]
  have hin' := h.replace hin
  have hout' := hin'.replace (keepsFile_replace hout stdinFile (by decide))
  apply hout'.replace
  apply keepsFile_replace _ _ (by decide)
  exact keepsFile_replace herr stdinFile (by decide)

/-! ## The operations change the entries that they name -/

theorem free_table_of_ne {n : ℤ} (h : index n ≠ some e) : (t.free n).2.table e = t.table e := by
  unfold free
  cases hindex : index n with
  | none => rfl
  | some fd =>
    dsimp only
    split
    · rfl
    · exact set_table_of_ne t none fun heq => h (heq ▸ hindex)

theorem dupTo_table_of_ne (he : e ≠ fd) : (t.dupTo file fd).2.table e = t.table e := by
  refine (set_table_of_ne _ file he).trans ?_
  split
  · exact set_table_of_ne t none he
  · rfl

theorem Enters.table_of_ne {r : Expected Fd × FileDescriptorTable} (hr : t.Enters r)
    (h : r.1 ≠ .ok e) : r.2.table e = t.table e := by
  obtain hsame | ⟨f, fd, rfl⟩ := hr
  · rw [hsame]
  · exact dupTo_table_of_ne fun heq => h (heq ▸ rfl)

theorem setupStandardFiles_table_of_ne
    (hin : e ≠ stdinFd) (hout : e ≠ stdoutFd) (herr : e ≠ stderrFd) :
    (t.setupStandardFiles stdinFile stdoutFile stderrFile).table e = t.table e := by
  have hreplace : ∀ (t : FileDescriptorTable) {fd : Fd} (file : Option FilePtr), e ≠ fd →
      (t.replace fd file).table e = t.table e := by
    intro t fd file he
    unfold replace
    rw [set_table_of_ne _ file he, table_countNew]
  rw [setupStandardFiles_eq, hreplace _ _ herr, hreplace _ _ hout, hreplace _ _ hin]

end FileDescriptorTable

/-! ## Sequences of calls -/

namespace FdTables

def entry (s : FdTables) (i : ℕ) (fd : Fd) : Option (Option FilePtr) := (s i).map fun t => t.table fd

/-- The entries that a call may change: for `Alloc` and `Dup` the one whose descriptor they return. -/
def Names (s : FdTables) : FdCall → ℕ → Fd → Prop
  | .construct i, j, _ | .closeAll i, j, _ => j = i
  | .moveConstruct i other, j, _ | .moveAssign i other, j, _ => j = i ∨ j = other
  | .alloc i file, j, fd => j = i ∧ ∃ t, s i = some t ∧ (t.alloc file).1 = .ok fd
  | .free i n, j, fd => j = i ∧ index n = some fd
  | .dup i oldFd newFd, j, fd => j = i ∧ ∃ t, s i = some t ∧ (t.dup oldFd newFd).1 = .ok fd
  | .setupStandardFiles i _ _ _, j, fd => j = i ∧ (fd = stdinFd ∨ fd = stdoutFd ∨ fd = stderrFd)

/-- `SetupStandardFiles` replaces no file by a null pointer. -/
def keepsStandardFiles (s : FdTables) : FdCall → Bool
  | .setupStandardFiles i stdinFile stdoutFile stderrFile => (s i).all fun t =>
    t.keepsFile stdinFd stdinFile && t.keepsFile stdoutFd stdoutFile &&
      t.keepsFile stderrFd stderrFile
  | _ => true

variable {f : FileDescriptorTable → FileDescriptorTable}

theorem on_eq_some (h : s.on i f = some s') : ∃ t, s i = some t ∧ s' = update s i (some (f t)) := by
  obtain ⟨t, ht, rfl⟩ := Option.map_eq_some_iff.mp h
  exact ⟨t, ht, rfl⟩

theorem entry_update_of_ne (s : FdTables) (o : Option FileDescriptorTable) (fd : Fd) (hj : j ≠ i) :
    entry (update s i o) j fd = s.entry j fd := by
  unfold entry
  rw [update_of_ne hj]

theorem entry_on (h : s.on i f = some s')
    (hf : ∀ t, s i = some t → j = i → (f t).table fd = t.table fd) :
    s'.entry j fd = s.entry j fd := by
  obtain ⟨t, ht, rfl⟩ := on_eq_some h
  by_cases hj : j = i
  · subst hj
    unfold entry
    rw [update_self, ht, Option.map_some, Option.map_some, hf t ht rfl]
  · exact entry_update_of_ne s _ fd hj

theorem entry_step (h : s.step a = some s') (hn : ¬ s.Names a j fd) :
    s'.entry j fd = s.entry j fd := by
  cases a with
  | construct i =>
    obtain ⟨-, ⟨⟩⟩ := Option.ite_none_right_eq_some.mp h
    exact entry_update_of_ne s _ fd hn
  | moveConstruct i other =>
    rw [step] at h
    split at h
    · obtain ⟨t, -, rfl⟩ := Option.map_eq_some_iff.mp h
      obtain ⟨hi, hother⟩ := not_or.mp hn
      exact (entry_update_of_ne _ _ fd hother).trans (entry_update_of_ne s _ fd hi)
    · cases h
  | moveAssign i other =>
    obtain ⟨t, -, h⟩ := Option.bind_eq_some_iff.mp h
    obtain ⟨t', -, rfl⟩ := Option.map_eq_some_iff.mp h
    obtain ⟨hi, hother⟩ := not_or.mp hn
    split
    · rfl
    · exact (entry_update_of_ne _ _ fd hother).trans (entry_update_of_ne s _ fd hi)
  | alloc i file =>
    refine entry_on h fun t ht hj => (enters_alloc t file).table_of_ne ?_
    exact fun hok => hn ⟨hj, t, ht, hok⟩
  | free i n =>
    refine entry_on h fun t ht hj => free_table_of_ne ?_
    exact fun hindex => hn ⟨hj, hindex⟩
  | dup i oldFd newFd =>
    refine entry_on h fun t ht hj => (enters_dup t oldFd newFd).table_of_ne ?_
    exact fun hok => hn ⟨hj, t, ht, hok⟩
  | closeAll i => exact entry_on h fun t _ hj => absurd hj hn
  | setupStandardFiles i stdinFile stdoutFile stderrFile =>
    refine entry_on h fun t _ hj => setupStandardFiles_table_of_ne ?_ ?_ ?_
    · exact fun heq => hn ⟨hj, .inl heq⟩
    · exact fun heq => hn ⟨hj, .inr (.inl heq)⟩
    · exact fun heq => hn ⟨hj, .inr (.inr heq)⟩

def Counted (s : FdTables) : Prop := ∀ i t, s i = some t → t.Counted

theorem Counted.update (h : s.Counted) (ht : t.Counted) : Counted (update s i (some t)) := by
  intro j u hu
  by_cases hj : j = i
  · subst hj
    rw [update_self] at hu
    cases hu
    exact ht
  · rw [update_of_ne hj] at hu
    exact h j u hu

theorem Counted.on (h : s.Counted)
    (hs : s.on i f = some s') (hf : ∀ t, s i = some t → t.Counted → (f t).Counted) :
    s'.Counted := by
  obtain ⟨t, ht, rfl⟩ := on_eq_some hs
  exact h.update (hf t ht (h i t ht))

theorem Counted.step (h : s.Counted) (hok : s.keepsStandardFiles a) (hs : s.step a = some s') :
    s'.Counted := by
  cases a with
  | construct i =>
    obtain ⟨-, ⟨⟩⟩ := Option.ite_none_right_eq_some.mp hs
    exact h.update .empty
  | moveConstruct i other =>
    rw [FdTables.step] at hs
    split at hs
    · obtain ⟨t, ht, rfl⟩ := Option.map_eq_some_iff.mp hs
      exact (h.update (h other t ht)).update .empty
    · cases hs
  | moveAssign i other =>
    obtain ⟨t, -, hs⟩ := Option.bind_eq_some_iff.mp hs
    obtain ⟨t', ht', rfl⟩ := Option.map_eq_some_iff.mp hs
    split
    · exact h
    · have hassign : (t.assign t').Counted := h other t' ht'
      exact (h.update hassign).update .empty
  | alloc i file => exact h.on hs fun t _ ht => ht.enters (enters_alloc t file)
  | free i n => exact h.on hs fun t _ ht => ht.free n
  | dup i oldFd newFd => exact h.on hs fun t _ ht => ht.enters (enters_dup t oldFd newFd)
  | closeAll i => exact h.on hs fun t _ _ => .empty
  | setupStandardFiles i stdinFile stdoutFile stderrFile =>
    refine h.on hs fun t hi ht => ?_
    rw [keepsStandardFiles, hi, Option.all_some, Bool.and_eq_true, Bool.and_eq_true] at hok
    exact ht.setupStandardFiles hok.1.1 hok.1.2 hok.2

end FdTables

/-- In every sequence of calls in which `SetupStandardFiles` replaces no file by a null pointer, the
count of every table is the number of its entries that are not null, `Alloc` of a file fails exactly
if no entry from 3 on is null and otherwise returns the least one, and a call changes no entry but
those that it names. -/
theorem descriptor_accounting {s : FdTables}
    (h : fdSystem.ReachableBy (fun s a => s.keepsStandardFiles a) s) :
    (∀ i t, s i = some t → t.openCount = t.openEntries) ∧
    (∀ i t, s i = some t → ∀ file,
      ((∃ error, (t.alloc (some file)).1 = .error error) ↔
        ∀ fd, stderrFd < fd → t.table fd ≠ none) ∧
      ∀ fd, (t.alloc (some file)).1 = .ok fd →
        stderrFd < fd ∧ t.table fd = none ∧ ∀ e, stderrFd < e → t.table e = none → fd ≤ e) ∧
    ∀ a s', s.step a = some s' → ∀ i fd, ¬ s.Names a i fd → s'.entry i fd = s.entry i fd := by
  refine ⟨?_, ?_, ?_⟩
  · refine h.invariant (P := FdTables.Counted) ?_ ?_
    · rintro s rfl i t ht
      cases ht
    · intro s a s' hs hok hstep
      exact hs.step hok hstep
  · intro i t _ file
    exact ⟨alloc_error_iff t file, fun fd hfd => alloc_ok hfd⟩
  · intro a s' hs i fd hn
    exact FdTables.entry_step hs hn

/-- File 7 is standard input and is allocated once more, duplicated to standard output, and the table
is moved. -/
theorem descriptor_accounting_moved : ∃ s : FdTables,
    fdSystem.ReachableBy (fun s a => s.keepsStandardFiles a) s ∧
      ∃ t, s 1 = some t ∧ t.table stdoutFd = some 7 ∧ t.openCount = 3 ∧ t.openEntries = 3 := by
  obtain ⟨s, hs, t, ht, hfile, hopen⟩ := fdSystem.exists_of_run (fun s a => s.keepsStandardFiles a)
    [.construct 0, .setupStandardFiles 0 (some 7) none none, .alloc 0 (some 7), .dup 0 3 1,
      .moveConstruct 1 0]
    (fun s => ∃ t ∈ s 1, t.table stdoutFd = some 7 ∧ t.openCount = 3) rfl (by decide)
  have hcount := (descriptor_accounting hs).1 1 t ht
  refine ⟨s, hs, t, ht, hfile, hopen, ?_⟩
  rw [hopen] at hcount
  exact_mod_cast hcount.symm

/-- Standard input is set up, and then replaced by a null pointer. -/
theorem count_without_entry : ¬ ∀ s : FdTables, fdSystem.Reachable s →
    ∀ i t, s i = some t → t.openCount = t.openEntries := by
  intro hall
  obtain ⟨s, hs, t, ht, hopen, hnone⟩ := fdSystem.exists_of_run (fun _ _ => True)
    [.construct 0, .setupStandardFiles 0 (some 7) none none, .setupStandardFiles 0 none none none]
    (fun s => ∃ t ∈ s 0, t.openCount = 1 ∧ ∀ fd, t.table fd = none) rfl (by decide)
  have hcount := hall s hs 0 t ht
  rw [openEntries_of_forall_none hnone, hopen] at hcount
  cases hcount

end SimpleKernel.Filesystem
