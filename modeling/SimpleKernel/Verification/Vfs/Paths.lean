import SimpleKernel.Verification.Vfs.Calls

/-! Path resolution. `Lookup` goes through the components of a path, but it also looks at the string
itself: for the root, for the mount point, and for a directory at a last component `.`. -/

namespace SimpleKernel.Filesystem

open List

variable {σ : Type} {ops : FileSystem σ} {v : Vfs σ} {p q : CString} {c path : CString}

/-! ## Components of a string -/

def parts (path : CString) : List CString := (path.splitOn slash).filter (· ≠ [])

def pathNames (path : CString) : List CString := (parts path).filter (· ≠ dot)

@[simp] theorem parts_nil : parts [] = [] := rfl

@[simp] theorem parts_append_slash (a r : CString) :
    parts (a ++ slash :: r) = parts a ++ parts r := by
  have hsplit : (a ++ slash :: r).splitOn slash = a.splitOn slash ++ r.splitOn slash :=
    splitOnP_append_cons a r (by simp)
  rw [parts, hsplit, filter_append, parts, parts]

@[simp] theorem parts_slash (r : CString) : parts (slash :: r) = parts r :=
  parts_append_slash [] r

theorem parts_of_notMem (hc : slash ∉ c) (hne : c ≠ []) : parts c = [c] := by
  have hsplit : c.splitOn slash = [c] := by
    apply splitOnP_eq_singleton
    intro x hx
    rw [beq_eq_false_iff_ne]
    rintro rfl
    exact hc hx
  rw [parts, hsplit]
  simp [hne]

section

variable (path)

theorem parts_skipLeadingSlashes : parts (skipLeadingSlashes path) = parts path := by
  unfold skipLeadingSlashes
  induction path with
  | nil => rfl
  | cons x path ih =>
    rw [dropWhile_cons]
    split_ifs with hx
    · rw [ih, of_decide_eq_true hx, parts_slash]
    · rfl

theorem length_skipLeadingSlashes_le : (skipLeadingSlashes path).length ≤ path.length :=
  (dropWhile_sublist _).length_le

theorem head?_skipLeadingSlashes : (skipLeadingSlashes path).head? ≠ some slash := by
  intro h
  have hne := head?_dropWhile_not (fun x => decide (x = slash)) path
  rw [skipLeadingSlashes] at h
  rw [h] at hne
  simp at hne

theorem exists_component : ∃ r, path = path.takeWhile (· ≠ slash) ++ r ∧
    (r = [] ∨ ∃ r', r = slash :: r') := by
  refine ⟨path.dropWhile (· ≠ slash), takeWhile_append_dropWhile.symm, ?_⟩
  cases h : path.dropWhile (· ≠ slash) with
  | nil => exact .inl rfl
  | cons x r =>
    have hx := head?_dropWhile_not (fun x => decide (x ≠ slash)) path
    rw [h] at hx
    simp only [head?_cons, decide_not, Bool.not_eq_eq_eq_not, Bool.not_false,
      decide_eq_true_eq] at hx
    exact .inr ⟨r, by rw [hx]⟩

theorem slash_notMem_takeWhile : slash ∉ path.takeWhile (· ≠ slash) := by
  intro h
  simpa using all_eq_true.mp all_takeWhile slash h

end

def pieces (c : CString) : List CString :=
  if c = [] then [] else c.take 255 :: pieces (c.drop 255)
termination_by c.length
decreasing_by
  have hpos := length_pos_iff.mpr ‹c ≠ []›
  rw [length_drop]
  omega

theorem pieces_of_short (hne : c ≠ []) (hshort : c.length ≤ 255) : pieces c = [c] := by
  rw [pieces, if_neg hne, take_of_length_le hshort, drop_of_length_le hshort, pieces, if_pos rfl]

theorem length_le_of_mem_pieces {d : CString} (h : d ∈ pieces c) : d.length ≤ 255 := by
  induction c using pieces.induct with
  | case1 => simp [pieces] at h
  | case2 c hne ih =>
    rw [pieces, if_neg hne] at h
    rcases mem_cons.mp h with rfl | h
    · simp
    · exact ih h

theorem parts_append {r : CString} (hc : slash ∉ c) (hr : r = [] ∨ ∃ r', r = slash :: r') :
    (parts (c ++ r)).flatMap pieces = pieces c ++ (parts r).flatMap pieces := by
  by_cases hne : c = []
  · rw [hne, nil_append, pieces, if_pos rfl, nil_append]
  rcases hr with rfl | ⟨r', rfl⟩
  · rw [append_nil, parts_of_notMem hc hne, parts_nil, flatMap_singleton, flatMap_nil, append_nil]
  · rw [parts_append_slash, parts_of_notMem hc hne, parts_slash, singleton_append, flatMap_cons]

theorem componentsFrom_eq {n : ℕ} (hn : path.length ≤ n) (hhead : path.head? ≠ some slash) :
    componentsFrom n path = (parts path).flatMap pieces := by
  induction n generalizing path with
  | zero =>
    rw [length_eq_zero_iff.mp (Nat.le_zero.mp hn)]
    rfl
  | succ n ih =>
    obtain ⟨r, hpath, hr⟩ := exists_component path
    have hnotMem := slash_notMem_takeWhile path
    rw [componentsFrom, copyPathComponent]
    generalize path.takeWhile (· ≠ slash) = c at hpath hnotMem
    subst hpath
    by_cases hc : c = []
    · subst hc
      rcases hr with rfl | ⟨r', rfl⟩
      · rfl
      · exact absurd rfl hhead
    have hdrop : (c ++ r).drop (c.take 255).length = c.drop 255 ++ r := by
      rcases Nat.le_total c.length 255 with hle | hle
      · rw [take_of_length_le hle, drop_left, drop_of_length_le hle, nil_append]
      · rw [length_take, Nat.min_eq_left hle, drop_append_of_le_length hle]
    have hlen : (skipLeadingSlashes (c.drop 255 ++ r)).length ≤ n := by
      have hpos := length_pos_iff.mpr hc
      have hskip := length_skipLeadingSlashes_le (c.drop 255 ++ r)
      rw [length_append, length_drop] at hskip
      rw [length_append] at hn
      omega
    have hne : c.take 255 ≠ [] := by simpa using hc
    rw [if_neg hne, hdrop, ih hlen (head?_skipLeadingSlashes _), parts_skipLeadingSlashes,
      parts_append (fun h => hnotMem (mem_of_mem_drop h)) hr, parts_append hnotMem hr, ← cons_append]
    congr 1
    rw [pieces.eq_1 c, if_neg hc]

theorem components_eq_pieces (path : CString) : components path = (parts path).flatMap pieces := by
  rw [← parts_skipLeadingSlashes]
  exact componentsFrom_eq (length_skipLeadingSlashes_le path) (head?_skipLeadingSlashes path)

theorem components_eq_iff : components path = parts path ↔ ∀ c ∈ parts path, c.length ≤ 255 := by
  rw [components_eq_pieces]
  constructor
  · intro h c hc
    rw [← h] at hc
    obtain ⟨d, -, hd⟩ := mem_flatMap.mp hc
    exact length_le_of_mem_pieces hd
  · intro h
    have hall : ∀ c ∈ parts path, pieces c = [c] := fun c hc =>
      pieces_of_short (by simpa using (mem_filter.mp hc).2) (h c hc)
    rw [flatMap_congr hall, flatMap_singleton']

/-! ## The mount point -/

theorem MountTable.parts_of_isUnder {mountPath : CString} (h : isUnder p mountPath = true)
    (hshort : ∀ c ∈ parts p, c.length ≤ 255) :
    parts p = parts mountPath ++ Vfs.remaining mountPath p := by
  obtain ⟨hpre, hend⟩ := Bool.and_eq_true_iff.mp h
  obtain ⟨r, rfl⟩ := isPrefixOf_iff_prefix.mp hpre
  by_cases hroot : mountPath = [slash]
  · rw [Vfs.remaining, if_neg (not_not.mpr hroot), components_eq_iff.mpr hshort, hroot]
    rfl
  have hparts : parts (mountPath ++ r) = parts mountPath ++ parts r := by
    cases r with
    | nil => simp
    | cons x r =>
      have hx : x = slash := by simpa [hroot] using hend
      rw [hx, parts_append_slash, parts_slash]
  have hmount : ∀ c ∈ parts mountPath, c.length ≤ 255 := fun c hc =>
    hshort c (hparts ▸ mem_append_left _ hc)
  rw [Vfs.remaining, if_pos hroot, components_eq_iff.mpr hshort, components_eq_iff.mpr hmount,
    hparts, drop_left]

namespace MountTable

variable {t : MountTable} {i n : ℕ} {mp : MountPoint}

/-- No active mount path that the path is under is longer, or as long and in an earlier slot. -/
def IsLongest (t : MountTable) (p : CString) (i : ℕ) (mp : MountPoint) : Prop :=
  isUnder p mp.mountPath ∧ ∀ j < maxMounts, ∀ mp', t.mounts j = some mp' → isUnder p mp'.mountPath →
    mp'.mountPath.length < mp.mountPath.length ∨ mp'.mountPath = mp.mountPath ∧ i ≤ j

theorem mountPath_eq_of_length {m m' : CString} (h : isUnder p m) (h' : isUnder p m')
    (hlen : m.length = m'.length) : m = m' := by
  have hpre := isPrefixOf_iff_prefix.mp (Bool.and_eq_true_iff.mp h).1
  have hpre' := isPrefixOf_iff_prefix.mp (Bool.and_eq_true_iff.mp h').1
  exact (prefix_of_prefix_length_le hpre hpre' hlen.le).eq_of_length hlen

/-- What the loop of `Lookup` has found in the first `n` slots. -/
structure Best (t : MountTable) (p : CString) (n : ℕ) (best : Option ℕ × ℕ) : Prop where
  bound : ∀ j < n, ∀ mp, t.mounts j = some mp → isUnder p mp.mountPath → mp.mountPath.length ≤ best.2
  found : ∀ i, best.1 = some i → i < n ∧ 0 < best.2 ∧ ∃ mp, t.mounts i = some mp ∧
    isUnder p mp.mountPath ∧ mp.mountPath.length = best.2 ∧
    ∀ j < i, ∀ mp', t.mounts j = some mp' → isUnder p mp'.mountPath → mp'.mountPath.length < best.2
  missed : best.1 = none → best.2 = 0

theorem best_foldl (t : MountTable) (p : CString) (n : ℕ) :
    Best t p n ((range n).foldl (fun best i =>
      match t.mounts i with
      | none => best
      | some mp =>
        if isUnder p mp.mountPath && best.2 < mp.mountPath.length then (some i, mp.mountPath.length)
        else best) (none, 0)) := by
  induction n with
  | zero => exact ⟨by simp, by simp, by simp⟩
  | succ n ih =>
    rw [range_succ, foldl_append, foldl_cons, foldl_nil]
    generalize (range n).foldl _ _ = best at ih ⊢
    have hkeep : (∀ mp, t.mounts n = some mp → isUnder p mp.mountPath →
        mp.mountPath.length ≤ best.2) → Best t p (n + 1) best := by
      intro hlast
      refine ⟨fun j hj mp hmp hunder => ?_, fun i hi => ?_, ih.missed⟩
      · rcases Nat.lt_succ_iff_lt_or_eq.mp hj with hj | rfl
        · exact ih.bound j hj mp hmp hunder
        · exact hlast mp hmp hunder
      · obtain ⟨hlt, hrest⟩ := ih.found i hi
        exact ⟨Nat.lt_succ_of_lt hlt, hrest⟩
    cases hmp : t.mounts n with
    | none => exact hkeep (by simp [hmp])
    | some mp =>
      simp only
      split_ifs with hunder
      · obtain ⟨hunder, hlonger⟩ := Bool.and_eq_true_iff.mp hunder
        have hlonger := of_decide_eq_true hlonger
        have hless : ∀ j < n, ∀ mp', t.mounts j = some mp' → isUnder p mp'.mountPath →
            mp'.mountPath.length < mp.mountPath.length :=
          fun j hj mp' hmp' h' => (ih.bound j hj mp' hmp' h').trans_lt hlonger
        refine ⟨fun j hj mp' hmp' h' => ?_, fun i hi => ?_, by simp⟩
        · rcases Nat.lt_succ_iff_lt_or_eq.mp hj with hj | rfl
          · exact (hless j hj mp' hmp' h').le
          · cases hmp.symm.trans hmp'
            exact le_rfl
        · cases hi
          exact ⟨Nat.lt_succ_self n, Nat.zero_lt_of_lt hlonger, mp, hmp, hunder, rfl, hless⟩
      · refine hkeep fun mp' hmp' h' => ?_
        cases hmp.symm.trans hmp'
        simpa [h'] using hunder

theorem lookup_eq_some_iff (hp : p.head? = some slash) : t.lookup p = some i ↔
    i < maxMounts ∧ ∃ mp, t.mounts i = some mp ∧ mp.mountPath ≠ [] ∧ t.IsLongest p i mp := by
  have hbest := best_foldl t p maxMounts
  rw [lookup, if_neg (not_not.mpr hp)]
  generalize (range maxMounts).foldl _ _ = best at hbest ⊢
  constructor
  · intro h
    obtain ⟨hlt, hpos, mp, hmp, hunder, hlen, hfirst⟩ := hbest.found i h
    refine ⟨hlt, mp, hmp, length_pos_iff.mp (hlen ▸ hpos), hunder, fun j hj mp' hmp' h' => ?_⟩
    rcases (hlen ▸ hbest.bound j hj mp' hmp' h').lt_or_eq with hless | heq
    · exact .inl hless
    · refine .inr ⟨mountPath_eq_of_length h' hunder heq, Nat.le_of_not_lt fun hji => ?_⟩
      exact (hlen ▸ hfirst j hji mp' hmp' h').ne heq
  · rintro ⟨hlt, mp, hmp, hne, hunder, hlongest⟩
    have hle := hbest.bound i hlt mp hmp hunder
    cases hi : best.1 with
    | none =>
      rw [hbest.missed hi] at hle
      exact absurd (length_eq_zero_iff.mp (Nat.le_zero.mp hle)) hne
    | some k =>
      obtain ⟨hk, -, mp', hmp', h', hlen, hfirst⟩ := hbest.found k hi
      rcases hlongest k hk mp' hmp' h' with hless | ⟨heq, hik⟩
      · omega
      rcases hik.lt_or_eq with hik | rfl
      · exact absurd (hfirst i hik mp hmp hunder) (by rw [← hlen, heq]; exact Nat.lt_irrefl _)
      · rfl

theorem isUnder_of_lookup {slot : ℕ} (h : t.lookup p = some slot) :
    ∃ mp, t.mounts slot = some mp ∧ isUnder p mp.mountPath = true := by
  have hp : p.head? = some slash := by
    by_contra hp
    rw [lookup, if_pos hp] at h
    cases h
  obtain ⟨-, mp, hmp, -, hunder, -⟩ := (lookup_eq_some_iff hp).mp h
  exact ⟨mp, hmp, hunder⟩

end MountTable

/-! ## Walks -/

namespace Vfs

def checked (ops : FileSystem σ) (r : Expected (DentryPtr × ℕ) × Vfs σ) :
    Expected (DentryPtr × ℕ) × Vfs σ :=
  match r with
  | (.ok place, v) =>
    if v.isDirectory ops (v.dentries place.1).inode then (.ok place, v)
    else (.error .fsNotADirectory, v)
  | (.error e, v) => (.error e, v)

variable {place : DentryPtr × ℕ}

theorem walk_cons_of_not_directory {rest : List CString}
    (h : v.isDirectory ops (v.dentries place.1).inode = false) :
    walk ops (c :: rest) place v = (.error .fsNotADirectory, v) := by
  rw [walk]
  split
  · rfl
  rename_i inode hinode
  rw [if_pos]
  intro htype
  simp [isDirectory, hinode, htype] at h

theorem walk_dot {rest : List CString} (h : v.isDirectory ops (v.dentries place.1).inode = true) :
    walk ops (dot :: rest) place v = walk ops rest place v := by
  obtain ⟨inode, hinode, htype⟩ := (Option.any_eq_true _ _).mp h
  have htype := of_decide_eq_true htype
  simp [walk, hinode, htype]

def advance (ops : FileSystem σ) (c : CString) (place : DentryPtr × ℕ) (v : Vfs σ) :
    Expected (DentryPtr × ℕ) × Vfs σ :=
  match (v.dentries place.1).inode with
  | none => (.error .fsNotADirectory, v)
  | some inode =>
    if c = dotDot then (.ok ((v.dentries place.1).parent.getD place.1, place.2), v)
    else
      match v.findOrAddChild ops place.1 inode c with
      | (.error e, v) => (.error e, v)
      | (.ok child, v) => (.ok (v.enter place.2 child), v)

theorem walk_cons (rest : List CString) (hc : c ≠ dot)
    (h : v.isDirectory ops (v.dentries place.1).inode = true) :
    walk ops (c :: rest) place v =
      match advance ops c place v with
      | (.error e, v') => (.error e, v')
      | (.ok place', v') => walk ops rest place' v' := by
  obtain ⟨current, mp⟩ := place
  obtain ⟨inode, hinode, htype⟩ := (Option.any_eq_true _ _).mp h
  have htype := of_decide_eq_true htype
  simp only [walk, advance, hinode, htype, ne_eq, not_true_eq_false, if_false, if_neg hc]
  by_cases hdotDot : c = dotDot
  · simp [if_pos hdotDot]
  simp only [if_neg hdotDot]
  cases v.findOrAddChild ops current inode c with
  | mk result v' =>
    cases result with
    | error e => rfl
    | ok child => rfl

theorem walk_eq (names : List CString) (place : DentryPtr × ℕ) (v : Vfs σ) :
    walk ops names place v =
      if names.getLast? = some dot then checked ops (walk ops (names.filter (· ≠ dot)) place v)
      else walk ops (names.filter (· ≠ dot)) place v := by
  induction names generalizing place v with
  | nil => rfl
  | cons c rest ih =>
    by_cases hdir : v.isDirectory ops (v.dentries place.1).inode = true
    · by_cases hc : c = dot
      · rw [hc, walk_dot hdir, filter_cons_of_neg (by simp)]
        cases rest with
        | nil => simp [walk, checked, hdir]
        | cons c' rest => rw [ih, getLast?_cons_cons]
      have hlast : (c :: rest).getLast? = some dot ↔ rest.getLast? = some dot := by
        cases rest with
        | nil => simp [hc]
        | cons c' rest => simp
      rw [filter_cons_of_pos (by simpa using hc), walk_cons rest hc hdir, walk_cons _ hc hdir]
      cases advance ops c place v with
      | mk result v' =>
        cases result with
        | error e => simp [checked]
        | ok place' =>
          simp [ih place' v', hlast]
    · rw [Bool.not_eq_true] at hdir
      rw [walk_cons_of_not_directory hdir]
      cases hnames : (c :: rest).filter (· ≠ dot) with
      | nil =>
        have hlast : (c :: rest).getLast? = some dot := by
          have hall := filter_eq_nil_iff.mp hnames
          rw [getLast?_eq_getLast_of_ne_nil (cons_ne_nil c rest)]
          simpa using hall _ (getLast_mem (cons_ne_nil c rest))
        rw [if_pos hlast]
        simp [walk, checked, hdir]
      | cons c' rest' =>
        rw [walk_cons_of_not_directory hdir]
        simp [checked]

/-! ## Two paths with the same names -/

def mountOf (v : Vfs σ) (path : CString) : Option ℕ :=
  if isRootPath path then v.mountTable.rootMount else v.mountTable.lookup path

def startsIn (v : Vfs σ) (path : CString) (i : ℕ) : Prop :=
  if isRootPath path then v.mountTable.rootMount = some i
  else i < maxMounts ∧ ∃ mp, v.mountTable.mounts i = some mp ∧ mp.mountPath ≠ [] ∧
    v.mountTable.IsLongest path i mp

theorem mountOf_eq_some_iff (hp : p.head? = some slash) (i : ℕ) :
    v.mountOf p = some i ↔ v.startsIn p i := by
  unfold mountOf startsIn
  split
  · rfl
  · exact MountTable.lookup_eq_some_iff hp

/-- `Lookup` starts in the same mount point for the two paths; it ends at the same entry in the same
mount point, or fails, for both. -/
structure SameResolution (ops : FileSystem σ) (v : Vfs σ) (p q : CString) : Prop where
  mount : v.initialized = true → v.mountOf p = v.mountOf q
  result : (v.resolve ops (some p)).1.toOption = (v.resolve ops (some q)).1.toOption

def behindMount (v : Vfs σ) (path : CString) : List CString :=
  (((v.mountTable.lookup path).bind v.mountTable.mounts).map fun mp =>
    remaining mp.mountPath path).getD []

def endsInDot (v : Vfs σ) (path : CString) : Bool := (v.behindMount path).getLast? = some dot

def follow (ops : FileSystem σ) (v : Vfs σ) (path : CString) :
    Expected (DentryPtr × ℕ) × Vfs σ :=
  match v.mountTable.lookup path with
  | none => (.error .fsNotMounted, v)
  | some slot =>
    match v.mountTable.mounts slot with
    | none => (.error .fsNotMounted, v)
    | some mp => walk ops ((v.behindMount path).filter (· ≠ dot)) (mp.rootDentry, slot) v

def endsAtFile (ops : FileSystem σ) : Expected (DentryPtr × ℕ) × Vfs σ → Bool
  | (.ok place, v) => !v.isDirectory ops (v.dentries place.1).inode
  | (.error _, _) => false

def leadsToFile (ops : FileSystem σ) (v : Vfs σ) (path : CString) : Bool :=
  endsAtFile ops (v.follow ops path)

def leadsToRoot (ops : FileSystem σ) (v : Vfs σ) (path : CString) : Bool :=
  if v.endsInDot path && v.leadsToFile ops path then v.rootDentry = none
  else (v.follow ops path).1.toOption.map (fun place => (place.1, some place.2)) =
    v.rootDentry.map fun root => (root, v.mountTable.rootMount)

/-- The string of neither path, or that of both, is taken for the root, or the names lead there
anyway; and a component `.` is last in both or none, or does not stand behind a file. -/
def namesDecide (ops : FileSystem σ) (v : Vfs σ) (p q : CString) : Bool :=
  match isRootPath p, isRootPath q with
  | true, true => true
  | true, false => v.leadsToRoot ops q
  | false, true => v.leadsToRoot ops p
  | false, false => v.endsInDot p = v.endsInDot q || !v.leadsToFile ops p

/-- Nothing but the names matters: both strings are under the same mount point, and the names decide
where they lead. -/
def resolvesAlike (ops : FileSystem σ) (v : Vfs σ) (p q : CString) : Prop :=
  v.initialized = true → (∀ i, v.startsIn p i ↔ v.startsIn q i) ∧ v.namesDecide ops p q

theorem toOption_checked (r : Expected (DentryPtr × ℕ) × Vfs σ) :
    (checked ops r).1.toOption = if endsAtFile ops r then none else r.1.toOption := by
  obtain ⟨result, v⟩ := r
  cases result with
  | error e => rfl
  | ok place =>
    by_cases hdir : v.isDirectory ops (v.dentries place.1).inode = true
    · simp [checked, endsAtFile, hdir]
    · simp [checked, endsAtFile, hdir, Except.toOption]

theorem toOption_map {α β : Type} (f : α → β) (r : Expected α) :
    (r.map f).toOption = r.toOption.map f := by
  cases r with
  | error e => rfl
  | ok x => rfl

section

variable (hinit : v.initialized = true) (hp : p.head? = some slash)
include hinit hp

theorem toOption_resolve
    (hroot : isRootPath p = false) :
    (v.resolve ops (some p)).1.toOption =
      if v.endsInDot p && v.leadsToFile ops p then none
      else (v.follow ops p).1.toOption.map fun place => (place.1, some place.2) := by
  simp only [resolve, hinit, hp, hroot, Bool.not_true, ne_eq, not_true_eq_false, if_false,
    Bool.false_eq_true]
  unfold leadsToFile endsInDot follow behindMount
  cases hlookup : v.mountTable.lookup p with
  | none => rfl
  | some slot =>
    cases hmount : v.mountTable.mounts slot with
    | none => simp [hmount, Except.toOption]
    | some mp =>
      simp only [Option.bind_some, hmount, Option.map_some, Option.getD_some, Prod.map_fst,
        toOption_map]
      rw [walk_eq]
      split
      · rename_i hlast
        simp only [hlast, toOption_checked, decide_true, Bool.true_and]
        rw [apply_ite (Option.map _), Option.map_none]
      · rename_i hlast
        simp [hlast]

theorem toOption_resolve_root
    (hroot : isRootPath p = true) : (v.resolve ops (some p)).1.toOption =
      v.rootDentry.map fun root => (root, v.mountTable.rootMount) := by
  simp only [resolve, hinit, hp, hroot, Bool.not_true, ne_eq, not_true_eq_false, if_false,
    Bool.false_eq_true, if_true]
  cases v.rootDentry with
  | none => rfl
  | some root => rfl

theorem leadsToRoot_iff
    (hroot : isRootPath p = false) : v.leadsToRoot ops p = true ↔
      v.rootDentry.map (fun root => (root, v.mountTable.rootMount)) =
        (v.resolve ops (some p)).1.toOption := by
  rw [toOption_resolve hinit hp hroot, leadsToRoot]
  split
  · rw [decide_eq_true_eq, Option.map_eq_none_iff]
  · rw [decide_eq_true_eq, eq_comm]

end

theorem follow_eq (hps : ∀ c ∈ parts p, c.length ≤ 255) (hqs : ∀ c ∈ parts q, c.length ≤ 255)
    (hnames : pathNames p = pathNames q) (hlookup : v.mountTable.lookup p = v.mountTable.lookup q) :
    v.follow ops p = v.follow ops q := by
  unfold follow behindMount
  rw [hlookup]
  cases hslot : v.mountTable.lookup q with
  | none => rfl
  | some slot =>
    obtain ⟨mp, hmp, hunder⟩ := MountTable.isUnder_of_lookup hslot
    obtain ⟨mp', hmp', hunder'⟩ := MountTable.isUnder_of_lookup (hlookup.trans hslot)
    cases hmp'.symm.trans hmp
    simp only [Option.bind_some, hmp, Option.map_some, Option.getD_some]
    rw [pathNames, pathNames, MountTable.parts_of_isUnder hunder' hps,
      MountTable.parts_of_isUnder hunder hqs, filter_append, filter_append] at hnames
    rw [append_cancel_left hnames]

theorem same_toOption_iff (h : v.follow ops p = v.follow ops q) :
    ((if v.endsInDot p && v.leadsToFile ops p then none
      else (v.follow ops p).1.toOption.map fun place => (place.1, some place.2)) =
      if v.endsInDot q && v.leadsToFile ops q then none
      else (v.follow ops q).1.toOption.map fun place => (place.1, some place.2)) ↔
      (v.endsInDot p = v.endsInDot q || !v.leadsToFile ops p) = true := by
  have hfile : v.leadsToFile ops q = v.leadsToFile ops p := by rw [leadsToFile, leadsToFile, h]
  rw [hfile, ← h]
  cases hleads : v.leadsToFile ops p with
  | false => simp
  | true =>
    have hsome : (v.follow ops p).1.toOption ≠ none := by
      rw [leadsToFile] at hleads
      generalize v.follow ops p = r at hleads
      obtain ⟨result, v'⟩ := r
      cases result with
      | error e => cases hleads
      | ok place => simp [Except.toOption]
    cases v.endsInDot p <;> cases v.endsInDot q <;> simp [hsome, eq_comm]

end Vfs

/-- Two paths with the same names are resolved alike just where `Lookup` does not go by something
else in the strings. -/
theorem same_resolution_iff (hp : p.head? = some slash) (hq : q.head? = some slash)
    (hps : ∀ c ∈ parts p, c.length ≤ 255) (hqs : ∀ c ∈ parts q, c.length ≤ 255)
    (hnames : pathNames p = pathNames q) :
    v.SameResolution ops p q ↔ v.resolvesAlike ops p q := by
  cases hinit : v.initialized with
  | false =>
    refine iff_of_true ⟨?_, by simp [Vfs.resolve, hinit]⟩ ?_
    all_goals
      intro h
      rw [hinit] at h
      cases h
  | true =>
    have hmounts : v.mountOf p = v.mountOf q ↔ ∀ i, v.startsIn p i ↔ v.startsIn q i := by
      simp only [Option.ext_iff, Vfs.mountOf_eq_some_iff hp, Vfs.mountOf_eq_some_iff hq]
    have hsame : v.SameResolution ops p q ↔ v.mountOf p = v.mountOf q ∧
        (v.resolve ops (some p)).1.toOption = (v.resolve ops (some q)).1.toOption :=
      ⟨fun h => ⟨h.mount hinit, h.result⟩, fun h => ⟨fun _ => h.1, h.2⟩⟩
    rw [hsame, Vfs.resolvesAlike, imp_iff_right hinit, ← hmounts]
    refine and_congr_right fun hmount => ?_
    unfold Vfs.namesDecide
    cases hrootp : Vfs.isRootPath p with
    | true =>
      rw [Vfs.toOption_resolve_root hinit hp hrootp]
      cases hrootq : Vfs.isRootPath q with
      | true => simp [Vfs.toOption_resolve_root hinit hq hrootq]
      | false => exact (Vfs.leadsToRoot_iff hinit hq hrootq).symm
    | false =>
      cases hrootq : Vfs.isRootPath q with
      | true =>
        rw [Vfs.toOption_resolve_root hinit hq hrootq, eq_comm]
        exact (Vfs.leadsToRoot_iff hinit hp hrootp).symm
      | false =>
        simp only [Vfs.mountOf, hrootp, hrootq, Bool.false_eq_true, if_false] at hmount
        have hfollow : v.follow ops p = v.follow ops q :=
          Vfs.follow_eq hps hqs hnames hmount
        rw [Vfs.toOption_resolve hinit hp hrootp, Vfs.toOption_resolve hinit hq hrootq]
        exact Vfs.same_toOption_iff hfollow

/-- With a directory `/a`, the paths `/a` and `/.//a/` lead there. -/
theorem same_resolution_of_slashes : ∃ v : Vfs RamFs, (vfsSystem ramFs fun _ => {}).Reachable v ∧
    (v.resolve ramFs (some [47, 97])).1 = .ok (1, some 0) ∧
    v.SameResolution ramFs [47, 97] [47, 46, 47, 47, 97, 47] := by
  obtain ⟨v, hr, hresolve, hmount, hnames⟩ := (vfsSystem ramFs fun _ => {}).exists_of_run
    (fun _ _ => True)
    [.init, .mount (some [47]) (some 0) none [some 0], .mkDir (some [47, 97]) [some 1]]
    (fun v => (v.resolve ramFs (some [47, 97])).1 = .ok (1, some 0) ∧
      v.mountOf [47, 97] = v.mountOf [47, 46, 47, 47, 97, 47] ∧
      v.namesDecide ramFs [47, 97] [47, 46, 47, 47, 97, 47]) rfl (by decide +kernel)
  refine ⟨v, hr, hresolve, (same_resolution_iff rfl rfl (by decide) (by decide) (by decide)).mpr ?_⟩
  refine fun _ => ⟨fun i => ?_, hnames⟩
  rw [← Vfs.mountOf_eq_some_iff rfl, ← Vfs.mountOf_eq_some_iff rfl, hmount]

/-- The path `//a` is taken for the root, and `/a` is not. -/
theorem double_slash_is_root : ¬ ∀ (v : Vfs RamFs) (p q : CString),
    (vfsSystem ramFs fun _ => {}).Reachable v → p.head? = some slash → q.head? = some slash →
    (∀ c ∈ parts p, c.length ≤ 255) → (∀ c ∈ parts q, c.length ≤ 255) →
    pathNames p = pathNames q → v.SameResolution ramFs p q := by
  intro hall
  obtain ⟨v, hr, hone, htwo⟩ := (vfsSystem ramFs fun _ => {}).exists_of_run (fun _ _ => True)
    [.init, .mount (some [47]) (some 0) none [some 0], .mkDir (some [47, 97]) [some 1]]
    (fun v => (v.resolve ramFs (some [47, 97])).1 = .ok (1, some 0) ∧
      (v.resolve ramFs (some [47, 47, 97])).1 = .ok (0, some 0)) rfl (by decide +kernel)
  have hresult := (hall v [47, 97] [47, 47, 97] hr rfl rfl (by decide) (by decide) (by decide)).result
  rw [hone, htwo] at hresult
  cases hresult

/-! ## Paths below a mount point -/

namespace Vfs

/-- The walk that `Lookup` makes for a path: the components, and the root of the mount point. -/
def startsWith (v : Vfs σ) (path : CString) : Option (List CString × DentryPtr × ℕ) :=
  if isRootPath path then
    v.rootDentry.bind fun root => v.mountTable.rootMount.map fun slot => ([], root, slot)
  else
    (v.mountTable.lookup path).bind fun slot => (v.mountTable.mounts slot).map fun mp =>
      (remaining mp.mountPath path, mp.rootDentry, slot)

theorem resolve_of_startsWith {names : List CString} {root : DentryPtr} {slot : ℕ}
    (hinit : v.initialized = true) (hp : p.head? = some slash)
    (h : v.startsWith p = some (names, root, slot)) :
    v.resolve ops (some p) =
      (walk ops names (root, slot) v).map (·.map fun place => (place.1, some place.2)) id := by
  unfold startsWith at h
  simp only [resolve, hinit, hp]
  split_ifs at h with hroot
  · obtain ⟨_, hdentry, h⟩ := Option.bind_eq_some_iff.mp h
    obtain ⟨_, hmount, ⟨⟩⟩ := Option.map_eq_some_iff.mp h
    simp [hroot, hdentry, hmount, walk, Except.map]
  obtain ⟨_, hslot, h⟩ := Option.bind_eq_some_iff.mp h
  obtain ⟨mp, hmp, ⟨⟩⟩ := Option.map_eq_some_iff.mp h
  simp [hroot, hslot, hmp]

/-- A path below a mount point is resolved from its root with the remaining names, exactly if it is
not taken for the root and, as strings, the mount path is the longest one that the path is under. -/
theorem redirects_iff (ops : FileSystem σ) {mp : MountPoint} {slot : ℕ} {names : List CString}
    (hinit : v.initialized = true) (hp : p.head? = some slash) (hslot : slot < maxMounts)
    (hmp : v.mountTable.mounts slot = some mp) (hmount : mp.mountPath.head? = some slash)
    (hshort : ∀ c ∈ parts p, c.length ≤ 255)
    (hnames : parts p = parts mp.mountPath ++ names) (hne : names ≠ []) :
    (v.startsWith p = some (names, mp.rootDentry, slot) ↔
      isRootPath p = false ∧ v.mountTable.IsLongest p slot mp) ∧
    (v.startsWith p = some (names, mp.rootDentry, slot) → v.resolve ops (some p) =
      (walk ops names (mp.rootDentry, slot) v).map (·.map fun place => (place.1, some place.2)) id) := by
  have hpath : mp.mountPath ≠ [] := by
    intro h
    rw [h] at hmount
    cases hmount
  have hlookup : v.mountTable.lookup p = some slot ↔ v.mountTable.IsLongest p slot mp := by
    rw [MountTable.lookup_eq_some_iff hp]
    constructor
    · rintro ⟨-, mp', hmp', -, h⟩
      cases hmp'.symm.trans hmp
      exact h
    · exact fun h => ⟨hslot, mp, hmp, hpath, h⟩
  rw [← hlookup]
  refine ⟨⟨?_, ?_⟩, resolve_of_startsWith hinit hp⟩
  · intro h
    unfold startsWith at h
    split_ifs at h with hroot
    · obtain ⟨_, -, h⟩ := Option.bind_eq_some_iff.mp h
      obtain ⟨_, -, h⟩ := Option.map_eq_some_iff.mp h
      exact absurd (congrArg Prod.fst h).symm hne
    obtain ⟨_, hslot, h⟩ := Option.bind_eq_some_iff.mp h
    obtain ⟨_, -, h⟩ := Option.map_eq_some_iff.mp h
    simp only [Prod.mk.injEq] at h
    rw [hslot, h.2.2]
    exact ⟨Bool.eq_false_iff.mpr hroot, rfl⟩
  · rintro ⟨hroot, hlookup⟩
    obtain ⟨mp', hmp', hunder⟩ := MountTable.isUnder_of_lookup hlookup
    cases hmp'.symm.trans hmp
    rw [MountTable.parts_of_isUnder hunder hshort] at hnames
    simp [startsWith, hroot, hlookup, hmp, append_cancel_left hnames]

end Vfs

/-- With a file system on `/a`, the path `/a/b` is resolved from its root. -/
theorem redirects_below : ∃ v : Vfs RamFs, (vfsSystem ramFs fun _ => {}).Reachable v ∧
    v.startsWith [47, 97, 47, 98] = some ([[98]], 5, 1) := by
  obtain ⟨v, hr, ⟨mp, hmp, hpath, hroot⟩, hinit, hlongest⟩ :=
    (vfsSystem ramFs fun _ => {}).exists_of_run (fun _ _ => True)
    [.init, .mount (some [47]) (some 0) none [some 0],
      .mount (some [47, 97]) (some 1) none [some 5]]
    (fun v => (∃ mp ∈ v.mountTable.mounts 1, mp.mountPath = [47, 97] ∧ mp.rootDentry = 5) ∧
      v.initialized ∧ ∀ j < maxMounts, ∀ mp' ∈ v.mountTable.mounts j,
        mp'.mountPath.length < 2 ∨ mp'.mountPath = [47, 97] ∧ 1 ≤ j) rfl (by decide +kernel)
  have hnames : parts [47, 97, 47, 98] = parts mp.mountPath ++ [[98]] := by
    rw [hpath]
    decide
  have hstrings : v.mountTable.IsLongest [47, 97, 47, 98] 1 mp := by
    rw [MountTable.IsLongest, hpath]
    exact ⟨by decide, fun j hj mp' hmp' _ => hlongest j hj mp' hmp'⟩
  rw [← hroot]
  exact ⟨v, hr, (Vfs.redirects_iff ramFs hinit rfl (by decide) hmp (by rw [hpath]; rfl) (by decide)
    hnames (by decide)).1.mpr ⟨rfl, hstrings⟩⟩

/-- With a file system on `/a/`, the path `/a/b` is resolved from the root of the one on `/`. -/
theorem trailing_slash_not_redirected : ∃ v : Vfs RamFs, (vfsSystem ramFs fun _ => {}).Reachable v ∧
    ∃ mp ∈ v.mountTable.mounts 1, parts [47, 97, 47, 98] = parts mp.mountPath ++ [[98]] ∧
      v.startsWith [47, 97, 47, 98] = some ([[97], [98]], 0, 0) :=
  (vfsSystem ramFs fun _ => {}).exists_of_run (fun _ _ => True)
    [.init, .mount (some [47]) (some 0) none [some 0],
      .mount (some [47, 97, 47]) (some 1) none [some 1]]
    (fun v => ∃ mp ∈ v.mountTable.mounts 1, parts [47, 97, 47, 98] = parts mp.mountPath ++ [[98]] ∧
      v.startsWith [47, 97, 47, 98] = some ([[97], [98]], 0, 0)) rfl (by decide +kernel)

/-! ## Names that do not fit into the buffer -/

/-- A `Lookup` that succeeds has gone over the parts of the path, each of them as a whole. -/
def Vfs.TakesParts (v : Vfs σ) (ops : FileSystem σ) (path : CString) : Prop :=
  (∃ d, (v.lookup ops (some path)).1 = .ok d) →
    (if isRootPath path then [] else components path) = parts path

/-- From the root of the mount point, the pieces of the parts behind its path lead to an entry. -/
def Vfs.WalksPieces (v : Vfs σ) (ops : FileSystem σ) (path : CString) : Prop :=
  ∃ slot mp place, v.startsIn path slot ∧ v.mountTable.mounts slot = some mp ∧
    (walk ops (((parts path).flatMap pieces).drop ((parts mp.mountPath).flatMap pieces).length)
      (mp.rootDentry, slot) v).1 = .ok place

theorem Vfs.remaining_eq (mountPath path : CString) : remaining mountPath path =
    ((parts path).flatMap pieces).drop ((parts mountPath).flatMap pieces).length := by
  rw [remaining, ← components_eq_pieces, ← components_eq_pieces]
  split_ifs with hroot
  · rfl
  · rw [not_not.mp hroot]
    rfl

theorem Vfs.lookup_ok_iff (hinit : v.initialized = true) (hp : path.head? = some slash) :
    (∃ d, (v.lookup ops (some path)).1 = .ok d) ↔
      if isRootPath path then v.rootDentry ≠ none else v.WalksPieces ops path := by
  simp only [lookup, resolve, hinit, hp, Bool.not_true, ne_eq, not_true_eq_false, if_false,
    Bool.false_eq_true]
  split_ifs with hroot
  · cases v.rootDentry <;> simp [Except.map]
  unfold WalksPieces
  simp only [startsIn, hroot, Bool.false_eq_true, if_false, ← MountTable.lookup_eq_some_iff hp,
    ← remaining_eq]
  cases hlookup : v.mountTable.lookup path with
  | none => simp [Except.map]
  | some slot =>
    cases hmp : v.mountTable.mounts slot with
    | none => simp [Except.map, hmp]
    | some mp =>
      rcases hwalk : walk ops (remaining mp.mountPath path) (mp.rootDentry, slot) v with
        ⟨e | ⟨d, i⟩, v'⟩ <;>
      simp [Except.map, hmp, hwalk]

/-- That is so exactly if the parts fit into the buffer, or the pieces of those that do not lead
nowhere; and if no part is behind the slashes of a path that is taken for the root. -/
theorem Vfs.takesParts_iff (v : Vfs σ) (ops : FileSystem σ) (path : CString) :
    v.TakesParts ops path ↔ (v.initialized = true → path.head? = some slash →
      if isRootPath path then v.rootDentry = none ∨ parts path = []
      else (∀ c ∈ parts path, c.length ≤ 255) ∨ ¬ v.WalksPieces ops path) := by
  unfold TakesParts
  by_cases hinit : v.initialized = true
  swap
  · simp [lookup, resolve, hinit, Except.map]
  by_cases hp : path.head? = some slash
  swap
  · simp [lookup, resolve, hinit, hp, Except.map]
  simp only [lookup_ok_iff hinit hp, hinit, hp, forall_const]
  split_ifs with hroot
  · rw [eq_comm, ← or_iff_not_imp_left]
  · rw [components_eq_iff, imp_iff_or_not]

/-- A component of 256 bytes is found as a directory and one in it. -/
theorem overlong_component_found : ∃ v : Vfs RamFs, (vfsSystem ramFs fun _ => {}).Reachable v ∧
    (v.lookup ramFs (some (slash :: replicate 256 97))).1 = .ok 2 ∧
    (∃ c ∈ parts (slash :: replicate 256 97), 255 < c.length) ∧
    ¬ v.TakesParts ramFs (slash :: replicate 256 97) := by
  obtain ⟨v, hr, h⟩ := (vfsSystem ramFs fun _ => {}).exists_of_run (fun _ _ => True)
    [.init, .mount (some [47]) (some 0) none [some 0],
      .mkDir (some (slash :: replicate 255 97)) [some 1],
      .mkDir (some (slash :: replicate 255 97 ++ [47, 97])) [some 2]]
    (fun v => (v.lookup ramFs (some (slash :: replicate 256 97))).1 = .ok 2) rfl (by decide +kernel)
  refine ⟨v, hr, h, by decide +kernel, ?_⟩
  intro htakes
  exact absurd (htakes ⟨2, h⟩) (by decide +kernel)

end SimpleKernel.Filesystem
