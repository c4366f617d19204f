import Mathlib.Data.List.Perm.Subperm
import SimpleKernel.Model.Filesystem.Vfs
import SimpleKernel.Shared.Family

/-! The directory entries in memory as trees: `FindChild` searches a list of children, `AddChild`
and `RemoveChild` change one. -/

namespace SimpleKernel.Filesystem.Vfs

open List

variable {σ : Type} {v v' : Vfs σ} {d c parent : DentryPtr} {name : CString}
  {kids : DentryPtr → List DentryPtr} {l : List DentryPtr} {link : Link}

def family (v : Vfs σ) : Family DentryPtr where
  parent d := (v.dentries d).parent
  children d := (v.dentries d).children
  nextSibling d := (v.dentries d).nextSibling

@[simp] theorem fileSystems_setFs_self (v : Vfs σ) (f : FsPtr) (fs : σ) :
    (v.setFs f fs).fileSystems f = fs :=
  Function.update_self ..

@[simp] theorem fileSystems_setFs_of_ne (v : Vfs σ) {f g : FsPtr} (h : g ≠ f) (fs : σ) :
    (v.setFs f fs).fileSystems g = v.fileSystems g :=
  Function.update_of_ne h ..

@[simp] theorem setFs_self (v : Vfs σ) (f : FsPtr) : v.setFs f (v.fileSystems f) = v := by
  rw [setFs, Function.update_eq_self]

/-! ## Search -/

theorem findFrom_eq {first : Option DentryPtr} {n : ℕ}
    (h : v.family.ListFrom first l) (hn : l.length ≤ n) :
    v.findFrom name n first = l.find? fun c => (v.dentries c).name = name := by
  induction l generalizing first n with
  | nil =>
    obtain rfl : first = none := h
    cases n with
    | zero => rfl
    | succ n => rfl
  | cons x l ih =>
    obtain ⟨rfl, htail⟩ := h
    cases n with
    | zero => cases hn
    | succ n =>
      rw [findFrom, find?_cons]
      by_cases hname : (v.dentries x).name = name
      · rw [if_pos hname, decide_eq_true hname]
      · rw [if_neg hname, decide_eq_false hname]
        exact ih htail (Nat.le_of_succ_le_succ hn)

theorem length_kids_le (h : v.family.WellFormed v.allocated kids) (d : DentryPtr) :
    (kids d).length ≤ v.allocated.length :=
  ((h.nodup d).subperm fun _ hc => (h.mem_of_mem_kids hc).1).length_le

section

variable (h : v.family.WellFormed v.allocated kids) (hd : d ∈ v.allocated)
include h hd

theorem findChild_eq : v.findChild d name = (kids d).find? fun c => (v.dentries c).name = name :=
  findFrom_eq (h.list d hd) (length_kids_le h d)

theorem mem_of_findChild
    (hfind : v.findChild d name = some c) : c ∈ kids d ∧ (v.dentries c).name = name := by
  rw [findChild_eq h hd] at hfind
  have hname := find?_some hfind
  exact ⟨mem_of_find?_eq_some hfind, of_decide_eq_true hname⟩

theorem ne_of_findChild
    (hfind : v.findChild d name = none) (hc : c ∈ kids d) : (v.dentries c).name ≠ name := by
  rw [findChild_eq h hd] at hfind
  simpa using find?_eq_none.mp hfind c hc

end

/-! ## New entries -/

/-- A new entry has become a child of `parent`. -/
structure AddedDentry (v v' : Vfs σ) (parent : DentryPtr) (name : CString)
    (inode : Option InodeRef) (d : DentryPtr) : Prop where
  fresh : d ∉ v.allocated
  allocated : v'.allocated = d :: v.allocated
  added : v.family.Added v'.family parent d
  name : (v'.dentries d).name = name.take 255
  inode : (v'.dentries d).inode = inode
  refCount : (v'.dentries d).refCount = 0
  name_of_ne : ∀ x, x ≠ d → (v'.dentries x).name = (v.dentries x).name
  inode_of_ne : ∀ x, x ≠ d → (v'.dentries x).inode = (v.dentries x).inode
  refCount_of_ne : ∀ x, x ≠ d → (v'.dentries x).refCount = (v.dentries x).refCount
  table : v'.mountTable = v.mountTable
  root : v'.rootDentry = v.rootDentry
  files : v'.files = v.files
  fileSystems : v'.fileSystems = v.fileSystems

theorem allocDentry_cases (v : Vfs σ) : (∃ supply, v.allocDentry = (none, { v with supply })) ∨
    ∃ d supply, d ∉ v.allocated ∧ v.allocDentry = (some d, { v with
      dentries := Function.update v.dentries d {}, allocated := d :: v.allocated, supply }) := by
  unfold allocDentry
  split
  · rename_i hsupply
    exact .inl ⟨v.supply, rfl⟩
  · rename_i rest hsupply
    exact .inl ⟨rest, rfl⟩
  rename_i d rest hsupply
  split_ifs with hd
  · exact .inl ⟨rest, rfl⟩
  · exact .inr ⟨d, rest, hd, rfl⟩

theorem addDentry_cases (v : Vfs σ) {parent : DentryPtr} (name : CString)
    (inode : Option InodeRef) (hparent : parent ∈ v.allocated) :
    (∃ supply, v.addDentry parent name inode = (none, { v with supply })) ∨
      ∃ d v', v.addDentry parent name inode = (some d, v') ∧
        AddedDentry v v' parent name inode d := by
  unfold addDentry
  rcases v.allocDentry_cases with ⟨supply, heq⟩ | ⟨d, supply, hd, heq⟩
  · rw [heq]
    exact .inl ⟨supply, rfl⟩
  rw [heq]
  have hne : parent ≠ d := by
    rintro rfl
    exact hd hparent
  refine .inr ⟨d, _, rfl, ?_⟩
  generalize hv' : addChild _ parent d = v'
  have hself : v'.dentries d =
      { name := name.take 255, inode, parent := some parent,
        nextSibling := (v.dentries parent).children } := by
    simp [← hv', addChild, setDentry, hne, hne.symm]
  have hother : ∀ x, x ≠ d → v'.dentries x =
      if x = parent then { v.dentries x with children := some d } else v.dentries x := by
    intro x hx
    by_cases hxp : x = parent
    · simp [← hv', addChild, setDentry, hne, hxp]
    · simp [← hv', addChild, setDentry, hx, hxp]
  constructor
  case fresh => exact hd
  case allocated => rw [← hv']; rfl
  case added =>
    constructor
    case parent | leaf | nextSibling => simp [family, hself]
    case first => simp [family, hother parent hne]
    case children_of_ne =>
      intro x hx hxp
      simp [family, hother x hx, hxp]
    all_goals
      intro x hx
      simp only [family, hother x hx]
      split <;> rfl
  case name | inode | refCount => rw [hself]
  case table | root | files | fileSystems => rw [← hv']; rfl
  all_goals
    intro x hx
    rw [hother x hx]
    split <;> rfl

/-! ## Removed entries -/

/-- The child has been taken out of the part of the list that the link leads to. -/
structure Unlinked (v v' : Vfs σ) (link : Link) (l : List DentryPtr) (c : DentryPtr) : Prop where
  list : v'.family.ListFrom (v'.readLink link) (l.erase c)
  parent : (v'.dentries c).parent = none
  parent_of_ne : ∀ x, x ≠ c → (v'.dentries x).parent = (v.dentries x).parent
  children : ∀ x, link ≠ .children x → (v'.dentries x).children = (v.dentries x).children
  nextSibling : ∀ x, x ∉ l → link ≠ .nextSibling x →
    (v'.dentries x).nextSibling = (v.dentries x).nextSibling
  name : ∀ x, (v'.dentries x).name = (v.dentries x).name
  inode : ∀ x, (v'.dentries x).inode = (v.dentries x).inode
  refCount : ∀ x, (v'.dentries x).refCount = (v.dentries x).refCount
  rest : v' = { v with dentries := v'.dentries }

theorem dentries_setDentry (v : Vfs σ) (d : DentryPtr) (f : Dentry → Dentry) (x : DentryPtr) :
    (v.setDentry d f).dentries x = if x = d then f (v.dentries x) else v.dentries x := by
  by_cases hx : x = d
  all_goals simp [setDentry, hx]

theorem setDentry_proj {β : Type} (g : Dentry → β) {f : Dentry → Dentry}
    (hg : ∀ e, g (f e) = g e) (v : Vfs σ) (d x : DentryPtr) :
    g ((v.setDentry d f).dentries x) = g (v.dentries x) := by
  rw [dentries_setDentry]
  split
  · exact hg _
  · rfl

theorem unlinked_head (htail : v.family.ListFrom
    (v.dentries c).nextSibling l) (hc : c ∉ l) (hlink : ∀ x ∈ c :: l, link ≠ .nextSibling x) :
    Unlinked v ((v.writeLink (v.dentries c).nextSibling link).setDentry c fun e =>
      { e with parent := none, nextSibling := none }) link (c :: l) c := by
  generalize hv' : setDentry _ c _ = v'
  have hnext : ∀ x, x ≠ c → link ≠ .nextSibling x →
      (v'.dentries x).nextSibling = (v.dentries x).nextSibling := by
    intro x hx hne
    rw [← hv', dentries_setDentry, if_neg hx]
    cases link with
    | children d =>
      rw [writeLink, dentries_setDentry]
      split_ifs <;> rfl
    | nextSibling d =>
      rw [writeLink, dentries_setDentry, if_neg]
      rintro rfl
      exact hne rfl
  constructor
  case list =>
    have hread : v'.readLink link = (v.dentries c).nextSibling := by
      subst hv'
      cases link with
      | children d =>
        refine (setDentry_proj (·.children) (by intro; rfl) _ c d).trans ?_
        rw [writeLink, dentries_setDentry, if_pos rfl]
      | nextSibling d =>
        have hne : d ≠ c := by
          rintro rfl
          exact hlink d (.head _) rfl
        rw [readLink, dentries_setDentry, if_neg hne, writeLink, dentries_setDentry, if_pos rfl]
    rw [erase_cons_head, hread]
    exact htail.congr fun x hx => hnext x (ne_of_mem_of_not_mem hx hc) (hlink x (.tail _ hx))
  case parent => rw [← hv', dentries_setDentry, if_pos rfl]
  case parent_of_ne =>
    intro x hx
    rw [← hv', dentries_setDentry, if_neg hx]
    cases link <;> rw [writeLink, dentries_setDentry] <;> split_ifs <;> rfl
  case children =>
    intro x hx
    rw [← hv']
    refine (setDentry_proj (·.children) (by intro; rfl) _ c x).trans ?_
    cases link with
    | children d =>
      rw [writeLink, dentries_setDentry, if_neg]
      rintro rfl
      exact hx rfl
    | nextSibling d =>
      rw [writeLink, dentries_setDentry]
      split_ifs <;> rfl
  case nextSibling =>
    intro x hx hne
    exact hnext x (fun heq => hx (heq ▸ .head _)) hne
  case name | inode | refCount =>
    intro x
    rw [← hv', dentries_setDentry]
    cases link <;> rw [writeLink, dentries_setDentry] <;> split_ifs <;> rfl
  case rest =>
    subst hv'
    cases link <;> rfl

theorem removeFrom_unlinked {n : ℕ}
    (h : v.family.ListFrom (v.readLink link) l) (hnodup : l.Nodup) (hc : c ∈ l)
    (hlink : ∀ x ∈ l, link ≠ .nextSibling x) (hn : l.length ≤ n) :
    Unlinked v (removeFrom c n link v) link l c := by
  induction l generalizing link n with
  | nil => cases hc
  | cons x l ih =>
    obtain ⟨hfirst, htail⟩ := h
    obtain ⟨hx, hnodup⟩ := nodup_cons.mp hnodup
    cases n with
    | zero => cases hn
    | succ n =>
      rw [removeFrom, hfirst]
      dsimp only
      by_cases hxc : x = c
      · subst hxc
        rw [if_pos rfl]
        exact unlinked_head htail hx hlink
      rw [if_neg hxc]
      have hc' : c ∈ l := (mem_cons.mp hc).resolve_left (Ne.symm hxc)
      have hu : Unlinked v (removeFrom c n (.nextSibling x) v) (.nextSibling x) l c := by
        refine ih htail hnodup hc' ?_ (Nat.le_of_succ_le_succ hn)
        rintro y hy ⟨⟩
        exact hx hy
      have hread : ∀ v', Unlinked v v' (.nextSibling x) l c → v'.readLink link = some x := by
        intro v' hu
        cases link with
        | children d => exact (hu.children d (by simp)).trans hfirst
        | nextSibling p =>
          have hp : p ∉ x :: l := fun hmem => hlink p hmem rfl
          rw [mem_cons, not_or] at hp
          exact (hu.nextSibling p hp.2 (by simp [Ne.symm hp.1])).trans hfirst
      constructor
      case list =>
        rw [erase_cons_tail (by simpa using hxc)]
        exact ⟨hread _ hu, hu.list⟩
      case parent => exact hu.parent
      case parent_of_ne => exact hu.parent_of_ne
      case children => exact fun y _ => hu.children y (by simp)
      case nextSibling =>
        intro y hy _
        rw [mem_cons, not_or] at hy
        exact hu.nextSibling y hy.2 (by simp [Ne.symm hy.1])
      case name => exact hu.name
      case inode => exact hu.inode
      case refCount => exact hu.refCount
      case rest => exact hu.rest

theorem Unlinked.removed (h : v.family.WellFormed v.allocated kids)
    (hu : Unlinked v v' (.children d) (kids d) c) :
    v.family.Removed v'.family ((kids d).erase c) d c where
  parent := hu.parent
  list := hu.list
  parent_of_ne := hu.parent_of_ne
  children_of_ne x hx := hu.children x (by simpa using Ne.symm hx)
  nextSibling_of_ne x hx := hu.nextSibling x (fun hmem => hx (h.mem_kids.mp hmem).2) (by simp)

/-- The child `c` of `d` has been taken out of the tree, and freed if no file is open. -/
structure DroppedDentry (v v' : Vfs σ) (kids : DentryPtr → List DentryPtr) (d c : DentryPtr) :
    Prop where
  removed : v.family.Removed v'.family ((kids d).erase c) d c
  allocated : v'.allocated =
    if 0 < (v.dentries c).refCount then v.allocated else v.allocated.erase c
  inode : 0 < (v.dentries c).refCount → (v'.dentries c).inode = none
  inode_of_ne : ∀ x, x ≠ c → (v'.dentries x).inode = (v.dentries x).inode
  name : ∀ x, (v'.dentries x).name = (v.dentries x).name
  refCount : ∀ x, (v'.dentries x).refCount = (v.dentries x).refCount
  table : v'.mountTable = v.mountTable
  root : v'.rootDentry = v.rootDentry
  files : v'.files = v.files
  fileSystems : v'.fileSystems = v.fileSystems

namespace DroppedDentry

variable {x : DentryPtr}

variable (h : DroppedDentry v v' kids d c)
include h

theorem mem_of_mem (hx : x ∈ v'.allocated) : x ∈ v.allocated := by
  rw [h.allocated] at hx
  split at hx
  · exact hx
  · exact mem_of_mem_erase hx

theorem mem_of_ne (hx : x ∈ v.allocated) (hne : x ≠ c) : x ∈ v'.allocated := by
  rw [h.allocated]
  split
  · exact hx
  · exact (mem_erase_of_ne hne).mpr hx

theorem refCount_pos (hnodup : v.allocated.Nodup)
    (hc : c ∈ v'.allocated) : 0 < (v.dentries c).refCount := by
  rw [h.allocated] at hc
  split at hc
  · assumption
  · exact absurd rfl (hnodup.mem_erase_iff.mp hc).1

theorem inode_eq_some (hnodup : v.allocated.Nodup) (hx : x ∈ v'.allocated) {i : InodeRef}
    (hi : (v'.dentries x).inode = some i) : x ≠ c ∧ (v.dentries x).inode = some i := by
  have hxc : x ≠ c := by
    rintro rfl
    rw [h.inode (h.refCount_pos hnodup hx)] at hi
    cases hi
  exact ⟨hxc, (h.inode_of_ne x hxc).symm.trans hi⟩

end DroppedDentry

theorem dropDentry_dropped (h : v.family.WellFormed v.allocated kids) (hd : d ∈ v.allocated)
    (hc : c ∈ kids d) : DroppedDentry v (v.dropDentry d c) kids d c := by
  have hu : Unlinked v (v.removeChild d c) (.children d) (kids d) c :=
    removeFrom_unlinked (h.list d hd) (h.nodup d) hc (fun _ _ => by simp) (length_kids_le h d)
  have hremoved := hu.removed h
  have hrest := hu.rest
  simp only [dropDentry, hu.refCount]
  generalize v.removeChild d c = v₁ at hu hremoved hrest ⊢
  split_ifs with hopen
  · have hdentries := v₁.dentries_setDentry c fun e => { e with deleted := true, inode := none }
    have hfamily : family (v₁.setDentry c fun e => { e with deleted := true, inode := none }) =
        v₁.family := by
      simp [family, hdentries, apply_ite]
    constructor
    case removed => rwa [hfamily]
    case allocated =>
      rw [if_pos hopen, hrest]
      rfl
    case inode => exact fun _ => by rw [hdentries, if_pos rfl]
    case inode_of_ne => exact fun x hx => by rw [hdentries, if_neg hx, hu.inode]
    case name | refCount =>
      intro x
      rw [hdentries]
      split_ifs <;> simp [hu.name, hu.refCount]
    all_goals
      rw [hrest]
      rfl
  · constructor
    case removed => exact hremoved
    case allocated =>
      rw [if_neg hopen, hrest]
      rfl
    case inode => exact fun h => absurd h hopen
    case inode_of_ne => exact fun x _ => hu.inode x
    case name => exact hu.name
    case refCount => exact hu.refCount
    all_goals
      rw [hrest]
      rfl

end SimpleKernel.Filesystem.Vfs
