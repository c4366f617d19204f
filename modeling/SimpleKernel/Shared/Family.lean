import Mathlib.Data.List.Basic
import Mathlib.Data.List.Nodup
import Mathlib.Logic.Function.Basic

/-! Trees in memory. Each node points to its parent, to the first of its children and to its next
sibling. -/

namespace SimpleKernel

open List Function

structure Family (α : Type*) where
  parent : α → Option α
  children : α → Option α
  nextSibling : α → Option α

namespace Family

variable {α : Type*} {t t' : Family α} {first : Option α} {x y c d root : α} {l : List α}

/-! ## Lists of siblings -/

/-- The siblings from a pointer on are the list. -/
def ListFrom (t : Family α) : Option α → List α → Prop
  | first, [] => first = none
  | first, x :: l => first = some x ∧ ListFrom t (t.nextSibling x) l

/-- A pointer leads to the node. -/
inductive OnList (t : Family α) : Option α → α → Prop where
  | head {x : α} : OnList t (some x) x
  | tail {x y : α} : OnList t (t.nextSibling x) y → OnList t (some x) y

section

variable (h : t.ListFrom first l)
include h

theorem ListFrom.congr
    (hnext : ∀ x ∈ l, t'.nextSibling x = t.nextSibling x) : t'.ListFrom first l := by
  induction l generalizing first with
  | nil => exact h
  | cons x l ih =>
    rw [forall_mem_cons] at hnext
    refine ⟨h.1, ?_⟩
    rw [hnext.1]
    exact ih h.2 hnext.2

theorem ListFrom.mem_of_eq_some (hx : first = some x) : x ∈ l := by
  subst hx
  cases l with
  | nil => cases h
  | cons y l =>
    obtain ⟨heq, -⟩ := h
    cases heq
    exact .head _

theorem ListFrom.nextSibling_mem (hx : x ∈ l) (hnext : t.nextSibling x = some y) : y ∈ l := by
  induction l generalizing first with
  | nil => cases hx
  | cons z l ih =>
    rcases mem_cons.mp hx with rfl | hx
    · exact .tail _ (h.2.mem_of_eq_some hnext)
    · exact .tail _ (ih h.2 hx)

theorem ListFrom.onList_iff : t.OnList first y ↔ y ∈ l := by
  induction l generalizing first with
  | nil =>
    obtain rfl : first = none := h
    constructor
    · rintro ⟨⟩
    · rintro ⟨⟩
  | cons x l ih =>
    obtain ⟨rfl, htail⟩ := h
    rw [mem_cons, ← ih htail]
    constructor
    · rintro (_ | htail)
      · exact .inl rfl
      · exact .inr htail
    · rintro (rfl | htail)
      · exact .head
      · exact .tail htail

end

/-! ## Trees -/

def IsChild (t : Family α) (d c : α) : Prop := t.OnList (t.children d) c

/-- The nodes of the tree below a root. -/
inductive Reaches (t : Family α) (root : α) : α → Prop where
  | root : Reaches t root root
  | child {d c : α} : Reaches t root d → t.IsChild d c → Reaches t root c

/-- The nodes form trees, with `kids` as the lists of children: a node is in the list of its parent
and in no other. -/
structure WellFormed (t : Family α) (nodes : List α) (kids : α → List α) : Prop where
  list : ∀ d ∈ nodes, t.ListFrom (t.children d) (kids d)
  nodup : ∀ d, (kids d).Nodup
  mem_kids : ∀ {c d}, c ∈ kids d ↔ c ∈ nodes ∧ t.parent c = some d
  parent_mem : ∀ {c d}, c ∈ nodes → t.parent c = some d → d ∈ nodes

variable {nodes nodes' : List α} {kids kids' : α → List α}

namespace WellFormed

variable (h : t.WellFormed nodes kids)
include h

theorem isChild_iff (hd : d ∈ nodes) : t.IsChild d c ↔ c ∈ kids d :=
  (h.list d hd).onList_iff

theorem mem_of_mem_kids (hc : c ∈ kids d) : c ∈ nodes ∧ d ∈ nodes :=
  ⟨(h.mem_kids.mp hc).1, h.parent_mem (h.mem_kids.mp hc).1 (h.mem_kids.mp hc).2⟩

theorem kids_of_notMem (hd : d ∉ nodes) : kids d = [] := by
  apply eq_nil_iff_forall_not_mem.mpr
  intro c hc
  exact hd (h.mem_of_mem_kids hc).2

theorem children_eq_none_iff (hd : d ∈ nodes) : t.children d = none ↔ kids d = [] := by
  have hlist := h.list d hd
  cases hkids : kids d with
  | nil =>
    rw [hkids] at hlist
    exact iff_of_true hlist rfl
  | cons c l =>
    rw [hkids] at hlist
    simp [hlist.1]

theorem children_mem (hd : d ∈ nodes) (hx : t.children d = some x) : x ∈ nodes :=
  (h.mem_of_mem_kids ((h.list d hd).mem_of_eq_some hx)).1

theorem nextSibling_mem (hc : c ∈ nodes)
    (hparent : t.parent c = some d) (hx : t.nextSibling c = some x) : x ∈ nodes := by
  have hmem := h.mem_kids.mpr ⟨hc, hparent⟩
  exact (h.mem_of_mem_kids ((h.list d (h.mem_of_mem_kids hmem).2).nextSibling_mem hmem hx)).1

theorem mem_of_reaches (hroot : root ∈ nodes) (hx : t.Reaches root x) : x ∈ nodes := by
  induction hx with
  | root => exact hroot
  | child _ hchild ih => exact (h.mem_of_mem_kids ((h.isChild_iff ih).mp hchild)).1

theorem reaches_of_kids (h' : t'.WellFormed nodes' kids')
    (hroot : root ∈ nodes) {keep : α → Prop} (hnodes : ∀ x ∈ nodes, keep x → x ∈ nodes')
    (hkids : ∀ d c, c ∈ kids d → keep c → keep d ∧ c ∈ kids' d) (hx : t.Reaches root x)
    (hkeep : keep x) : t'.Reaches root x := by
  induction hx with
  | root => exact .root
  | @child d c hd hchild ih =>
    have hmem := h.mem_of_reaches hroot hd
    obtain ⟨hkeepd, hc⟩ := hkids d c ((h.isChild_iff hmem).mp hchild) hkeep
    exact .child (ih hkeepd) ((h'.isChild_iff (hnodes d hmem hkeepd)).mpr hc)

theorem eq_of_reaches (hroot : root ∈ nodes)
    (hleaf : kids root = []) (hx : t.Reaches root x) : x = root := by
  induction hx with
  | root => rfl
  | child _ hchild ih =>
    subst ih
    rw [h.isChild_iff hroot, hleaf] at hchild
    cases hchild

/-! ## Changes -/

theorem congr
    (hparent : ∀ x ∈ nodes, t'.parent x = t.parent x)
    (hchildren : ∀ x ∈ nodes, t'.children x = t.children x)
    (hnext : ∀ x ∈ nodes, t'.nextSibling x = t.nextSibling x) : t'.WellFormed nodes kids where
  list d hd := by
    rw [hchildren d hd]
    exact (h.list d hd).congr fun x hx => hnext x (h.mem_of_mem_kids hx).1
  nodup := h.nodup
  mem_kids := by
    intro c d
    rw [h.mem_kids]
    exact and_congr_right fun hc => by rw [hparent c hc]
  parent_mem := by
    intro c d hc hd
    rw [hparent c hc] at hd
    exact h.parent_mem hc hd

theorem cons (hx : x ∉ nodes) (hparent : t.parent x = none)
    (hchildren : t.children x = none) : t.WellFormed (x :: nodes) kids where
  list d hd := by
    rcases mem_cons.mp hd with rfl | hd
    · rw [h.kids_of_notMem hx]
      exact hchildren
    · exact h.list d hd
  nodup := h.nodup
  mem_kids := by
    intro c d
    rw [h.mem_kids, mem_cons, or_and_right]
    constructor
    · exact .inr
    · rintro (⟨rfl, hd⟩ | hc)
      · rw [hparent] at hd
        cases hd
      · exact hc
  parent_mem := by
    intro c d hc hd
    rcases mem_cons.mp hc with rfl | hc
    · rw [hparent] at hd
      cases hd
    · exact .tail _ (h.parent_mem hc hd)

theorem erase [DecidableEq α] (hnodes : nodes.Nodup)
    (hparent : t.parent x = none) (hleaf : kids x = []) : t.WellFormed (nodes.erase x) kids where
  list d hd := h.list d (mem_of_mem_erase hd)
  nodup := h.nodup
  mem_kids := by
    intro c d
    rw [h.mem_kids, hnodes.mem_erase_iff, and_assoc]
    constructor
    · intro hc
      refine ⟨?_, hc⟩
      rintro rfl
      rw [hparent] at hc
      cases hc.2
    · exact And.right
  parent_mem := by
    intro c d hc hd
    replace hc := mem_of_mem_erase hc
    refine (hnodes.mem_erase_iff).mpr ⟨?_, h.parent_mem hc hd⟩
    rintro rfl
    have hkid := h.mem_kids.mpr ⟨hc, hd⟩
    rw [hleaf] at hkid
    cases hkid

end WellFormed

/-- A new node has become the first child of `d`. -/
structure Added (t t' : Family α) (d c : α) : Prop where
  parent : t'.parent c = some d
  nextSibling : t'.nextSibling c = t.children d
  first : t'.children d = some c
  leaf : t'.children c = none
  parent_of_ne : ∀ x, x ≠ c → t'.parent x = t.parent x
  nextSibling_of_ne : ∀ x, x ≠ c → t'.nextSibling x = t.nextSibling x
  children_of_ne : ∀ x, x ≠ c → x ≠ d → t'.children x = t.children x

theorem WellFormed.added [DecidableEq α] (h : t.WellFormed nodes kids) (ha : t.Added t' d c)
    (hd : d ∈ nodes) (hc : c ∉ nodes) :
    t'.WellFormed (c :: nodes) (update kids d (c :: kids d)) := by
  have hne : ∀ x ∈ nodes, x ≠ c := by
    rintro x hx rfl
    exact hc hx
  have hlist : ∀ x ∈ nodes, t'.ListFrom (t.children x) (kids x) := fun x hx =>
    (h.list x hx).congr fun y hy =>
      ha.nextSibling_of_ne y (hne y (h.mem_of_mem_kids hy).1)
  constructor
  case list =>
    intro x hx
    by_cases hxd : x = d
    · subst hxd
      rw [update_self, ha.first]
      refine ⟨rfl, ?_⟩
      rw [ha.nextSibling]
      exact hlist x hd
    rw [update_of_ne hxd]
    rcases mem_cons.mp hx with rfl | hx
    · rw [h.kids_of_notMem hc]
      exact ha.leaf
    · rw [ha.children_of_ne x (hne x hx) hxd]
      exact hlist x hx
  case nodup =>
    refine (forall_update_iff kids fun _ l => l.Nodup).mpr ⟨?_, fun x _ => h.nodup x⟩
    exact nodup_cons.mpr ⟨fun hmem => hc (h.mem_of_mem_kids hmem).1, h.nodup d⟩
  case mem_kids =>
    intro y x
    by_cases hyc : y = c
    · subst hyc
      rw [ha.parent]
      by_cases hxd : x = d
      · subst hxd
        simp
      · rw [update_of_ne hxd, h.mem_kids]
        simp [hc, Ne.symm hxd]
    have hold : y ∈ update kids d (c :: kids d) x ↔ y ∈ kids x := by
      by_cases hxd : x = d
      · subst hxd
        simp [hyc]
      · rw [update_of_ne hxd]
    rw [hold, h.mem_kids, ha.parent_of_ne y hyc]
    simp [hyc]
  case parent_mem =>
    intro y x hy hx
    by_cases hyc : y = c
    · subst hyc
      rw [ha.parent] at hx
      cases hx
      exact .tail _ hd
    · rw [ha.parent_of_ne y hyc] at hx
      exact .tail _ (h.parent_mem ((mem_cons.mp hy).resolve_left hyc) hx)

/-- The child `c` of `d` has no parent any more. -/
structure Removed (t t' : Family α) (l : List α) (d c : α) : Prop where
  parent : t'.parent c = none
  list : t'.ListFrom (t'.children d) l
  parent_of_ne : ∀ x, x ≠ c → t'.parent x = t.parent x
  children_of_ne : ∀ x, x ≠ d → t'.children x = t.children x
  nextSibling_of_ne : ∀ x, t.parent x ≠ some d → t'.nextSibling x = t.nextSibling x

theorem WellFormed.removed [DecidableEq α] (h : t.WellFormed nodes kids)
    (hr : t.Removed t' ((kids d).erase c) d c) (hc : c ∈ kids d) :
    t'.WellFormed nodes (update kids d ((kids d).erase c)) := by
  constructor
  case list =>
    intro x hx
    by_cases hxd : x = d
    · subst hxd
      rw [update_self]
      exact hr.list
    rw [update_of_ne hxd, hr.children_of_ne x hxd]
    apply (h.list x hx).congr
    intro y hy
    apply hr.nextSibling_of_ne
    rw [(h.mem_kids.mp hy).2]
    simp [hxd]
  case nodup =>
    exact (forall_update_iff kids fun _ l => l.Nodup).mpr
      ⟨(h.nodup d).erase c, fun x _ => h.nodup x⟩
  case mem_kids =>
    intro y x
    by_cases hyc : y = c
    · subst hyc
      rw [hr.parent]
      by_cases hxd : x = d
      · subst hxd
        rw [update_self, (h.nodup x).mem_erase_iff]
        simp
      · rw [update_of_ne hxd, h.mem_kids, (h.mem_kids.mp hc).2]
        simp [Ne.symm hxd]
    rw [hr.parent_of_ne y hyc, ← h.mem_kids]
    by_cases hxd : x = d
    · subst hxd
      rw [update_self, mem_erase_of_ne hyc]
    · rw [update_of_ne hxd]
  case parent_mem =>
    intro y x hy hx
    by_cases hyc : y = c
    · subst hyc
      rw [hr.parent] at hx
      cases hx
    · rw [hr.parent_of_ne y hyc] at hx
      exact h.parent_mem hy hx

end Family

end SimpleKernel
