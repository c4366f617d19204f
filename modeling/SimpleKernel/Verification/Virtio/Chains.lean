import SimpleKernel.Model.Virtio.SplitVirtqueue
import Mathlib.Data.List.Nodup

/-! The free list and the chains share the `next` fields of the descriptor table. What
`SubmitChain` and `FreeChain` do to both. -/

namespace SimpleKernel.Virtio

open List

/-! ## The free list -/

theorem iterate_congr {α : Type*} {f g : α → α} {a : α} {n : ℕ}
    (h : ∀ x ∈ iterate f a n, g x = f x) : iterate g a n = iterate f a n := by
  induction n generalizing a with
  | zero => rfl
  | succ n ih =>
    rw [iterate, forall_mem_cons] at h
    rw [iterate, iterate, h.1, ih h.2]

namespace SplitVirtqueue

variable {q q' : SplitVirtqueue} {x y i : ℕ} {c rest : List ℕ} {b : IoVec × BitVec 16}
  {desc : ℕ → Desc} {readable writable : List IoVec}

/-- The descriptors that `next` leads to from `free_head_`, in `num_free_` steps. -/
def freeList (q : SplitVirtqueue) : List ℕ :=
  iterate (fun i => (q.desc i).next) q.freeHead q.numFree

@[simp] theorem length_freeList (q : SplitVirtqueue) : q.freeList.length = q.numFree :=
  length_iterate ..

theorem freeList_congr (hhead : q'.freeHead = q.freeHead) (hnum : q'.numFree = q.numFree)
    (hnext : ∀ x ∈ q.freeList, (q'.desc x).next = (q.desc x).next) : q'.freeList = q.freeList := by
  unfold freeList
  rw [hhead, hnum]
  exact iterate_congr hnext

attribute [simp] setDesc

theorem freeList_setDesc (hi : i ∉ q.freeList) (f : Desc → Desc) :
    (q.setDesc i f).freeList = q.freeList := by
  refine freeList_congr rfl rfl fun x hx => ?_
  have hxi : x ≠ i := fun h => hi (h ▸ hx)
  simp [hxi]

theorem freeList_takeFree (h0 : 0 < q.numFree) (hlt : q.numFree < 2 ^ 16) :
    q.freeList = q.freeHead :: q.takeFree.freeList := by
  obtain ⟨n, hn⟩ := Nat.exists_eq_add_of_lt h0
  have hnum : q.takeFree.numFree = n := by
    simp only [takeFree]
    omega
  rw [freeList, freeList, hnum, hn, Nat.zero_add, iterate]
  rfl

theorem freeList_putFree (hi : i ∉ q.freeList) (hlt : q.numFree + 1 < 2 ^ 16) :
    (q.putFree i).freeList = i :: q.freeList := by
  have hset := freeList_setDesc hi fun d => { d with next := q.freeHead }
  have hnum : (q.putFree i).numFree = q.numFree + 1 := Nat.mod_eq_of_lt hlt
  have hhead : ((q.putFree i).desc i).next = q.freeHead := by simp [putFree]
  have htail : iterate (fun j => ((q.putFree i).desc j).next) q.freeHead q.numFree =
      q.freeList := hset
  calc (q.putFree i).freeList
      = i :: iterate (fun j => ((q.putFree i).desc j).next) ((q.putFree i).desc i).next
          q.numFree := by
        rw [freeList, hnum]
        rfl
    _ = i :: q.freeList := by rw [hhead, htail]

/-! ## Filling descriptors -/

def Linked (desc : ℕ → Desc) : Option ℕ → List ℕ → Prop
  | _, [] => True
  | before, x :: rest => (∀ p ∈ before, (desc p).next = x) ∧ Linked desc (some x) rest

def Fills (d : Desc) (b : IoVec × BitVec 16) : Prop :=
  d.addr = b.1.physAddr ∧ d.len = b.1.len % 2 ^ 32 ∧ d.flags = b.2

def addAll : List (IoVec × BitVec 16) → SplitVirtqueue → ℕ → SplitVirtqueue × ℕ
  | [], q, prevIdx => (q, prevIdx)
  | b :: rest, q, prevIdx => addAll rest (addDesc b.2 q prevIdx b.1).1 (addDesc b.2 q prevIdx b.1).2

theorem addDescs_eq (flags : BitVec 16) (buffers : List IoVec) (q : SplitVirtqueue) (prevIdx : ℕ) :
    addDescs flags buffers q prevIdx = addAll (buffers.map (·, flags)) q prevIdx := by
  induction buffers generalizing q prevIdx with
  | nil => rfl
  | cons b rest ih => exact ih _ _

theorem addAll_append (bs bs' : List (IoVec × BitVec 16)) (q : SplitVirtqueue) (prevIdx : ℕ) :
    addAll (bs ++ bs') q prevIdx = addAll bs' (addAll bs q prevIdx).1 (addAll bs q prevIdx).2 := by
  induction bs generalizing q prevIdx with
  | nil => rfl
  | cons b rest ih => exact ih _ _

/-- The free descriptors `c` have been filled with the buffers `bs` and put behind `prev`. -/
structure Added (q q' : SplitVirtqueue) (prev : ℕ) (bs : List (IoVec × BitVec 16)) (c : List ℕ) :
    Prop where
  free : q.freeList = c ++ q'.freeList
  filled : List.Forall₂ (fun x b => Fills (q'.desc x) b) c bs
  linked : Linked q'.desc (if prev = noDesc then none else some prev) c
  frame : ∀ x ∉ c, x ≠ prev ∨ prev = noDesc → q'.desc x = q.desc x
  kept : ∀ {b}, Fills (q.desc prev) b → Fills (q'.desc prev) b
  rest : q' = { q with desc := q'.desc, freeHead := q'.freeHead, numFree := q'.numFree }

/-- The first free descriptor, filled and put behind `prev`. -/
structure AddedOne (q q' : SplitVirtqueue) (prev x : ℕ) (b : IoVec × BitVec 16) : Prop where
  fills : Fills (q'.desc x) b
  next : prev ≠ noDesc → (q'.desc prev).next = x
  kept : ∀ {b}, Fills (q.desc prev) b → Fills (q'.desc prev) b
  frame : ∀ y, y ≠ x → y ≠ prev ∨ prev = noDesc → q'.desc y = q.desc y
  rest : q' = { q with desc := q'.desc, freeHead := q'.freeHead, numFree := q'.numFree }

theorem addDesc_spec {prev : ℕ} (hlt : q.numFree < 2 ^ 16)
    (hfree : q.freeList = x :: rest) (hnodup : (x :: rest).Nodup) (hprev : prev ∉ x :: rest) :
    (addDesc b.2 q prev b.1).2 = x ∧ (addDesc b.2 q prev b.1).1.freeList = rest ∧
      AddedOne q (addDesc b.2 q prev b.1).1 prev x b := by
  have h0 : 0 < q.numFree := by
    rw [← length_freeList, hfree]
    exact Nat.succ_pos _
  have htake := freeList_takeFree h0 hlt
  rw [hfree] at htake
  obtain ⟨rfl, hrest⟩ := cons.inj htake
  obtain ⟨hxrest, -⟩ := nodup_cons.mp hnodup
  obtain ⟨hpx, hprest⟩ := not_or.mp (mt mem_cons.mpr hprev)
  set q₁ := q.takeFree.setDesc q.freeHead fun d =>
    { d with addr := b.1.physAddr, len := b.1.len % 2 ^ 32, flags := b.2 } with hq₁
  have hfree₁ : q₁.freeList = rest := by
    rw [hq₁, freeList_setDesc (by rwa [← hrest]), hrest]
  have hself : Fills (q₁.desc q.freeHead) b := by simp [hq₁, Fills]
  have hother : ∀ y, y ≠ q.freeHead → q₁.desc y = q.desc y := by
    intro y hy
    simp [hq₁, takeFree, hy]
  have heq : addDesc b.2 q prev b.1 = (if prev ≠ noDesc then
      q₁.setDesc prev fun d => { d with next := q.freeHead } else q₁, q.freeHead) := rfl
  have hrest₁ : q₁ = { q with desc := q₁.desc, freeHead := q₁.freeHead, numFree := q₁.numFree } := rfl
  clear_value q₁
  rw [heq]
  refine ⟨rfl, ?_⟩
  by_cases hno : prev = noDesc
  · rw [if_neg (not_not.mpr hno)]
    refine ⟨hfree₁, hself, fun h => absurd hno h, fun hb => ?_, fun y hy _ => hother y hy, hrest₁⟩
    rwa [hother prev hpx]
  rw [if_pos hno]
  refine ⟨?_, ?_, fun _ => ?_, fun hb => ?_, fun y hy hyp => ?_, ?_⟩
  · rw [freeList_setDesc (by rwa [hfree₁]), hfree₁]
  · simpa [Ne.symm hpx] using hself
  · simp
  · simpa [Fills, hother prev hpx] using hb
  · simpa [hyp.resolve_right hno] using hother y hy
  · rw [hrest₁]
    rfl

theorem addAll_added {bs : List (IoVec × BitVec 16)} {prev : ℕ} (hlen : bs.length ≤ q.numFree)
    (hlt : q.numFree < 2 ^ 16) (hnodup : q.freeList.Nodup) (hno : noDesc ∉ q.freeList)
    (hprev : prev ∉ q.freeList) :
    Added q (addAll bs q prev).1 prev bs (q.freeList.take bs.length) ∧
      (addAll bs q prev).2 = ((q.freeList.take bs.length).getLast?).getD prev := by
  induction bs generalizing q prev with
  | nil => exact ⟨⟨rfl, .nil, trivial, fun _ _ _ => rfl, id, rfl⟩, rfl⟩
  | cons b bs ih =>
    cases hfree : q.freeList with
    | nil =>
      rw [← length_freeList, hfree] at hlen
      cases hlen
    | cons x rest =>
      rw [hfree] at hnodup hno hprev
      obtain ⟨hxrest, hrest⟩ := nodup_cons.mp hnodup
      obtain ⟨hidx, hfree₁, hone⟩ := addDesc_spec (b := b) hlt hfree hnodup hprev
      rw [addAll, hidx]
      generalize (addDesc b.2 q prev b.1).1 = q₁ at hfree₁ hone
      have hnum : q.numFree = q₁.numFree + 1 := by
        rw [← length_freeList, hfree, ← length_freeList q₁, hfree₁]
        rfl
      have hx : x ≠ noDesc := fun h => hno (h ▸ mem_cons_self)
      have hlen₁ : bs.length ≤ q₁.numFree := by
        rw [length_cons] at hlen
        omega
      have hno₁ : noDesc ∉ q₁.freeList := by
        rw [hfree₁]
        exact fun h => hno (mem_cons_of_mem x h)
      have hx₁ : x ∉ q₁.freeList := by rwa [hfree₁]
      obtain ⟨hadded, hlast⟩ := ih hlen₁ (by omega) (hfree₁ ▸ hrest) hno₁ hx₁
      rw [hfree₁] at hadded hlast
      have hpc : prev ∉ rest.take bs.length := fun h =>
        hprev (mem_cons_of_mem x (mem_of_mem_take h))
      have hpx : prev ≠ x := fun h => hprev (h ▸ mem_cons_self)
      rw [length_cons, take_succ_cons]
      refine ⟨⟨?_, .cons (hadded.kept hone.fills) hadded.filled, ⟨?_, ?_⟩, fun y hy hyp => ?_,
        fun hb => ?_, ?_⟩, ?_⟩
      · rw [hfree, cons_append, ← hadded.free, hfree₁]
      · intro p hp
        have hpno : prev ≠ noDesc := by
          rintro rfl
          simp at hp
        rw [if_neg hpno, Option.mem_some_iff] at hp
        rw [← hp, hadded.frame prev hpc (.inl hpx)]
        exact hone.next hpno
      · have hlinked := hadded.linked
        rwa [if_neg hx] at hlinked
      · obtain ⟨hyx, hyc⟩ := not_or.mp (mt mem_cons.mpr hy)
        rw [hadded.frame y hyc (.inl hyx), hone.frame y hyx hyp]
      · rw [hadded.frame prev hpc (.inl hpx)]
        exact hone.kept hb
      · rw [hadded.rest, hone.rest]
      · rw [hlast]
        cases rest.take bs.length with
        | nil => rfl
        | cons y c =>
          rfl

/-! ## Chains -/

/-- The descriptors of the list are a chain as a device reads it, from its head to the first
descriptor without `kDescFNext`. -/
def Chain (desc : ℕ → Desc) : List ℕ → Prop
  | [] => False
  | [x] => (desc x).hasNext = false
  | x :: y :: rest => (desc x).hasNext ∧ (desc x).next = y ∧ Chain desc (y :: rest)

theorem Chain.congr {desc' : ℕ → Desc} (h : Chain desc c) (hd : ∀ x ∈ c, desc' x = desc x) :
    Chain desc' c := by
  induction c with
  | nil => exact h
  | cons x rest ih =>
    rw [forall_mem_cons] at hd
    cases rest with
    | nil =>
      rw [Chain, hd.1]
      exact h
    | cons y rest =>
      rw [Chain, hd.1]
      exact ⟨h.1, h.2.1, ih h.2.2 hd.2⟩

theorem Chain.iterate_next (h : Chain desc (x :: c)) :
    iterate (fun i => (desc i).next) x (c.length + 1) = x :: c := by
  induction c generalizing x with
  | nil => rfl
  | cons y c ih =>
    rw [length_cons, iterate, h.2.1, ih h.2.2]

theorem Chain.map_hasNext (h : Chain desc (x :: c)) :
    (x :: c).map (fun i => (desc i).hasNext) = replicate c.length true ++ [false] := by
  induction c generalizing x with
  | nil => simpa [Chain] using h
  | cons y c ih =>
    rw [map_cons, ih h.2.2, h.1]
    rfl

theorem Linked.chain {before : Option ℕ} (h : Linked desc before c)
    (hne : c ≠ []) (hnodup : c.Nodup) (hflags : ∀ x ∈ c, (desc x).hasNext) :
    Chain (Function.update desc (c.getLast hne)
      { desc (c.getLast hne) with flags := (desc (c.getLast hne)).flags &&& ~~~descFNext }) c := by
  induction c generalizing before with
  | nil => exact absurd rfl hne
  | cons x rest ih =>
    obtain ⟨hxrest, hrest⟩ := nodup_cons.mp hnodup
    rw [forall_mem_cons] at hflags
    cases rest with
    | nil =>
      have hclear : ∀ flags : BitVec 16, (flags &&& ~~~descFNext) &&& descFNext = 0 := by
        intro flags
        rw [BitVec.and_assoc, show ~~~descFNext &&& descFNext = 0 by decide]
        exact BitVec.and_zero
      simp [Chain, Desc.hasNext, hclear]
    | cons y rest =>
      rw [getLast_cons (cons_ne_nil y rest)]
      have hx : x ≠ (y :: rest).getLast (cons_ne_nil y rest) := fun h =>
        hxrest (h ▸ getLast_mem _)
      rw [Chain, Function.update_of_ne hx]
      exact ⟨hflags.1, h.2.1 x rfl, ih h.2 (cons_ne_nil y rest) hrest hflags.2⟩

def flagged (readable writable : List IoVec) : List (IoVec × BitVec 16) :=
  readable.map (·, descFNext) ++ writable.map (·, descFNext ||| descFWrite)

/-- A chain of free descriptors with the buffers `bs`, which is put into the ring. -/
structure Submitted (q q' : SplitVirtqueue) (readable writable : List IoVec) (c : List ℕ) :
    Prop where
  free : q.freeList = c ++ q'.freeList
  chain : Chain q'.desc c
  filled : List.Forall₂ (fun x b => (q'.desc x).addr = b.1.physAddr ∧
      (q'.desc x).len = b.1.len % 2 ^ 32 ∧ (q'.desc x).flags &&& descFWrite = b.2 &&& descFWrite)
    c (flagged readable writable)
  frame : ∀ x ∉ c, q'.desc x = q.desc x
  rest : q' = { q.submit q.freeHead with
    desc := q'.desc, freeHead := q'.freeHead, numFree := q'.numFree }

theorem map_fst_flagged (readable writable : List IoVec) :
    (flagged readable writable).map Prod.fst = readable ++ writable := by
  simp [flagged, Function.comp_def]

theorem Submitted.addr (h : Submitted q q' readable writable c) :
    List.Forall₂ (fun x b => (q'.desc x).addr = b.physAddr) c (readable ++ writable) := by
  rw [← map_fst_flagged, forall₂_map_right_iff]
  exact h.filled.imp fun _ _ hb => hb.1

theorem flagged_hasNext
    (hb : b ∈ flagged readable writable) : decide (b.2 &&& descFNext ≠ 0) = true := by
  rcases mem_append.mp hb with hb | hb
  · obtain ⟨v, -, rfl⟩ := mem_map.mp hb
    exact show decide (descFNext &&& descFNext ≠ 0) = true by decide
  · obtain ⟨v, -, rfl⟩ := mem_map.mp hb
    exact show decide ((descFNext ||| descFWrite) &&& descFNext ≠ 0) = true by decide

theorem exists_of_forall₂ {α β : Type*} {R : α → β → Prop} {l : List α} {l' : List β}
    (h : List.Forall₂ R l l') {a : α} (ha : a ∈ l) : ∃ b ∈ l', R a b := by
  induction h with
  | nil => cases ha
  | cons hab _ ih =>
    rcases mem_cons.mp ha with rfl | ha
    · exact ⟨_, mem_cons_self, hab⟩
    · obtain ⟨b, hb, hR⟩ := ih ha
      exact ⟨b, mem_cons_of_mem _ hb, hR⟩

theorem getLast?_of_forall₂ {α β : Type*} {R : α → β → Prop} {l : List α} {l' : List β}
    (h : List.Forall₂ R l l') {a : α} (ha : l.getLast? = some a) :
    ∃ b, l'.getLast? = some b ∧ R a b := by
  induction h with
  | nil => cases ha
  | cons hab hrest ih =>
    cases hrest with
    | nil =>
      cases ha
      exact ⟨_, rfl, hab⟩
    | cons hcd hrest =>
      exact ih ha

theorem submitChain_eq (hpos : 0 < readable.length + writable.length)
    (hlen : readable.length + writable.length ≤ q.numFree) (hlt : q.numFree < 2 ^ 16) :
    q.submitChain readable writable = (.ok q.freeHead,
      ((addAll (flagged readable writable) q noDesc).1.setDesc
        (addAll (flagged readable writable) q noDesc).2
          fun d => { d with flags := d.flags &&& ~~~descFNext }).submit q.freeHead) := by
  have htotal : (readable.length + writable.length) % 2 ^ 64 = readable.length + writable.length := by
    omega
  have htotal' : (readable.length + writable.length) % 2 ^ 16 = readable.length + writable.length := by
    omega
  unfold submitChain
  simp only [htotal, htotal']
  rw [if_neg hpos.ne', if_neg hlen.not_gt, flagged, addAll_append, ← addDescs_eq, ← addDescs_eq]

theorem submitChain_cases (q : SplitVirtqueue) (readable writable : List IoVec) :
    ((readable.length + writable.length) % 2 ^ 64 = 0 ∨
        q.numFree < (readable.length + writable.length) % 2 ^ 16) ∧
      (∃ e, (e = .invalidArgument ∨ e = .noFreeDescriptors) ∧
        q.submitChain readable writable = (.error e, q)) ∨
    ((readable.length + writable.length) % 2 ^ 64 ≠ 0 ∧
        (readable.length + writable.length) % 2 ^ 16 ≤ q.numFree) ∧
      (q.submitChain readable writable).1 = .ok q.freeHead := by
  have hmod : (readable.length + writable.length) % 2 ^ 64 % 2 ^ 16 =
      (readable.length + writable.length) % 2 ^ 16 := by omega
  unfold submitChain
  simp only [hmod]
  split
  · rename_i h0
    exact .inl ⟨.inl h0, _, .inl rfl, rfl⟩
  rename_i h0
  split
  · rename_i hlt
    exact .inl ⟨.inr hlt, _, .inr rfl, rfl⟩
  · rename_i hge
    exact .inr ⟨⟨h0, not_lt.mp hge⟩, rfl⟩

theorem submitChain_error (hlt : readable.length + writable.length < 2 ^ 16)
    (hlen : ¬ (0 < readable.length + writable.length ∧
      readable.length + writable.length ≤ q.numFree)) :
    ∃ e, (e = .invalidArgument ∨ e = .noFreeDescriptors) ∧
      q.submitChain readable writable = (.error e, q) := by
  rcases q.submitChain_cases readable writable with ⟨-, herror⟩ | ⟨hok, -⟩
  · exact herror
  · omega

theorem submitChain_submitted (hpos : 0 < readable.length + writable.length)
    (hlen : readable.length + writable.length ≤ q.numFree) (hlt : q.numFree < 2 ^ 16)
    (hnodup : q.freeList.Nodup) (hno : noDesc ∉ q.freeList) :
    (q.submitChain readable writable).1 = .ok q.freeHead ∧
      Submitted q (q.submitChain readable writable).2 readable writable
        (q.freeList.take (readable.length + writable.length)) := by
  have hbs : (flagged readable writable).length = readable.length + writable.length := by
    simp [flagged]
  obtain ⟨hadded, hlast⟩ := addAll_added (hbs ▸ hlen) hlt hnodup hno hno
  rw [hbs] at hadded hlast
  rw [submitChain_eq hpos hlen hlt]
  refine ⟨rfl, ?_⟩
  have hne : q.freeList.take (readable.length + writable.length) ≠ [] := by
    intro hnil
    have hlength := congrArg length hnil
    rw [length_take, length_freeList, length_nil] at hlength
    omega
  have hcnodup := hnodup.sublist (take_sublist (readable.length + writable.length) q.freeList)
  generalize q.freeList.take (readable.length + writable.length) = c at *
  generalize addAll (flagged readable writable) q noDesc = result at *
  obtain ⟨q₁, last⟩ := result
  rw [getLast?_eq_some_getLast hne, Option.getD_some] at hlast
  simp only at hadded hlast ⊢
  subst hlast
  have hflags : ∀ x ∈ c, (q₁.desc x).hasNext := by
    intro x hx
    obtain ⟨b, hb, -, -, hflags⟩ := exists_of_forall₂ hadded.filled hx
    rw [Desc.hasNext, hflags]
    exact flagged_hasNext hb
  have hlast : ∀ x ∉ c, x ≠ c.getLast hne := by
    rintro x hx rfl
    exact hx (getLast_mem hne)
  refine ⟨?_, hadded.linked.chain hne hcnodup hflags, ?_, fun x hx => ?_, ?_⟩
  · rw [hadded.free]
    refine congrArg (c ++ ·) (Eq.symm ?_)
    apply freeList_congr
    · rfl
    · rfl
    · intro x _
      by_cases hx : x = c.getLast hne
      · subst hx
        simp [submit]
      · simp [submit, hx]
  · refine hadded.filled.imp fun x b hb => ?_
    by_cases hx : x = c.getLast hne
    · subst hx
      have hwrite : ~~~descFNext &&& descFWrite = descFWrite := by decide
      simpa [submit, BitVec.and_assoc, hwrite, hb.2.2] using ⟨hb.1, hb.2.1⟩
    · simpa [submit, hx, hb.2.2] using ⟨hb.1, hb.2.1⟩
  · exact (Function.update_of_ne (hlast x hx) _ _).trans (hadded.frame x hx (.inr rfl))
  · rw [hadded.rest]
    rfl

/-- The descriptors of the list are free again, the last one first. -/
structure Freed (q q' : SplitVirtqueue) (c : List ℕ) : Prop where
  free : q'.freeList = c.reverse ++ q.freeList
  frame : ∀ x ∉ c, q'.desc x = q.desc x
  rest : q' = { q with desc := q'.desc, freeHead := q'.freeHead, numFree := q'.numFree }

theorem putFree_freed (hi : i ∉ q.freeList) (hlt : q.numFree + 1 < 2 ^ 16) :
    Freed q (q.putFree i) [i] := by
  refine ⟨freeList_putFree hi hlt, fun x hx => ?_, rfl⟩
  exact Function.update_of_ne (mt mem_singleton.mpr hx) _ _

theorem freeChainLoop_freed {fuel : ℕ} (hchain : Chain q.desc (x :: c)) (hnodup : (x :: c).Nodup)
    (hlt : ∀ y ∈ x :: c, y < q.queueSize) (hfree : ∀ y ∈ x :: c, y ∉ q.freeList)
    (hnum : q.numFree + (x :: c).length < 2 ^ 16) (hfuel : (x :: c).length ≤ fuel) :
    ∃ q', freeChainLoop fuel x q = some (.ok (), q') ∧ Freed q q' (x :: c) := by
  induction c generalizing q x fuel with
  | nil =>
    obtain ⟨fuel, rfl⟩ := Nat.exists_eq_add_of_le' hfuel
    have hnext : (q.desc x).hasNext = false := hchain
    refine ⟨q.putFree x, ?_, putFree_freed (hfree x mem_cons_self) hnum⟩
    rw [length_singleton, freeChainLoop, if_neg (hlt x mem_cons_self).not_ge]
    simp [hnext]
  | cons y c ih =>
    obtain ⟨fuel, rfl⟩ : ∃ n, fuel = n + 1 := Nat.exists_eq_succ_of_ne_zero (by
      rintro rfl
      simp at hfuel)
    obtain ⟨hnext, hy, hrest⟩ := hchain
    obtain ⟨hxc, hcnodup⟩ := nodup_cons.mp hnodup
    rw [length_cons] at hnum hfuel
    have hone := putFree_freed (hfree x mem_cons_self) (by rw [length_cons] at hnum; omega)
    have hlist : (q.putFree x).freeList = x :: q.freeList := hone.free
    have hnum' : (q.putFree x).numFree = q.numFree + 1 := by
      rw [← length_freeList, hlist, length_cons, length_freeList]
    have hchain' : Chain (q.putFree x).desc (y :: c) := hrest.congr fun z hz =>
      hone.frame z (mt mem_singleton.mp fun h => hxc (h ▸ hz))
    obtain ⟨q', hloop, hfreed⟩ := ih (q := q.putFree x) hchain' hcnodup
      (fun z hz => hlt z (mem_cons_of_mem x hz))
      (fun z hz => by
        rw [hlist, mem_cons, not_or]
        exact ⟨fun h => hxc (h ▸ hz), hfree z (mem_cons_of_mem x hz)⟩)
      (by rw [hnum']; omega) (Nat.le_of_succ_le_succ hfuel)
    refine ⟨q', ?_, ?_, fun z hz => ?_, ?_⟩
    · rw [freeChainLoop, if_neg (hlt x mem_cons_self).not_ge]
      simp only [hnext, if_true, hy]
      exact hloop
    · rw [hfreed.free, hlist]
      simp
    · obtain ⟨hzx, hzc⟩ := not_or.mp (mt mem_cons.mpr hz)
      rw [hfreed.frame z hzc, hone.frame z (mt mem_singleton.mp hzx)]
    · rw [hfreed.rest]
      rfl

end SplitVirtqueue

end SimpleKernel.Virtio
