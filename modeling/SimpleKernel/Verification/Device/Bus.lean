import SimpleKernel.Verification.Device.Drivers
import SimpleKernel.Verification.Device.Enumeration

/-! What `FindDriver` reads of the nodes that `Enumerate` has written. -/

namespace SimpleKernel.Device

open List

def IsString (data s : List UInt8) : Prop :=
  ∃ strings rest, data = encode strings ++ rest ∧ (∀ s ∈ strings, 0 ∉ s) ∧ s ∈ strings

theorem exists_encode {data : List UInt8} (h : data.getLast? = some 0) :
    ∃ strings, data = encode strings ∧ ∀ s ∈ strings, 0 ∉ s := by
  induction data with
  | nil => cases h
  | cons b data ih =>
    cases data with
    | nil =>
      obtain rfl : b = 0 := by simpa using h
      exact ⟨[[]], rfl, by simp⟩
    | cons c data =>
      obtain ⟨strings, hdata, hzero⟩ := ih (by rwa [getLast?_cons_cons] at h)
      by_cases hb : b = 0
      · exact ⟨[] :: strings, by simp [encode_cons, hb, hdata], by simpa using hzero⟩
      cases strings with
      | nil => cases hdata
      | cons s strings =>
        obtain ⟨hs, hzero⟩ := forall_mem_cons.mp hzero
        refine ⟨(b :: s) :: strings, by simp [encode_cons, hdata], ?_⟩
        exact forall_mem_cons.mpr ⟨by simp [Ne.symm hb, hs], hzero⟩

namespace DeviceNode

/-- `FindDriver` reads bytes in use only, and compares whole strings of the list. -/
def ReadsWhole (node : DeviceNode) (data : List UInt8) : Prop :=
  ∀ p ∈ node.strings 0, p.1 + p.2.length < node.compatibleLen ∧ IsString data p.2

variable {node : DeviceNode} {data : List UInt8} {p : ℕ}

theorem getElem?_stringAt (h : p + (node.stringAt p).length < node.compatible.length) :
    node.compatible[p + (node.stringAt p).length]? = some 0 := by
  have hsplit : node.stringAt p ++ (node.compatible.drop p).dropWhile (· ≠ 0) =
      node.compatible.drop p := takeWhile_append_dropWhile
  rw [← getElem?_drop, ← hsplit, getElem?_append_right (Nat.le_refl _), Nat.sub_self]
  cases hrest : (node.compatible.drop p).dropWhile (· ≠ 0) with
  | nil =>
    have hlen := congrArg length hsplit
    rw [hrest, append_nil, length_drop] at hlen
    omega
  | cons b rest =>
    have hb := head?_dropWhile_not (· ≠ 0) (node.compatible.drop p)
    rw [hrest] at hb
    simpa using hb

theorem last_of_reads (hlen : node.compatibleLen ≤ node.compatible.length)
    (hp : p < node.compatibleLen)
    (hread : ∀ q ∈ node.strings p, q.1 + q.2.length < node.compatibleLen) :
    node.compatible[node.compatibleLen - 1]? = some 0 := by
  induction p using DeviceNode.strings.induct node with
  | case1 p hle => omega
  | case2 p _ ih =>
    rw [strings, if_neg (by omega)] at hread
    obtain ⟨hfirst, hread⟩ := forall_mem_cons.mp hread
    by_cases hnext : p + (node.stringAt p).length + 1 < node.compatibleLen
    · exact ih hnext hread
    · have hend : node.compatibleLen - 1 = p + (node.stringAt p).length := by
        dsimp only at hfirst
        omega
      rw [hend]
      exact getElem?_stringAt (by omega)

theorem readsWhole_fill_iff (old : DeviceNode) (info : NodeInfo) (hdata : data ≠ []) :
    (old.fill info data).ReadsWhole data ↔ (data.take compatibleSize).getLast? = some 0 := by
  have hlen : (if data.length < compatibleSize then data.length else compatibleSize) =
      (data.take compatibleSize).length := by
    rw [length_take]
    split <;> omega
  have hcompatible : (old.fill info data).compatible = data.take compatibleSize ++
      old.compatible.drop (data.take compatibleSize).length := by
    rw [fill, hlen, length_take, ← take_eq_take_min]
  have hused : (old.fill info data).compatibleLen = (data.take compatibleSize).length := hlen
  constructor
  · intro h
    have hpos : 0 < (data.take compatibleSize).length := by
      rw [length_take]
      exact Nat.lt_min.mpr ⟨by decide, length_pos_of_ne_nil hdata⟩
    have hlast := last_of_reads (p := 0) (by rw [hused, hcompatible]; simp [-length_take])
      (hused ▸ hpos) fun q hq => (h q hq).1
    rwa [hused, hcompatible, getElem?_append_left (by omega), ← getLast?_eq_getElem?] at hlast
  · intro h
    obtain ⟨strings, hcopy, hzero⟩ := exists_encode h
    rw [hcopy] at hcompatible hused
    obtain ⟨hmap, hread⟩ := strings_encode (p := []) hcompatible (by simpa using hused) hzero
    intro q hq
    refine ⟨hread q hq, strings, data.drop compatibleSize, ?_, hzero, ?_⟩
    · rw [← hcopy, take_append_drop]
    · rw [← hmap]
      exact mem_map_of_mem hq

end DeviceNode

theorem Fdt.visit_invariant {σ : Type*} {callback : σ → NodeInfo → Bool × σ} {broken : Bool}
    {P : σ → Prop} {infos : List NodeInfo} (hstep : ∀ info ∈ infos, ∀ s, P s → P (callback s info).2)
    {s : σ} (hs : P s) : P (visit callback broken infos s).2 := by
  induction infos generalizing s with
  | nil => exact hs
  | cons info rest ih =>
    obtain ⟨hinfo, hrest⟩ := forall_mem_cons.mp hstep
    rw [visit]
    split
    · exact ih hrest (hinfo s hs)
    · exact hinfo s hs

namespace PlatformBus

/-- The node has been written for a node of the tree with this list of strings, which is not empty. -/
def Filled (fdt : Fdt) (data : List UInt8) (node : DeviceNode) : Prop :=
  data ≠ [] ∧ ∃ n ∈ fdt.nodes, n.property "compatible" = some data ∧
    ∃ old name, node = DeviceNode.fill old (n.info name) data

/-- `FindDriver` reads a node that `Enumerate` has written as it should if and only if the bytes that
have been copied end with a zero. -/
theorem enumerate_readsWhole {fdt : Fdt} {out : ℕ → DeviceNode} {max : ℕ} {node : DeviceNode}
    (h : node ∈ (enumerate fdt out max).2) : ∃ data, Filled fdt data node ∧
      (node.ReadsWhole data ↔ (data.take compatibleSize).getLast? = some 0) := by
  have hall : ∀ node ∈ (fdt.forEachDeviceNode (add out max) []).2, ∃ data, Filled fdt data node := by
    rw [Fdt.forEachDeviceNode, Fdt.deviceLoop_eq, Fdt.nodeLoop_eq]
    refine Fdt.visit_invariant (P := fun nodes => ∀ node ∈ nodes, ∃ data, Filled fdt data node) ?_
      (by simp)
    intro info hinfo nodes hnodes
    obtain ⟨n, hn, hargs⟩ := mem_filterMap.mp hinfo
    obtain ⟨-, name, -, rfl⟩ : n.disabled = false ∧ ∃ name, n.name = some name ∧ n.info name = info := by
      simpa [Node.args] using hargs
    unfold add
    split
    · exact hnodes
    split
    · exact hnodes
    · exact hnodes
    rename_i data _ hdata
    refine forall_mem_append.mpr ⟨hnodes, forall_mem_singleton.mpr ?_⟩
    obtain ⟨hproperty, hpos⟩ := Option.filter_eq_some_iff.mp hdata
    exact ⟨data, length_pos_iff.mp (of_decide_eq_true hpos), n, mem_of_mem_filter hn, hproperty, _,
      name, rfl⟩
  obtain ⟨data, hfilled⟩ := hall node h
  refine ⟨data, hfilled, ?_⟩
  obtain ⟨hdata, n, -, -, old, name, rfl⟩ := hfilled
  exact old.readsWhole_fill_iff _ hdata

def oneTree (data : List UInt8) : Fdt :=
  ⟨[⟨some [], fun name => if name = "compatible" then some data else none⟩], false⟩

theorem enumerate_readsWhole_one : ∃ node,
    (enumerate (oneTree [1, 0]) (fun _ => {}) 1).2 = [node] ∧ node.ReadsWhole [1, 0] := by
  refine ⟨_, rfl, ?_⟩
  obtain ⟨data, ⟨-, n, hn, hdata, -⟩, hwhole⟩ := @enumerate_readsWhole (oneTree [1, 0]) (fun _ => {}) 1 _
    (mem_singleton_self _)
  obtain rfl := mem_singleton.mp hn
  cases hdata
  exact hwhole.mpr rfl

/-- A string of 130 bytes loses its end, and so `FindDriver` reads behind the array. -/
theorem truncated_read :
    (enumerate (oneTree (replicate 130 1 ++ [0])) (fun _ => {}) 1).2.map (DriverRegistry.findDriver {}) =
      [.outside] := by
  decide +kernel

end PlatformBus

end SimpleKernel.Device
