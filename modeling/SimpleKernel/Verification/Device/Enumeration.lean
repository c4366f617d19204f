import SimpleKernel.Model.Device
import Mathlib.Tactic.SplitIfs

/-! The devices are a part of the nodes: the second loop is the first one with a filter. -/

namespace SimpleKernel.Device

/-- The arguments that a node gives, unless both loops skip it. -/
def Node.args (n : Node) : Option NodeInfo := if n.disabled then none else n.name.map n.info

/-- The node has none of the marks of the infrastructure. -/
def Node.isDevice (n : Node) : Bool :=
  !(n.property "interrupt-controller").isSome && !(n.property "#clock-cells").isSome &&
    !(n.property "device_type").any fun dt => isString dt "cpu" || isString dt "memory"

namespace Fdt

section

variable {σ : Type*} (callback : σ → NodeInfo → Bool × σ) (broken : Bool)

def visit : List NodeInfo → σ → Expected Unit × σ
  | [], s => (atEnd broken, s)
  | info :: rest, s =>
    if (callback s info).1 then visit rest (callback s info).2 else (.ok (), (callback s info).2)

theorem nodeLoop_eq (nodes : List Node) (s : σ) :
    nodeLoop callback broken nodes s = visit callback broken (nodes.filterMap Node.args) s := by
  induction nodes generalizing s with
  | nil => rfl
  | cons n rest ih =>
    rw [nodeLoop]
    cases hname : n.name with
    | none => simp [ih, Node.args, hname]
    | some name =>
      by_cases hdisabled : n.disabled
      · simp [ih, Node.args, hdisabled]
      · rcases hcall : callback s (n.info name) with ⟨_ | _, s'⟩ <;>
          simp [ih, Node.args, hname, hdisabled, visit, hcall]

theorem deviceLoop_eq (nodes : List Node) (s : σ) :
    deviceLoop callback broken nodes s =
      nodeLoop callback broken (nodes.filter Node.isDevice) s := by
  induction nodes generalizing s with
  | nil => rfl
  | cons n rest ih =>
    rw [deviceLoop, List.filter_cons]
    by_cases hdevice : n.isDevice
    · obtain ⟨⟨hic, hclock⟩, htype⟩ := by
        simpa only [Node.isDevice, Bool.and_eq_true, Bool.not_eq_true'] using hdevice
      simp [hdevice, nodeLoop, hic, hclock, htype, ih]
    · rw [if_neg hdevice, ← ih]
      cases n.name with
      | none => rfl
      | some name =>
        dsimp only
        split_ifs with hdisabled hic hclock htype <;> try rfl
        simp [Node.isDevice, hic, hclock, htype] at hdevice

end

/-- A callback that keeps its arguments and decides on all that it has seen. -/
def recording (accept : List NodeInfo → Bool) (calls : List NodeInfo) (info : NodeInfo) :
    Bool × List NodeInfo :=
  (accept (calls ++ [info]), calls ++ [info])

/-- The calls go on up to the first that is rejected, or up to the last. -/
def upTo (accept : List NodeInfo → Bool) (calls : List NodeInfo) :
    List NodeInfo → Bool × List NodeInfo
  | [] => (true, calls)
  | info :: rest =>
    if accept (calls ++ [info]) then upTo accept (calls ++ [info]) rest else (false, calls ++ [info])

theorem visit_recording (accept : List NodeInfo → Bool) (broken : Bool)
    (infos calls : List NodeInfo) :
    visit (recording accept) broken infos calls =
      (atEnd (broken && (upTo accept calls infos).1), (upTo accept calls infos).2) := by
  induction infos generalizing calls with
  | nil => rw [visit, upTo, Bool.and_true]
  | cons info rest ih =>
    rw [visit, upTo, recording]
    cases accept (calls ++ [info]) with
    | false => simp [atEnd]
    | true => simpa using ih (calls ++ [info])

theorem upTo_all (infos calls : List NodeInfo) :
    upTo (fun _ => true) calls infos = (true, calls ++ infos) := by
  induction infos generalizing calls with
  | nil => rw [upTo, List.append_nil]
  | cons info rest ih =>
    rw [upTo, if_pos rfl, ih, List.append_assoc, List.singleton_append]

/-- `ForEachDeviceNode` is `ForEachNode` on the nodes that are devices. -/
theorem devices_filter (fdt : Fdt) :
    let infos := fdt.nodes.filterMap Node.args
    let devices := (fdt.nodes.filter Node.isDevice).filterMap Node.args
    fdt.forEachNode (recording fun _ => true) [] = (atEnd fdt.broken, infos) ∧
    fdt.forEachDeviceNode (recording fun _ => true) [] = (atEnd fdt.broken, devices) ∧
    ∀ accept,
      fdt.forEachNode (recording accept) [] =
        (atEnd (fdt.broken && (upTo accept [] infos).1), (upTo accept [] infos).2) ∧
      fdt.forEachDeviceNode (recording accept) [] =
        (atEnd (fdt.broken && (upTo accept [] devices).1), (upTo accept [] devices).2) := by
  simp [forEachNode, forEachDeviceNode, deviceLoop_eq, nodeLoop_eq, visit_recording, upTo_all]

end Fdt

end SimpleKernel.Device
