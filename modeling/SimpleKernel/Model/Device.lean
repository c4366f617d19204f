import SimpleKernel.Shared.Transition
import SimpleKernel.Model.Basic

/-! The flattened device tree, as `libfdt` gives access to it, the two loops over its nodes, the registry
of the drivers, and the platform bus. -/

namespace SimpleKernel.Device

/-- What `libfdt` tells of a node: its name, and the bytes of its properties. -/
structure Node where
  name : Option (List UInt8)
  property : String → Option (List UInt8)

/-- The nodes in the order of `fdt_next_node`, and if it fails behind the last one with another error
than `FDT_ERR_NOTFOUND`. -/
structure Fdt where
  nodes : List Node
  broken : Bool := false

/-- The arguments of a callback; there are no data if the property is missing or empty. -/
structure NodeInfo where
  nodeName : List UInt8
  compatible : Option (List UInt8)
  mmioBase : ℕ
  mmioSize : ℕ
  irq : ℕ
  deriving DecidableEq, Repr

/-- `strcmp` finds the data of a property equal to a string. -/
def isString (data : List UInt8) (string : String) : Bool :=
  data.takeWhile (· ≠ 0) = string.toUTF8.toList

/-- The number with these bytes, the highest first. -/
def bigEndian (bytes : List UInt8) : ℕ := bytes.foldl (fun n b => n * 256 + b.toNat) 0

namespace Node

/-- There is a `status`, and it is neither `okay` nor `ok`. -/
def disabled (n : Node) : Bool :=
  (n.property "status").any fun status => !isString status "okay" && !isString status "ok"

/-- What both loops take from the properties of a node. -/
def info (n : Node) (nodeName : List UInt8) : NodeInfo :=
  let reg := (n.property "reg").filter (16 ≤ ·.length)
  let interrupts := (n.property "interrupts").filter (4 ≤ ·.length)
  { nodeName
    compatible := (n.property "compatible").filter (0 < ·.length)
    mmioBase := reg.elim 0 fun data => bigEndian (data.take 8)
    mmioSize := reg.elim 0 fun data => bigEndian ((data.drop 8).take 8)
    irq := interrupts.elim 0 fun data => bigEndian (data.take 4) }

end Node

namespace Fdt

variable {σ : Type*} (callback : σ → NodeInfo → Bool × σ) (broken : Bool)

/-- How a loop ends when there is no node left. -/
def atEnd : Expected Unit := if broken then .error .fdtParseFailed else .ok ()

def nodeLoop : List Node → σ → Expected Unit × σ
  | [], s => (atEnd broken, s)
  | n :: rest, s =>
    match n.name with
    | none => nodeLoop rest s
    | some name =>
      if n.disabled then nodeLoop rest s
      else
        match callback s (n.info name) with
        | (false, s) => (.ok (), s)
        | (true, s) => nodeLoop rest s

def deviceLoop : List Node → σ → Expected Unit × σ
  | [], s => (atEnd broken, s)
  | n :: rest, s =>
    match n.name with
    | none => deviceLoop rest s
    | some name =>
      if n.disabled then deviceLoop rest s
      else if (n.property "interrupt-controller").isSome then deviceLoop rest s
      else if (n.property "#clock-cells").isSome then deviceLoop rest s
      else if (n.property "device_type").any fun dt => isString dt "cpu" || isString dt "memory" then
        deviceLoop rest s
      else
        match callback s (n.info name) with
        | (false, s) => (.ok (), s)
        | (true, s) => deviceLoop rest s

def forEachNode (fdt : Fdt) : σ → Expected Unit × σ := nodeLoop callback fdt.broken fdt.nodes

def forEachDeviceNode (fdt : Fdt) : σ → Expected Unit × σ := deviceLoop callback fdt.broken fdt.nodes

end Fdt

def compatibleSize : ℕ := 128

/-- `compatible` is the whole array, of which `compatibleLen` bytes are in use. -/
structure DeviceNode where
  name : List UInt8 := []
  mmioBase : ℕ := 0
  mmioSize : ℕ := 0
  irq : ℕ := 0
  compatible : List UInt8 := List.replicate compatibleSize 0
  compatibleLen : ℕ := 0

namespace DeviceNode

/-- The bytes from an offset up to the next zero, or up to the end of the array. -/
def stringAt (node : DeviceNode) (p : ℕ) : List UInt8 :=
  (node.compatible.drop p).takeWhile (· ≠ 0)

/-- The strings that `FindDriver` goes over from an offset, with their offsets. -/
def strings (node : DeviceNode) (p : ℕ) : List (ℕ × List UInt8) :=
  if node.compatibleLen ≤ p then []
  else (p, node.stringAt p) :: node.strings (p + (node.stringAt p).length + 1)
termination_by node.compatibleLen - p

end DeviceNode

/-- `accepts` is the delegate `match`. -/
structure DriverEntry where
  matchTable : List (List UInt8)
  accepts : DeviceNode → Bool

def maxDrivers : ℕ := 32

def maxCompatEntries : ℕ := 96

/-- `FindDriver` returns a driver, or it reads outside of an array. -/
inductive Found where
  | nullptr
  | driver (idx : ℕ)
  | outside
  deriving DecidableEq, Repr

/-- `compatMap` and `compatCount` are the contents and the size of `compat_map_`. -/
structure DriverRegistry where
  drivers : List DriverEntry := []
  compatMap : List UInt8 → Option ℕ := fun _ => none
  compatCount : ℕ := 0

namespace DriverRegistry

/-- `compat_map_.insert`, which does nothing if the key is there. -/
def insert (r : DriverRegistry) (compatible : List UInt8) (idx : ℕ) : DriverRegistry :=
  if (r.compatMap compatible).isSome then r
  else
    { r with
      compatMap := Function.update r.compatMap compatible (some idx)
      compatCount := r.compatCount + 1 }

/-- The loop of `Register` over the match table. -/
def insertAll (idx : ℕ) : List (List UInt8) → DriverRegistry → Expected Unit × DriverRegistry
  | [], r => (.ok (), r)
  | compatible :: rest, r =>
    if maxCompatEntries ≤ r.compatCount then (.error .outOfMemory, r)
    else insertAll idx rest (r.insert compatible idx)

def register (r : DriverRegistry) (entry : DriverEntry) : Expected Unit × DriverRegistry :=
  if maxDrivers ≤ r.drivers.length then (.error .outOfMemory, r)
  else
    match insertAll r.drivers.length entry.matchTable r with
    | (.error e, r) => (.error e, r)
    | (.ok _, r) => (.ok (), { r with drivers := r.drivers ++ [entry] })

/-- The loop of `FindDriver`. -/
def findIn (r : DriverRegistry) (node : DeviceNode) : List (ℕ × List UInt8) → Found
  | [] => .nullptr
  | (p, string) :: rest =>
    if node.compatible.length ≤ p + string.length then .outside
    else
      match r.compatMap string with
      | none => r.findIn node rest
      | some idx =>
        match r.drivers[idx]? with
        | none => .outside
        | some entry => if entry.accepts node then .driver idx else r.findIn node rest

def findDriver (r : DriverRegistry) (node : DeviceNode) : Found :=
  r.findIn node (node.strings 0)

end DriverRegistry

def registrySystem : Transition DriverRegistry DriverEntry where
  init r := r = {}
  step r entry := some (r.register entry).2

/-- What the callback of `Enumerate` writes to a node. The name has 31 bytes at most. -/
def DeviceNode.fill (node : DeviceNode) (info : NodeInfo) (data : List UInt8) : DeviceNode :=
  let copyLen := if data.length < compatibleSize then data.length else compatibleSize
  { name := info.nodeName.take 31
    mmioBase := info.mmioBase
    mmioSize := info.mmioSize
    irq := info.irq
    compatible := data.take copyLen ++ node.compatible.drop copyLen
    compatibleLen := copyLen }

namespace PlatformBus

/-- The callback of `Enumerate`, with the nodes that have been written; `out` is what the array holds
before. -/
def add (out : ℕ → DeviceNode) (max : ℕ) (nodes : List DeviceNode) (info : NodeInfo) :
    Bool × List DeviceNode :=
  if max ≤ nodes.length then (false, nodes)
  else
    match info.compatible with
    | none | some [] => (true, nodes)
    | some data => (true, nodes ++ [(out nodes.length).fill info data])

def enumerate (fdt : Fdt) (out : ℕ → DeviceNode) (max : ℕ) : Expected ℕ × List DeviceNode :=
  let (result, nodes) := fdt.forEachDeviceNode (add out max) []
  (result.map fun _ => nodes.length, nodes)

end PlatformBus

end SimpleKernel.Device
