import SimpleKernel.Model.Basic
import Mathlib.Data.List.Iterate

/-! The split virtqueue: the descriptor table with its list of free descriptors, the ring of
available chains, which the driver writes, and the ring of used chains, which the device
writes. The rings are indexed by 16-bit counters that wrap. -/

namespace SimpleKernel.Virtio

/-- A physical buffer for a transfer. -/
structure IoVec where
  physAddr : ℕ
  len : ℕ
  deriving DecidableEq, Repr

/-- `kDescFNext`: the chain goes on at `next`. -/
def descFNext : BitVec 16 := 1

/-- `kDescFWrite`: the buffer is for the device to write. -/
def descFWrite : BitVec 16 := 2

structure Desc where
  addr : ℕ := 0
  len : ℕ := 0
  flags : BitVec 16 := 0
  next : ℕ := 0
  deriving DecidableEq, Repr

def Desc.hasNext (d : Desc) : Bool := d.flags &&& descFNext ≠ 0

structure UsedElem where
  id : ℕ := 0
  len : ℕ := 0
  deriving DecidableEq, Repr

/-- `availIdx`, `usedIdx`, the two rings and the descriptors are in the memory that the driver
shares with the device, and so are `usedEvent` and `availEvent`. -/
structure SplitVirtqueue where
  queueSize : ℕ
  eventIdxEnabled : Bool := false
  desc : ℕ → Desc := fun _ => {}
  availIdx : ℕ := 0
  availRing : ℕ → ℕ := fun _ => 0
  usedEvent : ℕ := 0
  usedIdx : ℕ := 0
  usedRing : ℕ → UsedElem := fun _ => {}
  availEvent : ℕ := 0
  freeHead : ℕ := 0
  numFree : ℕ := 0
  lastUsedIdx : ℕ := 0

/-- The index that no descriptor has. -/
def noDesc : ℕ := 0xFFFF

def isPowerOfTwo (value : ℕ) : Bool := value ≠ 0 && value &&& (value - 1) = 0

namespace SplitVirtqueue

def setDesc (q : SplitVirtqueue) (i : ℕ) (f : Desc → Desc) : SplitVirtqueue :=
  { q with desc := Function.update q.desc i (f (q.desc i)) }

/-- The loop of the constructor, from descriptor 0 on. -/
def linkAll (q : SplitVirtqueue) : ℕ → SplitVirtqueue
  | 0 => q
  | n + 1 => (linkAll q n).setDesc n fun d => { d with next := (n + 1) % 2 ^ 16 }

/-- The constructor, on DMA memory that has been cleared; the result is `none` if `is_valid_`
stays false. -/
def create (dmaIsValid : Bool) (queueSize : UInt16) (eventIdx : Bool) : Option SplitVirtqueue :=
  let n := queueSize.toNat
  if !dmaIsValid || !isPowerOfTwo n then none
  else
    let q : SplitVirtqueue := { queueSize := n, eventIdxEnabled := eventIdx }
    let q := (q.linkAll n).setDesc (n - 1) fun d => { d with next := noDesc }
    some { q with freeHead := 0, numFree := n, lastUsedIdx := 0 }

/-! ## Descriptors -/

def takeFree (q : SplitVirtqueue) : SplitVirtqueue :=
  { q with
    freeHead := (q.desc q.freeHead).next
    numFree := (q.numFree + 2 ^ 16 - 1) % 2 ^ 16 }

def allocDesc (q : SplitVirtqueue) : Expected ℕ × SplitVirtqueue :=
  if q.numFree = 0 then (.error .noFreeDescriptors, q) else (.ok q.freeHead, q.takeFree)

def putFree (q : SplitVirtqueue) (idx : ℕ) : SplitVirtqueue :=
  { q.setDesc idx fun d => { d with next := q.freeHead } with
    freeHead := idx
    numFree := (q.numFree + 1) % 2 ^ 16 }

def freeDesc (q : SplitVirtqueue) (idx : ℕ) : Expected Unit × SplitVirtqueue :=
  if q.queueSize ≤ idx then (.error .invalidDescriptor, q) else (.ok (), q.putFree idx)

/-! ## The rings -/

/-- A chain is put into the ring of available chains. -/
def submit (q : SplitVirtqueue) (head : ℕ) : SplitVirtqueue :=
  { q with
    availRing := Function.update q.availRing (q.availIdx % q.queueSize) head
    availIdx := (q.availIdx + 1) % 2 ^ 16 }

def hasUsed (q : SplitVirtqueue) : Bool := q.lastUsedIdx ≠ q.usedIdx

def popUsed (q : SplitVirtqueue) : Expected UsedElem × SplitVirtqueue :=
  if !q.hasUsed then (.error .noUsedBuffers, q)
  else
    (.ok (q.usedRing (q.lastUsedIdx % q.queueSize)),
      { q with lastUsedIdx := (q.lastUsedIdx + 1) % 2 ^ 16 })

/-! ## Chains -/

/-- One round of the loops of `SubmitChain`: a free descriptor gets a buffer and is put behind
the descriptor `prevIdx`. -/
def addDesc (flags : BitVec 16) (q : SplitVirtqueue) (prevIdx : ℕ) (buffer : IoVec) :
    SplitVirtqueue × ℕ :=
  let idx := q.freeHead
  let q := q.takeFree.setDesc idx fun d =>
    { d with addr := buffer.physAddr, len := buffer.len % 2 ^ 32, flags }
  let q := if prevIdx ≠ noDesc then q.setDesc prevIdx fun d => { d with next := idx } else q
  (q, idx)

def addDescs (flags : BitVec 16) : List IoVec → SplitVirtqueue → ℕ → SplitVirtqueue × ℕ
  | [], q, prevIdx => (q, prevIdx)
  | buffer :: rest, q, prevIdx =>
    let (q, prevIdx) := addDesc flags q prevIdx buffer
    addDescs flags rest q prevIdx

/-- `SubmitChain`; the number of buffers is truncated to 16 bits where it is compared. -/
def submitChain (q : SplitVirtqueue) (readable writable : List IoVec) :
    Expected ℕ × SplitVirtqueue :=
  let total := (readable.length + writable.length) % 2 ^ 64
  if total = 0 then (.error .invalidArgument, q)
  else if q.numFree < total % 2 ^ 16 then (.error .noFreeDescriptors, q)
  else
    let head := q.freeHead
    let (q, prevIdx) := addDescs descFNext readable q noDesc
    let (q, prevIdx) := addDescs (descFNext ||| descFWrite) writable q prevIdx
    let q := q.setDesc prevIdx fun d => { d with flags := d.flags &&& ~~~descFNext }
    (.ok head, q.submit head)

/-- The loop of `FreeChain`. It does not end on a cycle, and no fuel is enough. -/
def freeChainLoop : ℕ → ℕ → SplitVirtqueue → Option (Expected Unit × SplitVirtqueue)
  | 0, _, _ => none
  | fuel + 1, idx, q =>
    if q.queueSize ≤ idx then some (.error .invalidDescriptor, q)
    else
      let d := q.desc idx
      let q := q.putFree idx
      if d.hasNext then freeChainLoop fuel d.next q else some (.ok (), q)

def freeChain (fuel : ℕ) (q : SplitVirtqueue) (head : ℕ) :
    Option (Expected Unit × SplitVirtqueue) :=
  if q.queueSize ≤ head then some (.error .invalidDescriptor, q) else freeChainLoop fuel head q

/-! ## The layout in memory -/

def alignUp (value align : ℕ) : ℕ := (value + align - 1) % 2 ^ 64 &&& (2 ^ 64 - 1 - (align - 1))

/-- `avail_total`: the flags, the index, the ring, and `used_event`. -/
def availTotal (queueSize : UInt16) (eventIdx : Bool) : ℕ :=
  2 * (2 + queueSize.toNat) + if eventIdx then 2 else 0

/-- `used_total`: the flags, the index, the ring, and `avail_event`. -/
def usedTotal (queueSize : UInt16) (eventIdx : Bool) : ℕ :=
  2 * 2 + 8 * queueSize.toNat + if eventIdx then 2 else 0

def calcSize (queueSize : UInt16) (eventIdx : Bool) (usedAlign : ℕ) : ℕ :=
  let availOff := alignUp (16 * queueSize.toNat) 2
  let usedOff := alignUp (availOff + availTotal queueSize eventIdx) usedAlign
  (usedOff + usedTotal queueSize eventIdx) % 2 ^ 64

/-- The offsets of the descriptor table and of the two rings. -/
structure Layout where
  descOffset : ℕ
  availOffset : ℕ
  usedOffset : ℕ

def layout (queueSize : UInt16) (eventIdx : Bool) (usedAlign : ℕ) : Layout :=
  let availOffset := alignUp (16 * queueSize.toNat) 2
  { descOffset := 0
    availOffset
    usedOffset := alignUp (availOffset + availTotal queueSize eventIdx) usedAlign }

/-- Where `used_event` is: behind the ring that follows the flags and the index. -/
def Layout.usedEvent (l : Layout) (queueSize : UInt16) : ℕ := l.availOffset + 4 + 2 * queueSize.toNat

def Layout.availEvent (l : Layout) (queueSize : UInt16) : ℕ := l.usedOffset + 4 + 8 * queueSize.toNat

end SplitVirtqueue

end SimpleKernel.Virtio
