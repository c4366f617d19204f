import SimpleKernel.Model.Virtio.SplitVirtqueue
import SimpleKernel.Shared.Transition

/-! The driver of a block device. A request is a chain of a header, the data buffers and a
status byte; the header and the status byte are in a slot of the driver's memory. A completed
request is found again by the head of its chain. -/

namespace SimpleKernel.Virtio

inductive ReqType where
  | kIn
  | kOut
  deriving DecidableEq, Repr

def ReqType.code : ReqType → ℕ
  | .kIn => 0
  | .kOut => 1

structure BlkReqHeader where
  type : ℕ := 0
  reserved : ℕ := 0
  sector : ℕ := 0
  deriving DecidableEq, Repr

/-- The state of a request in flight. -/
structure RequestSlot where
  header : BlkReqHeader := {}
  status : UInt8 := 0
  token : ℕ := 0
  descHead : ℕ := 0
  deriving DecidableEq, Repr

structure VirtioStats where
  bytesTransferred : ℕ := 0
  kicksElided : ℕ := 0
  interruptsHandled : ℕ := 0
  queueFullErrors : ℕ := 0
  deriving DecidableEq, Repr

/-- `slotPhys` is the physical address of the slots, and `notified` the number of calls of
`NotifyQueue`. -/
structure VirtioBlk where
  vq : SplitVirtqueue
  slotPhys : ℕ
  slots : ℕ → RequestSlot
  virtToPhys : ℕ → ℕ
  stats : VirtioStats := {}
  slotBitmap : BitVec 64 := 0#64
  oldAvailIdx : ℕ := 0
  notified : ℕ := 0

def maxInflight : ℕ := 64

def maxSgElements : ℕ := 18

def sectorSize : ℕ := 512

/-- `sizeof(RequestSlot)`. The header is at its start. -/
def sizeofRequestSlot : ℕ := 48

def sizeofBlkReqHeader : ℕ := 16

def offsetofStatus : ℕ := 16

/-- The iterations of the wait for a synchronous request. -/
def spinLimit : ℕ := 100000000

/-- The addresses and lengths that a caller passes, an array of `IoVec`s of 16 bytes each in a
64-bit address space. -/
abbrev Buffers := { buffers : List IoVec // buffers.length < 2 ^ 60 }

def mapBlkStatus (status : UInt8) : ErrorCode :=
  if status = 0 then .success
  else if status = 1 then .ioError
  else if status = 2 then .notSupported
  else .deviceError

/-- `VringNeedEvent`, in 16-bit arithmetic. -/
def vringNeedEvent (eventIdx newIdx oldIdx : ℕ) : Bool :=
  (newIdx + 2 ^ 17 - eventIdx - 1) % 2 ^ 16 < (newIdx + 2 ^ 16 - oldIdx) % 2 ^ 16

namespace VirtioBlk

/-! ## Slots -/

def setSlot (b : VirtioBlk) (i : ℕ) (f : RequestSlot → RequestSlot) : VirtioBlk :=
  { b with slots := Function.update b.slots i (f (b.slots i)) }

def slotBasePhys (b : VirtioBlk) (i : ℕ) : ℕ := b.slotPhys + i * sizeofRequestSlot

def allocRequestSlot (b : VirtioBlk) : Expected ℕ × VirtioBlk :=
  let freeBits := ~~~b.slotBitmap
  if freeBits = 0#64 then (.error .noFreeDescriptors, b)
  else
    let idx := freeBits.ctz.toNat
    if maxInflight ≤ idx then (.error .noFreeDescriptors, b)
    else (.ok idx, { b with slotBitmap := b.slotBitmap ||| 1#64 <<< idx })

def freeRequestSlot (b : VirtioBlk) (idx : ℕ) : VirtioBlk :=
  if idx < maxInflight then { b with slotBitmap := b.slotBitmap &&& ~~~(1#64 <<< idx) } else b

/-- The loop of `FindSlotByDescHead` over the set bits. Each round clears one of 64. -/
def findSlotLoop (b : VirtioBlk) (descHead : ℕ) : ℕ → BitVec 64 → ℕ
  | 0, _ => maxInflight
  | rounds + 1, used =>
    if used = 0#64 then maxInflight
    else
      let i := used.ctz.toNat
      if (b.slots i).descHead = descHead then i
      else findSlotLoop b descHead rounds (used &&& (used - 1#64))

def findSlotByDescHead (b : VirtioBlk) (descHead : ℕ) : ℕ :=
  b.findSlotLoop descHead 64 b.slotBitmap

/-! ## Requests -/

def addQueueFullError (b : VirtioBlk) : VirtioBlk :=
  { b with stats := { b.stats with queueFullErrors := (b.stats.queueFullErrors + 1) % 2 ^ 64 } }

/-- The buffers of a request for the device to read, and those for it to write. -/
def iovs (type : ReqType) (slotBasePhys : ℕ) (buffers : List IoVec) : List IoVec × List IoVec :=
  let header : IoVec := ⟨slotBasePhys, sizeofBlkReqHeader⟩
  let status : IoVec := ⟨slotBasePhys + offsetofStatus, 1⟩
  match type with
  | .kIn => ([header], buffers ++ [status])
  | .kOut => (header :: buffers, [status])

/-- `DoEnqueue` up to `AllocRequestSlot`. -/
def takeSlot (b : VirtioBlk) (queueIndex : ℕ) (buffers : List IoVec) : Expected ℕ × VirtioBlk :=
  if queueIndex ≠ 0 then (.error .invalidArgument, b)
  else if maxSgElements < (buffers.length + 2) % 2 ^ 64 then (.error .invalidArgument, b)
  else
    match b.allocRequestSlot with
    | (.error e, b) => (.error e, b.addQueueFullError)
    | (.ok slotIdx, b) => (.ok slotIdx, b)

/-- `EnqueueRead` for `kIn`, and `EnqueueWrite` for `kOut`. -/
def doEnqueue (b : VirtioBlk) (type : ReqType) (queueIndex sector : ℕ) (buffers : List IoVec)
    (token : ℕ) : Expected Unit × VirtioBlk :=
  match b.takeSlot queueIndex buffers with
  | (.error e, b) => (.error e, b)
  | (.ok slotIdx, b) =>
    let b := b.setSlot slotIdx fun slot =>
      { slot with header := ⟨type.code, 0, sector⟩, status := 0xFF, token }
    let (readable, writable) := iovs type (b.slotBasePhys slotIdx) buffers
    match b.vq.submitChain readable writable with
    | (.error e, vq) => (.error e, ({ b with vq }.freeRequestSlot slotIdx).addQueueFullError)
    | (.ok head, vq) =>
      (.ok (), { b with vq }.setSlot slotIdx fun slot => { slot with descHead := head })

def notifyQueue (b : VirtioBlk) : VirtioBlk := { b with notified := b.notified + 1 }

def kick (b : VirtioBlk) (queueIndex : ℕ) : VirtioBlk :=
  if queueIndex ≠ 0 then b
  else if b.vq.eventIdxEnabled then
    let newIdx := b.vq.availIdx
    let b := if vringNeedEvent b.vq.availEvent newIdx b.oldAvailIdx then b.notifyQueue
      else { b with stats := { b.stats with kicksElided := (b.stats.kicksElided + 1) % 2 ^ 64 } }
    { b with oldAvailIdx := newIdx }
  else b.notifyQueue

def updateUsedEvent (b : VirtioBlk) : VirtioBlk :=
  if b.vq.eventIdxEnabled then { b with vq := { b.vq with usedEvent := b.vq.lastUsedIdx } } else b

/-! ## Completions -/

/-- The used element of a round of `ProcessCompletions`, with the slot found for it. -/
structure Completion where
  head : ℕ
  len : ℕ
  slotIdx : ℕ
  deriving DecidableEq, Repr

/-- The start of a round of `ProcessCompletions`, or `none` if the loop ends. -/
def popCompletion (b : VirtioBlk) : Option (Completion × VirtioBlk) :=
  if b.vq.hasUsed then
    match b.vq.popUsed with
    | (.error _, _) => none
    | (.ok elem, vq) =>
      let head := elem.id % 2 ^ 16
      some (⟨head, elem.len, b.findSlotByDescHead head⟩, { b with vq })
  else none

/-- The arguments of the callback, if the round calls it. -/
def callbackArgs (b : VirtioBlk) (c : Completion) : Option (ℕ × ErrorCode) :=
  if c.slotIdx < maxInflight then
    some ((b.slots c.slotIdx).token, mapBlkStatus (b.slots c.slotIdx).status)
  else none

/-- The rest of the round, after the callback. There is no result if `FreeChain` does not end
within as many rounds as there are descriptors. -/
def releaseCompletion (b : VirtioBlk) (c : Completion) : Option VirtioBlk :=
  let b := if c.slotIdx < maxInflight then
      { b with stats := { b.stats with
        bytesTransferred := (b.stats.bytesTransferred + c.len) % 2 ^ 64 } }.freeRequestSlot c.slotIdx
    else b
  (b.vq.freeChain b.vq.queueSize c.head).map fun (_, vq) => { b with vq }

end VirtioBlk

/-! ## The driver and the device

The driver's operations do not overlap; only the callback of `HandleInterrupt` may enqueue
requests. The device takes its steps at any time. -/

/-- A device. It has read the first `fetched` entries of the ring of available chains, counted
without wrapping, and works on those of `pending`, which are the number of the entry and the head
of the chain. It has written the status byte of those of `written`, and will put them into the
ring of used chains. -/
structure Device where
  fetched : ℕ := 0
  pending : List (ℕ × ℕ) := []
  written : List (ℕ × ℕ × UInt8) := []

/-- The caller of `ProcessCompletions`. The callback of a synchronous request sets `done` and
`result`. -/
inductive Caller where
  | handleInterrupt
  | sync (done : Bool) (result : ErrorCode)
  deriving DecidableEq, Repr

/-- The effect of the callback on the caller's variables. -/
def Caller.call : Caller → Option (ℕ × ErrorCode) → Caller
  | .sync _ _, some (_, status) => .sync true status
  | caller, _ => caller

/-- Where the driver is. -/
inductive Pc where
  | idle
  | polling (i : ℕ)
  | polled
  | completing (caller : Caller)
  | callback (caller : Caller) (c : VirtioBlk.Completion)
  | returned (result : Expected Unit)
  deriving DecidableEq, Repr

structure Machine where
  blk : VirtioBlk
  device : Device := {}
  pc : Pc := .idle

/-- The calls of the driver's operations, its next step in the current one, and the steps of the
device. A synchronous request is a `Read` or a `Write` of one sector. -/
inductive Action where
  | enqueue (type : ReqType) (queueIndex sector : ℕ) (buffers : Buffers) (token : ℕ)
  | kick (queueIndex : ℕ)
  | handleInterrupt
  | sync (type : ReqType) (sector data : ℕ)
  | next
  | fetch
  | writeStatus (entry : ℕ) (status : UInt8)
  | use (entry len : ℕ)
  | setAvailEvent (idx : ℕ)

namespace Machine

/-- The result of a synchronous request, after `ProcessCompletions`. -/
def syncResult (done : Bool) (result : ErrorCode) : Expected Unit :=
  if !done then .error .timeout
  else if result ≠ .success then .error result
  else .ok ()

def next (m : Machine) : Option Machine :=
  match m.pc with
  | .idle => none
  | .polling i =>
    if i < spinLimit && !m.blk.vq.hasUsed then some { m with pc := .polling (i + 1) }
    else some { m with pc := .polled }
  | .polled =>
    if m.blk.vq.hasUsed then some { m with pc := .completing (.sync false .success) }
    else some { m with pc := .returned (.error .timeout) }
  | .completing caller =>
    match m.blk.popCompletion with
    | some (c, blk) =>
      some { m with blk, pc := .callback (caller.call (blk.callbackArgs c)) c }
    | none =>
      some { m with
        blk := m.blk.updateUsedEvent
        pc := match caller with
          | .handleInterrupt => .idle
          | .sync done result => .returned (syncResult done result) }
  | .callback caller c => (m.blk.releaseCompletion c).map fun blk =>
    { m with blk, pc := .completing caller }
  | .returned _ => some { m with pc := .idle }

/-- `SubmitSyncRequest` up to the wait. -/
def submitSyncRequest (m : Machine) (type : ReqType) (sector : ℕ) (buffers : List IoVec) : Machine :=
  match m.blk.doEnqueue type 0 sector buffers 0 with
  | (.error e, blk) => { m with blk, pc := .returned (.error e) }
  | (.ok _, blk) => { m with blk := blk.kick 0, pc := .polling 0 }

/-- `Read` and `Write`; `data` is 0 for a null pointer. -/
def readWrite (m : Machine) (type : ReqType) (sector data : ℕ) : Machine :=
  if data = 0 then { m with pc := .returned (.error .invalidArgument) }
  else m.submitSyncRequest type sector [⟨m.blk.virtToPhys data, sectorSize⟩]

/-- Requests are enqueued between the operations and in the callback of `HandleInterrupt`. -/
def mayEnqueue (m : Machine) : Bool :=
  match m.pc with
  | .idle => true
  | .callback .handleInterrupt _ => true
  | _ => false

def lastDesc (q : SplitVirtqueue) : ℕ → ℕ → Option ℕ
  | 0, _ => none
  | fuel + 1, idx =>
    if (q.desc idx).hasNext then lastDesc q fuel (q.desc idx).next else some idx

/-- A byte written by the device at a physical address, as far as it is a status byte. -/
def writeByte (b : VirtioBlk) (addr : ℕ) (value : UInt8) : VirtioBlk :=
  { b with slots := fun i =>
      if b.slotBasePhys i + offsetofStatus = addr then { b.slots i with status := value }
      else b.slots i }

def fetch (m : Machine) : Option Machine :=
  let vq := m.blk.vq
  if m.device.fetched % 2 ^ 16 = vq.availIdx then none
  else
    let head := vq.availRing (m.device.fetched % 2 ^ 16 % vq.queueSize)
    some { m with device := { m.device with
      fetched := m.device.fetched + 1
      pending := (m.device.fetched, head) :: m.device.pending } }

/-- The device writes the status byte of a chain, which is the buffer of its last descriptor. -/
def writeStatus (m : Machine) (entry : ℕ) (status : UInt8) : Option Machine :=
  match m.device.pending.find? fun p => p.1 = entry with
  | none => none
  | some (entry, head) => (lastDesc m.blk.vq m.blk.vq.queueSize head).map fun idx =>
    { m with
      blk := writeByte m.blk (m.blk.vq.desc idx).addr status
      device := { m.device with
        pending := m.device.pending.erase (entry, head)
        written := (entry, head, status) :: m.device.written } }

/-- The device puts a chain into the ring of used chains. -/
def use (m : Machine) (entry len : ℕ) : Option Machine :=
  match m.device.written.find? fun w => w.1 = entry with
  | none => none
  | some (entry, head, status) =>
    let vq := m.blk.vq
    some { m with
      blk := { m.blk with vq := { vq with
        usedRing := Function.update vq.usedRing (vq.usedIdx % vq.queueSize) ⟨head, len⟩
        usedIdx := (vq.usedIdx + 1) % 2 ^ 16 } }
      device := { m.device with written := m.device.written.erase (entry, head, status) } }

def step (m : Machine) : Action → Option Machine
  | .enqueue type queueIndex sector buffers token =>
    if m.mayEnqueue then
      some { m with blk := (m.blk.doEnqueue type queueIndex sector buffers token).2 }
    else none
  | .kick queueIndex => if m.mayEnqueue then some { m with blk := m.blk.kick queueIndex } else none
  | .handleInterrupt =>
    if m.pc = .idle then
      some { m with
        blk := { m.blk with stats := { m.blk.stats with
          interruptsHandled := (m.blk.stats.interruptsHandled + 1) % 2 ^ 64 } }
        pc := .completing .handleInterrupt }
    else none
  | .sync type sector data => if m.pc = .idle then some (m.readWrite type sector data) else none
  | .next => m.next
  | .fetch => m.fetch
  | .writeStatus entry status => m.writeStatus entry status
  | .use entry len => m.use entry len
  | .setAvailEvent idx =>
    some { m with blk := { m.blk with vq := { m.blk.vq with availEvent := idx } } }

end Machine

/-- A driver and a device from the creation of the driver on. The memory of the slots need not be
cleared. -/
def blkSystem : Transition Machine Action where
  init m := (∃ queueSize eventIdx,
      SplitVirtqueue.create true queueSize eventIdx = some m.blk.vq) ∧
    m.blk.slotBitmap = 0#64 ∧ m.blk.oldAvailIdx = 0 ∧ m.blk.stats = {} ∧ m.device = {} ∧ m.pc = .idle
  step := Machine.step

/-! ## `VirtioBlkVfsAdapter` -/

abbrev Sector := Fin sectorSize → UInt8

/-- The sectors of a disk, and those that start in a buffer at the multiples of their size. -/
structure Storage where
  disk : ℕ → Sector
  buffer : ℕ → Sector

/-- A `Read` or a `Write` that succeeds. -/
def Storage.transfer (s : Storage) (sector offset : ℕ) : ReqType → Storage
  | .kIn => { s with buffer := Function.update s.buffer (offset / sectorSize) (s.disk sector) }
  | .kOut => { s with disk := Function.update s.disk sector (s.buffer (offset / sectorSize)) }

/-- The first rounds of the loop; `answer` is what the driver returns. -/
def sectorLoop (type : ReqType) (answer : ℕ → Expected Unit) (lba : UInt64) (s : Storage) :
    ℕ → Expected Unit × Storage
  | 0 => (.ok (), s)
  | i + 1 =>
    match sectorLoop type answer lba s i with
    | (.error e, s) => (.error e, s)
    | (.ok _, s) =>
      match answer i with
      | .error e => (.error e, s)
      -- `kSectorSize` is a 32-bit number here, and so is the product
      | .ok _ => (.ok (), s.transfer ((lba.toNat + i) % 2 ^ 64) (i * sectorSize % 2 ^ 32) type)

/-- `ReadSectors` with `kIn`, `WriteSectors` with `kOut`. -/
def transferSectors (type : ReqType) (answer : ℕ → Expected Unit) (lba : UInt64) (count : UInt32)
    (s : Storage) : Expected ℕ × Storage :=
  (sectorLoop type answer lba s count.toNat).map (·.map fun _ => count.toNat * sectorSize) id

end SimpleKernel.Virtio
