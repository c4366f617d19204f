import SimpleKernel.Model.Virtio.VirtioBlk

/-! `HandleInterrupt` with the event index, one access to the shared memory after the other: the
check for used elements, the rounds of `ProcessCompletions`, and the store of `used_event`. The
device raises an interrupt for a used element if `used_event` asks for it. -/

namespace SimpleKernel.Virtio

/-- Where `HandleInterrupt` is: at the condition of the loop, at `PopUsed`, in the callback, or at
the store of `used_event`. -/
inductive Stage where
  | idle
  | check
  | pop
  | callback (c : VirtioBlk.Completion)
  | store
  deriving DecidableEq, Repr

/-- `pending` interrupts have been raised and not been taken yet. -/
structure EventMachine where
  blk : VirtioBlk
  device : Device := {}
  stage : Stage := .idle
  pending : ℕ := 0

/-- The place of the driver in the machine without interrupts. No requests are enqueued at
`polled`. -/
def Stage.pc : Stage → Pc
  | .idle => .idle
  | .check | .store => .polled
  | .pop => .completing .handleInterrupt
  | .callback c => .callback .handleInterrupt c

namespace EventMachine

def toMachine (e : EventMachine) : Machine := ⟨e.blk, e.device, e.stage.pc⟩

/-- The device advances the used index by one and compares it with `used_event`. -/
def needsEvent (e : EventMachine) : Bool :=
  vringNeedEvent e.blk.vq.usedEvent ((e.blk.vq.usedIdx + 1) % 2 ^ 16) e.blk.vq.usedIdx

/-- The interrupts that a step raises. -/
def raised (e : EventMachine) : Action → ℕ
  | .use _ _ => if e.needsEvent then 1 else 0
  | _ => 0

/-- The next step of `HandleInterrupt`. -/
def next (e : EventMachine) : Option EventMachine :=
  match e.stage with
  | .idle => none
  | .check => some { e with stage := if e.blk.vq.hasUsed then .pop else .store }
  | .pop =>
    match e.blk.popCompletion with
    | some (c, blk) => some { e with blk, stage := .callback c }
    | none => some { e with stage := .store }
  | .callback c => (e.blk.releaseCompletion c).map fun blk => { e with blk, stage := .check }
  | .store => some { e with blk := e.blk.updateUsedEvent, stage := .idle }

/-- `HandleInterrupt` runs once for every interrupt. There are no synchronous requests. -/
def step (e : EventMachine) : Action → Option EventMachine
  | .handleInterrupt =>
    if e.stage = .idle ∧ 0 < e.pending then
      some { e with
        blk := { e.blk with stats := { e.blk.stats with
          interruptsHandled := (e.blk.stats.interruptsHandled + 1) % 2 ^ 64 } }
        stage := .check
        pending := e.pending - 1 }
    else none
  | .next => e.next
  | .sync _ _ _ => none
  | a => (e.toMachine.step a).map fun m =>
    { e with blk := m.blk, device := m.device, pending := e.pending + e.raised a }

end EventMachine

/-- A driver that uses the event index, and a device. -/
def eventSystem : Transition EventMachine Action where
  init e := blkSystem.init e.toMachine ∧ e.blk.vq.eventIdxEnabled ∧ e.stage = .idle ∧ e.pending = 0
  step := EventMachine.step

end SimpleKernel.Virtio
