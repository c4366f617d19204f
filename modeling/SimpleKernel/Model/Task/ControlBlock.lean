import SimpleKernel.Model.Task.Fsm
import SimpleKernel.Model.VirtualMemory

/-! The task control block and the data that hang on it (`task_control_block.hpp`,
`resource_id.hpp`, `signal.hpp`). -/

namespace SimpleKernel

open VirtualMemory (Addr)

/-- A `TaskControlBlock*`. Every block has an address of its own, which is not given to
another block after it was destroyed. -/
abbrev TaskPtr := ℕ

/-- `size_t`, kept below `2 ^ 64` by the functions that compute one. -/
abbrev Pid := ℕ

/-! ## Resource ids -/

inductive ResourceType where
  | none
  | mutex
  | semaphore
  | condVar
  | childExit
  | ioComplete
  | futex
  | signal
  | timer
  | interrupt
  deriving DecidableEq, Repr

def ResourceType.code : ResourceType → BitVec 64
  | .none => 0x00
  | .mutex => 0x01
  | .semaphore => 0x02
  | .condVar => 0x03
  | .childExit => 0x04
  | .ioComplete => 0x05
  | .futex => 0x06
  | .signal => 0x07
  | .timer => 0x08
  | .interrupt => 0x09

structure ResourceId where
  value : BitVec 64 := 0
  deriving DecidableEq, Repr

/-- `ResourceId(type, data)`: the type in the upper byte, the data below. -/
def ResourceId.of (type : ResourceType) (data : ℕ) : ResourceId :=
  ⟨type.code <<< 56 ||| (BitVec.ofNat 64 data &&& 0x00FFFFFFFFFFFFFF)⟩

/-- `static_cast<bool>`: the type is not `kNone`. -/
def ResourceId.isValid (r : ResourceId) : Bool := (r.value >>> 56) &&& 0xFF ≠ 0

/-! ## Signals -/

/-- `SignalHandler`: the default, `kSigIgn`, or a function of the task. -/
inductive SignalHandler where
  | dfl
  | ign
  | user (entry : Addr)
  deriving DecidableEq, Repr

def sigNone : ℕ := 0
def sigKill : ℕ := 9
def sigChld : ℕ := 17
def sigCont : ℕ := 18
def sigStop : ℕ := 19
def sigTstp : ℕ := 20

def maxSignals : ℕ := 32

structure SignalState where
  pending : BitVec 32 := 0
  blocked : BitVec 32 := 0
  actions : ℕ → SignalHandler := fun _ => .dfl

namespace SignalState

def isValid (signum : ℤ) : Bool := 0 < signum ∧ signum < maxSignals

def hasDeliverableSignal (s : SignalState) : Bool := s.pending &&& ~~~s.blocked ≠ 0

/-- The lowest deliverable signal from 1 on; bit 0 is not a signal. -/
def getNextDeliverableSignal (s : SignalState) : ℕ :=
  ((List.range' 1 (maxSignals - 1)).find? (s.pending &&& ~~~s.blocked).getLsbD).getD sigNone

def setPending (s : SignalState) (signum : ℕ) : SignalState :=
  { s with pending := s.pending ||| BitVec.twoPow 32 signum }

def clearPending (s : SignalState) (signum : ℕ) : SignalState :=
  { s with pending := s.pending &&& ~~~BitVec.twoPow 32 signum }

end SignalState

/-- The cases `'T'` and `'C'` of `GetDefaultSignalAction`, in which the task is terminated. -/
def defaultActionTerminates (signum : ℕ) : Bool :=
  !(signum == sigChld || signum == sigCont || signum == sigStop || signum == sigTstp)

/-! ## Clone flags -/

def cloneVm : BitVec 64 := 0x00000100
def cloneFs : BitVec 64 := 0x00000200
def cloneFiles : BitVec 64 := 0x00000400
def cloneSighand : BitVec 64 := 0x00000800
def cloneParent : BitVec 64 := 0x00008000
def cloneThread : BitVec 64 := 0x00010000

def cloneAllMask : BitVec 64 :=
  cloneVm ||| cloneFs ||| cloneFiles ||| cloneSighand ||| cloneParent ||| cloneThread

def hasFlag (flags flag : BitVec 64) : Bool := flags &&& flag ≠ 0

/-! ## The control block -/

inductive SchedPolicy where
  | realTime
  | normal
  | idle
  deriving DecidableEq, Repr

structure SchedInfo where
  wakeTick : ℕ := 0
  timeSliceRemaining : ℕ := 10
  timeSliceDefault : ℕ := 10
  totalRuntime : ℕ := 0
  contextSwitches : ℕ := 0

structure TaskAuxData where
  parentPid : Pid := 0
  pgid : Pid := 0
  sid : Pid := 0
  tgid : Pid := 0
  exitCode : ℤ := 0
  cloneFlags : BitVec 64 := 0
  cpuAffinity : BitVec 64 := BitVec.allOnes 64
  blockedOn : ResourceId := {}
  signals : SignalState := {}

/-- `previous` and `next` are the pointers of `ThreadGroupLink`. -/
structure TaskControlBlock where
  pid : Pid := 0
  status : TaskStatus := .unInit
  policy : SchedPolicy := .normal
  schedInfo : SchedInfo := {}
  kernelStack : Option Addr := none
  pageTable : Option Addr := none
  aux : TaskAuxData := {}
  previous : Option TaskPtr := none
  next : Option TaskPtr := none

namespace TaskControlBlock

def receive (task : TaskControlBlock) (msg : Msg) : TaskControlBlock :=
  { task with status := task.status.receive msg }

def isThreadGroupLeader (task : TaskControlBlock) : Bool := task.pid == task.aux.tgid

def setBlockedOn (task : TaskControlBlock) (resourceId : ResourceId) : TaskControlBlock :=
  { task with aux := { task.aux with blockedOn := resourceId } }

def resetTimeSlice (task : TaskControlBlock) : TaskControlBlock :=
  { task with schedInfo :=
      { task.schedInfo with timeSliceRemaining := task.schedInfo.timeSliceDefault } }

end TaskControlBlock

end SimpleKernel
