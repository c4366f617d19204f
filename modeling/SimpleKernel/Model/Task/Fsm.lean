import SimpleKernel.Model.Basic

/-! The state machine of a task (`task_fsm.hpp`). -/

namespace SimpleKernel

inductive TaskStatus where
  | unInit
  | ready
  | running
  | sleeping
  | blocked
  | exited
  | zombie
  deriving DecidableEq, Repr

/-- The messages of `task_messages.hpp`. The wake tick of `MsgSleep`, the resource of
`MsgBlock` and the exit code of `MsgExit` are not read by the state machine. -/
inductive Msg where
  | schedule
  | yield
  | sleep
  | block
  | wakeup
  | exit (hasParent : Bool)
  | reap
  deriving DecidableEq, Repr

/-- `TaskFsm::Receive`: a message that a state does not expect leaves it as it is. -/
def TaskStatus.receive : TaskStatus → Msg → TaskStatus
  | .unInit, .schedule => .ready
  | .ready, .schedule => .running
  | .running, .yield => .ready
  | .running, .sleep => .sleeping
  | .running, .block => .blocked
  | .running, .exit hasParent => if hasParent then .zombie else .exited
  | .sleeping, .wakeup => .ready
  | .blocked, .wakeup => .ready
  | .exited, .reap => .exited
  | .zombie, .reap => .exited
  | status, _ => status

end SimpleKernel
