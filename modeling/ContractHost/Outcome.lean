import ContractHost.Address
import ContractHost.Error

/-!
# What an execution comes to

`Progress` gathers the status, the result and the logs of an execution while it runs.  Once the status is terminal
the rest is frozen: every further step is refused, and `finish` only closes the account.
-/

namespace ContractHost

structure LogEntry where
  data : Bytes
  topics : List Word
  deriving DecidableEq

structure Result where
  output : Bytes := []
  /-- Gas to be credited to the sender. -/
  gasRefund : UInt64 := 0
  selfDestruct : Bool := false
  /-- Who gets the balance of the destroyed contract. -/
  beneficiary : Option Address := none
  /-- Whether the execution trapped. -/
  exception : Bool := false
  deriving DecidableEq

/-- The final report of an execution. -/
structure Outcome where
  status : Status
  result : Result
  logs : List LogEntry
  gasLeft : UInt64
  gasUsed : UInt64
  deriving DecidableEq

structure Progress where
  status : Status := .running
  result : Result := {}
  logs : List LogEntry := []
  deriving DecidableEq

namespace Progress

/-- Refuses an execution that has ended. -/
def ensureRunning (p : Progress) : Except OperationError Unit :=
  if p.status.isTerminal then throw (.ended p.status) else pure ()

/-- Halts with `output`, if given, as the bytes returned. -/
def halt (p : Progress) (output : Option Bytes) : Except OperationError Progress := do
  p.ensureRunning
  return { p with
    status := .halted .returned, result := { p.result with output := output.getD p.result.output } }

def log (p : Progress) (entry : LogEntry) : Except OperationError Progress := do
  p.ensureRunning
  return { p with logs := p.logs ++ [entry] }

/-- Halts and leaves the balance to `beneficiary`. -/
def selfDestruct (p : Progress) (beneficiary : Address) : Except OperationError Progress := do
  p.ensureRunning
  return { p with
    status := .halted .selfDestructed
    result := { p.result with selfDestruct := true, beneficiary := some beneficiary } }

/-- Aborts the execution, if it has not ended. -/
def trap (p : Progress) (why : Trap) : Progress :=
  if p.status.isTerminal then p
  else { p with status := .trapped why, result := { p.result with exception := true } }

/-- Closes the account: an execution that is still running returns with what it has. -/
def finish (p : Progress) (gasRefund : UInt64) : Progress :=
  { p with
    status := if p.status.isTerminal then p.status else .halted .returned
    result := { p.result with gasRefund } }

theorem ensureRunning_of_ne {p : Progress} (h : p.status ≠ .running) :
    p.ensureRunning = .error (.ended p.status) := by
  rw [ensureRunning]
  cases hstatus : p.status with
  | running => exact absurd hstatus h
  | halted _ | trapped _ => rfl

/-! ### While the execution runs -/

theorem ensureRunning_of_running {p : Progress} (h : p.status = .running) : p.ensureRunning = .ok () := by
  simp only [ensureRunning, h]
  rfl

theorem halt_of_running {p : Progress} (h : p.status = .running) (output : Option Bytes) :
    p.halt output = .ok { p with
      status := .halted .returned, result := { p.result with output := output.getD p.result.output } } := by
  rw [halt, ensureRunning_of_running h]
  rfl

theorem log_of_running {p : Progress} (h : p.status = .running) (entry : LogEntry) :
    p.log entry = .ok { p with logs := p.logs ++ [entry] } := by
  rw [log, ensureRunning_of_running h]
  rfl

theorem selfDestruct_of_running {p : Progress} (h : p.status = .running) (beneficiary : Address) :
    p.selfDestruct beneficiary = .ok { p with
      status := .halted .selfDestructed
      result := { p.result with selfDestruct := true, beneficiary := some beneficiary } } := by
  rw [selfDestruct, ensureRunning_of_running h]
  rfl

theorem trap_of_running {p : Progress} (h : p.status = .running) (why : Trap) :
    p.trap why = { p with status := .trapped why, result := { p.result with exception := true } } := by
  simp [trap, h, Status.isTerminal]

end Progress

end ContractHost
