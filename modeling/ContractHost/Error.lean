import ContractHost.Operation
import ContractHost.Path
import ContractHost.Status

/-!
# Errors and their wording
-/

namespace ContractHost

/-- Why the state tree gave no answer. -/
inductive TreeError
  | notFound (path : Path)
  | unavailable (text : String)
  deriving DecidableEq

/-- Why a message got no response. -/
inductive DeliveryError
  | unroutable (path : Path)
  | transport (text : String)
  deriving DecidableEq

/-- Why the host did not carry out an operation. -/
inductive OperationError
  /-- The execution is aborted. -/
  | trap (why : Trap)
  /-- The execution had ended before. -/
  | ended (status : Status)
  | arity (op : Operation) (expected got : Nat)
  /-- The host itself failed; the contract cannot see this. -/
  | internal (text : String)
  deriving DecidableEq

def TreeError.message : TreeError → String
  | notFound path => "no value at " ++ path.display
  | unavailable text => "state tree unavailable: " ++ text

def DeliveryError.message : DeliveryError → String
  | unroutable path => "no route to " ++ path.display
  | transport text => "kernel transport failure: " ++ text

namespace OperationError

def message : OperationError → String
  | trap why => "trap: " ++ why.message
  | ended status => "execution is " ++ status.display ++ "; no further host operations accepted"
  | arity op expected got =>
    op.name ++ ": expected " ++ toString expected ++ " arguments, got " ++ toString got
  | internal text => "internal host error: " ++ text

/-- The trap that the error reports, if it is one. -/
def trap? : OperationError → Option Trap
  | trap why => some why
  | _ => none

end OperationError

end ContractHost
