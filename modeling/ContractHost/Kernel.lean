import ContractHost.Error
import ContractHost.Message

/-!
# Kernels

The kernel carries messages between accounts and brings back the responses.  `Script` is a kernel that answers from
a table by destination.
-/

namespace ContractHost

class Kernel (κ : Type) where
  send : κ → Message → Except DeliveryError Response × κ

/-- A table of answers by destination, the newest first. -/
structure Script where
  answers : List (Path × Except DeliveryError Response) := []
  /-- Whether a destination without an answer cannot be reached; otherwise it responds with nothing. -/
  strict : Bool := false
  /-- The messages received, oldest first. -/
  received : Array Message := #[]

namespace Script

def answerWith (s : Script) (callee : Path) (answer : Except DeliveryError Response) : Script :=
  { s with answers := (callee, answer) :: s.answers }

/-- The answer to a message for `callee`. -/
def answer (s : Script) (callee : Path) : Except DeliveryError Response :=
  match s.answers.lookup callee with
  | some answer => answer
  | none => if s.strict then .error (.unroutable callee) else .ok {}

instance : Kernel Script where
  send s m := (s.answer m.callee, { s with received := s.received.push m })

end Script

end ContractHost
