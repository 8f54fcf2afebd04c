import ContractHost.Path.Layout

/-!
# Messages between accounts

A message calls into an account.  It names the code it runs and the accounts behind it by their paths, so what an
execution knows of itself and of its caller is read off its message.
-/

namespace ContractHost

/-- The block in which an execution takes place. -/
structure Block where
  number : UInt64 := 0
  timestamp : UInt64 := 0
  difficulty : Word := .zero
  gasLimit : UInt64 := 0
  coinbase : Address := .zero
  deriving DecidableEq

inductive MessageKind
  /-- The target's code runs as the target. -/
  | call
  /-- The target's code runs with the sender and the value of the code that called it. -/
  | delegate
  deriving DecidableEq

structure Message where
  /-- The code to run. -/
  callee : Path
  /-- The account that sent the message. -/
  sender : Path
  /-- The account that signed the transaction. -/
  origin : Path
  value : Amount := 0
  data : Bytes := []
  gas : UInt64 := 0
  gasPrice : UInt64 := 0
  nonce : UInt64 := 0
  block : Block := {}
  kind : MessageKind := .call
  /-- Whether the sender waits for the answer. -/
  sync : Bool := false
  deriving DecidableEq

/-- What comes back for a message. -/
structure Response where
  /-- Whether the callee trapped. -/
  exception : Bool := false
  output : Bytes := []
  deriving DecidableEq

namespace Message

/-- The address whose code runs; zero if the path names none. -/
def executor (m : Message) : Address := m.callee.address?.getD .zero

/-- The address of the sender; zero if the path names none. -/
def caller (m : Message) : Address := m.sender.address?.getD .zero

/-- The address of the signer; zero if the path names none. -/
def signer (m : Message) : Address := m.origin.address?.getD .zero

end Message

end ContractHost
