import ContractHost.Creation
import ContractHost.Host.Reading

/-!
# Calls to other accounts

A call is handed to the kernel as a message; whatever becomes of it, the caller goes on and is told whether it
succeeded.  Only a lack of gas stops the caller.
-/

namespace ContractHost

inductive Verdict
  | success
  | failure
  deriving DecidableEq

/-- The number that tells the caller how it went. -/
def Verdict.code : Verdict → UInt64
  | success => 1
  | failure => 0

/-- What the caller asks for. -/
structure SubCall where
  /-- Gas for the callee. -/
  gas : UInt64
  target : Address
  value : Amount
  data : Bytes

namespace SubCall

/-- The message by which the execution of `m` makes the call. -/
def message (m : Message) (c : SubCall) : Message where
  callee := .codeOf (m.callee.sibling c.target)
  sender := m.callee.accountRoot?.getD (.account m.executor)
  origin := m.origin
  value := c.value
  data := c.data
  gas := c.gas
  gasPrice := m.gasPrice
  block := m.block

/-- The message by which the call is made in the name of the sender of `m` and with the value of `m`. -/
def delegateMessage (m : Message) (c : SubCall) : Message :=
  { c.message m with sender := m.sender, value := m.value, kind := .delegate, sync := true }

end SubCall

namespace Host

variable {τ κ : Type}

/-- Pays for the value of a call, if it has one: it must be possible to pay for the value and the callee's gas
together, of which only the former is kept. -/
def payCall (c : SubCall) : Host τ κ Unit := do
  if c.value ≠ 0 then
    charge (Gas.add (Gas.callValue - Gas.callStipend) c.gas)
    restore c.gas

/-- Calls the target; an exception or an undelivered message costs a penalty. -/
def call [Kernel κ] (m : Message) (c : SubCall) : Host τ κ (Verdict × Bytes) := do
  payCall c
  match ← send (c.message m) with
  | .ok ⟨false, output⟩ => return (.success, output)
  | _ =>
    charge Gas.callException
    return (.failure, [])

/-- Fetches the target's code and pays for the value; nothing is run, and it always succeeds. -/
def callCode [Tree τ] (self : Path) (c : SubCall) : Host τ κ Verdict := do
  if c.value ≠ 0 then
    charge Gas.callCodeValue
  discard (lookupCode self c.target)
  return .success

/-- Runs the target's code in the name of the caller's sender.  The output comes back also from an exception. -/
def callDelegate [Kernel κ] (m : Message) (c : SubCall) : Host τ κ (Verdict × Bytes) := do
  match ← send (c.delegateMessage m) with
  | .ok ⟨exception, output⟩ => return (if exception then .failure else .success, output)
  | .error _ => return (.failure, [])

end Host

/-- The address of the contract that the execution of `m` makes with `value`; zero if it has not that much to give. -/
def created (m : Message) (value : Amount) : Verdict × Address :=
  if m.value < value then (.failure, .zero) else (.success, creationAddress m.executor m.nonce)

end ContractHost
