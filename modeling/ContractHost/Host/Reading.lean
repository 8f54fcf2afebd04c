import ContractHost.Host.Frame

/-!
# Soft look-ups

A contract never learns that the state tree failed: what cannot be read, or is not of the right size, counts as
zero, and missing code as empty.  Block hashes are looked up only for the 256 blocks before the current one.
-/

namespace ContractHost

inductive Reading (α : Type)
  | found (value : α)
  /-- The tree could not answer, and the default stands in. -/
  | missing (default : α)
  deriving DecidableEq

namespace Reading

variable {α : Type}

def value : Reading α → α
  | found v => v
  | missing v => v

def isFound : Reading α → Bool
  | found _ => true
  | missing _ => false

/-- What was read, if it was read and `decode` takes it; otherwise the default. -/
def ofAnswer {β : Type} (answer : Except TreeError β) (decode : β → Option α) (default : α) : Reading α :=
  match answer with
  | .ok b =>
    match decode b with
    | some v => found v
    | none => missing default
  | .error _ => missing default

def balance (answer : Except TreeError Bytes) : Reading Amount := ofAnswer answer Amount.ofBytes? 0

def code (answer : Except TreeError Bytes) : Reading Bytes := ofAnswer answer some []

def slot (answer : Except TreeError Bytes) : Reading Word := ofAnswer answer (Bytes.toVector? 32) Word.zero

def hash (answer : Except TreeError Word) : Reading Word := ofAnswer answer some Word.zero

end Reading

namespace Host

variable {τ κ : Type} [Tree τ]

/-! The look-ups take the path of the running code first. -/

def lookupBalance (self : Path) (target : Address) : Host τ κ (Reading Amount) :=
  return .balance (← fetch (.balanceOf (self.sibling target)))

def lookupOwnCode (self : Path) : Host τ κ (Reading Bytes) := return .code (← fetch self)

def lookupCode (self : Path) (target : Address) : Host τ κ (Reading Bytes) :=
  return .code (← fetch (.codeOf (self.sibling target)))

def lookupSlot (self : Path) (key : Word) : Host τ κ (Reading Word) := return .slot (← fetch (self.slot key))

/-- Whether the hash of block `number` can be seen from block `current`. -/
def InHashWindow (current : UInt64) (number : Int64) : Prop :=
  0 ≤ number.toInt ∧ number.toInt < current.toNat ∧ current.toNat ≤ number.toInt + Gas.blockHashWindow.toNat

instance (current : UInt64) (number : Int64) : Decidable (InHashWindow current number) :=
  inferInstanceAs (Decidable (_ ∧ _ ∧ _))

def lookupBlockHash (current : UInt64) (number : Int64) : Host τ κ (Reading Word) := do
  if InHashWindow current number then
    return .hash (← fetchHash (.block number.toUInt64))
  else
    return .missing Word.zero

end Host

end ContractHost
