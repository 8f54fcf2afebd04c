import ContractHost.Host.Reading

/-!
# Storage writes

A slot that holds zero is kept as no node at all.  A write is classified by whether the slot was in use before and
whether it is after, which decides its surcharge and its refund.
-/

namespace ContractHost

inductive SlotWrite
  /-- An unused slot is taken into use. -/
  | create
  /-- A slot in use gets another value. -/
  | update
  /-- A slot in use is given up. -/
  | clear
  /-- An unused slot stays unused. -/
  | noop
  deriving DecidableEq

/-- A slot is in use if a word other than zero was found in it. -/
def SlotWrite.classify (old : Reading Word) (new : Word) : SlotWrite :=
  match old.isFound && !old.value.isZero, new.isZero with
  | false, false => create
  | true, false => update
  | true, true => clear
  | false, true => noop

namespace Host

variable {τ κ : Type} [Tree τ]

/-- Does what the class of the write asks for at the slot of `key`. -/
def applyWrite (self : Path) (key value : Word) : SlotWrite → Host τ κ Unit
  | .create | .update => put (self.slot key) value.toList
  | .clear | .noop => remove (self.slot key)

/-- Pays for the write, or is paid for it. -/
def settle : SlotWrite → Host τ κ Unit
  | .create => charge Gas.slotCreation
  | .clear => refund Gas.slotClearing
  | .update | .noop => pure ()

def storeSlot (self : Path) (key value : Word) : Host τ κ Unit := do
  let write := SlotWrite.classify (← lookupSlot self key) value
  settle write
  applyWrite self key value write

end Host

end ContractHost
