import ContractHost.Address
import ContractHost.Error
import ContractHost.Guest.Interface

/-!
# Guest contracts

A contract is a straight program over a linear memory, in which short stretches may be repeated.  It is loaded once,
which checks it as a whole, and then run for each message on a memory of its own.
-/

namespace ContractHost.Guest

/-- One step of a contract.  A number that an instruction gives is stored at an offset, or dropped. -/
inductive Instruction
  | call (op : Operation) (args : List UInt64) (keep : Option UInt32)
  | store32 (offset value : UInt32)
  | store64 (offset : UInt32) (value : UInt64)
  | copyByte (target source : UInt32)
  /-- Grows the memory and gives its old size in pages, or the largest word if it cannot grow. -/
  | grow (pages : UInt32) (keep : Option UInt32)
  /-- Gives the size of the memory in pages. -/
  | size (keep : Option UInt32)
  | unreachable
  | divideByZero
  /-- Never comes to an end. -/
  | spin
  deriving DecidableEq

inductive Step
  | once (i : Instruction)
  | times (n : Nat) (body : List Instruction)

/-- The instructions that stand in the step, however often they are run. -/
def Step.instructions : Step → List Instruction
  | once i => [i]
  | times _ body => body

structure Contract where
  body : List Step
  /-- What the memory holds at the start, by offset. -/
  data : List (UInt32 × Bytes) := []
  /-- The size of the memory at the start, in pages. -/
  pages : Nat := 1
  /-- The size up to which the memory may grow, in pages. -/
  maxPages : Option Nat := none

/-- What the host allows a contract. -/
structure Settings where
  maxMemoryPages : Nat := 256
  fuelLimit : UInt64 := 100000000
  entryPoint : String := "main"

/-- The number of bytes in a page. -/
def pageSize : Nat := 65536

/-- The largest memory that offsets can reach, in pages. -/
def addressablePages : Nat := 65536

inductive RunError
  | interface (e : InterfaceError)
  /-- The module makes no sense, or its memory cannot be set up. -/
  | module
  | host (e : OperationError)
  | trapped
  | fuelExhausted
  deriving DecidableEq

/-- The wording of an error, where it is fixed. -/
def RunError.message? : RunError → Option String
  | interface e => some ("validation error: " ++ e.message)
  | host e => some ("host error: " ++ e.message)
  | fuelExhausted => some "fuel exhausted (instruction limit)"
  | module | trapped => none

namespace Contract

/-- The instructions as they stand in the contract. -/
def instructions (c : Contract) : List Instruction := c.body.flatMap Step.instructions

/-- What the contract imports and exports: the operations it calls, its memory and its entry point. -/
def interface (c : Contract) (entryPoint : String) : Interface where
  imports := c.instructions.filterMap fun
    | .call op _ _ => some ⟨hostModule, op.name, signature op⟩
    | _ => none
  exports := [⟨"memory", .memory⟩, ⟨entryPoint, .function [] []⟩]

/-- Whether the export names differ, every call has the arguments it needs and the sizes of the memory are in
order. -/
def WellFormed (c : Contract) (entryPoint : String) : Prop :=
  entryPoint ≠ "memory" ∧ c.pages ≤ c.maxPages.getD addressablePages ∧
    c.maxPages.getD addressablePages ≤ addressablePages ∧
    ∀ i ∈ c.instructions, match i with
      | .call op args _ => args.length = op.params.length
      | _ => True

instance (i : Instruction) :
    Decidable (match i with | .call op args _ => args.length = op.params.length | _ => True) := by
  cases i <;> dsimp only <;> infer_instance

instance (c : Contract) (entryPoint : String) : Decidable (c.WellFormed entryPoint) :=
  inferInstanceAs (Decidable (_ ∧ _ ∧ _ ∧ _))

/-- Checks the contract before it is ever run. -/
def load (c : Contract) (settings : Settings) : Except RunError Unit := do
  unless c.WellFormed settings.entryPoint do
    throw .module
  match (c.interface settings.entryPoint).check settings.entryPoint with
  | .ok () => return ()
  | .error e => throw (.interface e)

end Contract

end ContractHost.Guest
