import ContractHost.Guest.Contract
import ContractHost.Guest.Linker
import ContractHost.Host.Serve

/-!
# Running a contract

A run executes the instructions one after the other on a frame.  It stops early when the host refuses an operation,
when an operation ends the execution, or when the contract itself fails; an execution that the host has ended has an
outcome however the run stopped.  Fuel is spent only where a contract goes round in circles, which takes all of it.
-/

namespace ContractHost.Guest

/-- Why a run stopped before its end. -/
inductive Stop
  | host (e : OperationError)
  | trapped
  | fuelExhausted

/-- What a run may take up: the pages of its memory, and the fuel. -/
structure Bounds where
  pages : Nat
  fuel : Nat

abbrev Machine (τ κ : Type) := EStateM Stop (Frame τ κ)

variable {τ κ : Type}

/-! ### Memory of the guest -/

def load (offset : UInt32) (length : Nat) : Machine τ κ Bytes := fun f =>
  match f.memory.read? offset length with
  | some b => .ok b f
  | none => .error .trapped f

def store (offset : UInt32) (b : Bytes) : Machine τ κ Unit := fun f =>
  match f.memory.write? offset b with
  | some memory => .ok () { f with memory }
  | none => .error .trapped f

/-- The last `width` base 256 digits of `n`, the least significant first. -/
def littleEndian (width n : Nat) : Bytes := (Bytes.ofNat width n).reverse

/-- Stores a number at the offset, if one is given. -/
def keepAt (keep : Option UInt32) (width n : Nat) : Machine τ κ Unit :=
  match keep with
  | some offset => store offset (littleEndian width n)
  | none => pure ()

/-- The size of the memory in pages. -/
def pageCount : Machine τ κ Nat := fun f => .ok (f.memory.size / pageSize) f

/-- Adds pages to the memory. -/
def addPages (count : Nat) : Machine τ κ Unit := fun f =>
  .ok () { f with memory := f.memory.grow (count * pageSize) }

/-- Goes round in circles for as long as there is fuel. -/
def circle : Nat → Machine τ κ Unit
  | 0 => throw .fuelExhausted
  | fuel + 1 => circle fuel

/-! ### Calls to the host -/

/-- The word that reaches the host for an argument. -/
def passed : NumType → UInt64 → UInt64
  | .i32, a => a.toUInt32.toUInt64
  | .i64, a => a

section

variable [Tree τ] [Kernel κ]

/-- Asks the host; the run goes on only if the execution does.  An operation that ends it stops the run as if it had
been refused. -/
def ask (m : Message) (op : Operation) (args : List UInt64) : Machine τ κ (Option UInt64) := fun f =>
  match Host.invoke m op (List.zipWith passed op.params args) f with
  | .ok result f =>
    if f.progress.status.isTerminal then .error (.host (.ended f.progress.status)) f else .ok result f
  | .error e f => .error (.host e) f

def execute (m : Message) (bounds : Bounds) : Instruction → Machine τ κ Unit
  | .call op args keep => do
    let result ← ask m op args
    match op.result, result with
    | some type, some n => keepAt keep type.width n.toNat
    | _, _ => pure ()
  | .store32 offset value => store offset (littleEndian 4 value.toNat)
  | .store64 offset value => store offset (littleEndian 8 value.toNat)
  | .copyByte target source => do store target (← load source 1)
  | .grow pages keep => do
    let old ← pageCount
    if old + pages.toNat ≤ bounds.pages then
      addPages pages.toNat
      keepAt keep 4 old
    else
      keepAt keep 4 (UInt32.size - 1)
  | .size keep => do keepAt keep 4 (← pageCount)
  | .unreachable | .divideByZero => throw .trapped
  | .spin => circle bounds.fuel

/-- Does `x` the given number of times. -/
def repeated (x : Machine τ κ Unit) : Nat → Machine τ κ Unit
  | 0 => pure ()
  | n + 1 => do
    x
    repeated x n

def step (m : Message) (bounds : Bounds) : Step → Machine τ κ Unit
  | .once i => execute m bounds i
  | .times n body => repeated (body.forM (execute m bounds)) n

def run (m : Message) (bounds : Bounds) (body : List Step) : Machine τ κ Unit := body.forM (step m bounds)

end

/-- The memory in which a contract starts, if it can be set up. -/
def Contract.memory? (c : Contract) (settings : Settings) : Option Memory :=
  if settings.maxMemoryPages < c.pages then none
  else c.data.foldlM (fun memory item => memory.write? item.1 item.2) (Memory.zeros (c.pages * pageSize))

/-- Links the contract to the operations and sets its memory up. -/
def Contract.instantiate? (c : Contract) (settings : Settings) : Option Memory := do
  let linker ← Linker.registerOperations? {}
  guard (∀ j ∈ (c.interface settings.entryPoint).imports, linker.Resolves j)
  c.memory? settings

/-- What a run of the contract may take up. -/
def Contract.bounds (c : Contract) (settings : Settings) : Bounds where
  pages := min (c.maxPages.getD addressablePages) settings.maxMemoryPages
  fuel := settings.fuelLimit.toNat

/-- How a stop is reported that the host is not the cause of. -/
def Stop.toError : Stop → RunError
  | host e => .host e
  | trapped => .trapped
  | fuelExhausted => .fuelExhausted

/-- What a run comes to.  Once the host has ended the execution, nothing else counts. -/
def report : EStateM.Result Stop (Frame τ κ) Unit → Except RunError Outcome
  | .ok () f => .ok f.finish
  | .error stop f => if f.progress.status.isTerminal then .ok f.finish else .error stop.toError

/-- The frame in which a run ended. -/
def lastFrame {α : Type} : EStateM.Result Stop (Frame τ κ) α → Frame τ κ
  | .ok _ f => f
  | .error _ f => f

/-- Runs a loaded contract for a message and tells how it ended, with the last frame. -/
def Contract.execute [Tree τ] [Kernel κ] (c : Contract) (settings : Settings) (m : Message) (tree : τ) (kernel : κ) :
    Except RunError Outcome × Frame τ κ :=
  match c.instantiate? settings with
  | none => (.error .module, .start m tree kernel (.zeros 0))
  | some memory =>
    let last := run m (c.bounds settings) c.body (.start m tree kernel memory)
    (report last, lastFrame last)

end ContractHost.Guest
