import ContractHost.Gas.Meter
import ContractHost.Kernel
import ContractHost.Memory
import ContractHost.Outcome
import ContractHost.Tree

/-!
# The frame of an execution

A frame holds all that an execution may change: its meter, its progress, the memory of its contract, the state tree
and the kernel, and the list of what it asked of the latter two.  `Host` is a computation on a frame that may fail;
what it did before it failed remains.  The steps below are the only ways in which the host touches a frame.
-/

namespace ContractHost

/-- Something asked of the state tree or of the kernel. -/
inductive Effect
  | get (path : Path)
  | hash (path : Path)
  | set (path : Path) (value : Bytes)
  | delete (path : Path)
  | send (message : Message)
  deriving DecidableEq

structure Frame (τ κ : Type) where
  meter : Gas.Meter
  progress : Progress
  memory : Memory
  tree : τ
  kernel : κ
  /-- What was asked so far, oldest first. -/
  effects : Array Effect

/-- The frame in which the execution of a message starts. -/
def Frame.start {τ κ : Type} (m : Message) (tree : τ) (kernel : κ) (memory : Memory) : Frame τ κ :=
  ⟨.ofLimit m.gas, {}, memory, tree, kernel, #[]⟩

/-- The final report on a frame. -/
def Frame.finish {τ κ : Type} (f : Frame τ κ) : Outcome :=
  let p := f.progress.finish f.meter.refunded
  ⟨p.status, p.result, p.logs, f.meter.remaining, f.meter.used⟩

abbrev Host (τ κ : Type) := EStateM OperationError (Frame τ κ)

namespace Host

variable {τ κ : Type}

/-! ### Gas -/

def charge (amount : UInt64) : Host τ κ Unit := fun f =>
  match f.meter.charge? amount with
  | some meter => .ok () { f with meter }
  | none => .error (.trap .outOfGas) f

def restore (amount : UInt64) : Host τ κ Unit := fun f =>
  .ok () { f with meter := f.meter.restore amount }

def refund (amount : UInt64) : Host τ κ Unit := fun f =>
  .ok () { f with meter := f.meter.refund amount }

/-! ### Memory -/

/-- Reads the memory; a range that is not inside it is a fault. -/
def view {α : Type} (read : Memory → Option α) : Host τ κ α := fun f =>
  match read f.memory with
  | some a => .ok a f
  | none => .error (.trap .memoryFault) f

def readBytes (offset length : UInt32) : Host τ κ Bytes := view (·.read? offset length.toNat)

def readAddress (offset : UInt32) : Host τ κ Address := view (·.readVector? 20 offset)

def readWord (offset : UInt32) : Host τ κ Word := view (·.readVector? 32 offset)

def readAmount (offset : UInt32) : Host τ κ Amount := view (·.readAmount? offset)

/-- Changes the memory; a range that is not inside it is a fault. -/
def edit (write : Memory → Option Memory) : Host τ κ Unit := fun f =>
  match write f.memory with
  | some memory => .ok () { f with memory }
  | none => .error (.trap .memoryFault) f

def writeBytes (offset : UInt32) (b : Bytes) : Host τ κ Unit := edit (·.write? offset b)

def writePadded (offset length : UInt32) (b : Bytes) : Host τ κ Unit := edit (·.writePadded? offset length b)

/-! ### Progress -/

def ensureRunning : Host τ κ Unit := fun f =>
  match f.progress.ensureRunning with
  | .ok () => .ok () f
  | .error e => .error e f

/-- Takes the progress one step on. -/
def advance (step : Progress → Except OperationError Progress) : Host τ κ Unit := fun f =>
  match step f.progress with
  | .ok progress => .ok () { f with progress }
  | .error e => .error e f

def halt (output : Option Bytes) : Host τ κ Unit := advance (·.halt output)

def log (entry : LogEntry) : Host τ κ Unit := advance (·.log entry)

def selfDestruct (beneficiary : Address) : Host τ κ Unit := advance (·.selfDestruct beneficiary)

/-- Runs `x`; if it traps, the execution is aborted. -/
def trapping {α : Type} (x : Host τ κ α) : Host τ κ α := fun f =>
  match x f with
  | .ok a f => .ok a f
  | .error (.trap why) f => .error (.trap why) { f with progress := f.progress.trap why }
  | .error e f => .error e f

/-! ### The state tree and the kernel -/

variable [Tree τ] [Kernel κ]

/-- The value at `p`, or why there is none. -/
def fetch (p : Path) : Host τ κ (Except TreeError Bytes) := fun f =>
  let (answer, tree) := Tree.get f.tree p
  .ok answer { f with tree, effects := f.effects.push (.get p) }

/-- The hash of the node at `p`, or why there is none. -/
def fetchHash (p : Path) : Host τ κ (Except TreeError Word) := fun f =>
  let (answer, tree) := Tree.hash f.tree p
  .ok answer { f with tree, effects := f.effects.push (.hash p) }

/-- A tree that refuses to be changed is a failure of the host. -/
def accepted (answer : Except TreeError Unit) (f : Frame τ κ) : EStateM.Result OperationError (Frame τ κ) Unit :=
  match answer with
  | .ok () => .ok () f
  | .error e => .error (.internal e.message) f

def put (p : Path) (value : Bytes) : Host τ κ Unit := fun f =>
  let (answer, tree) := Tree.set f.tree p value
  accepted answer { f with tree, effects := f.effects.push (.set p value) }

def remove (p : Path) : Host τ κ Unit := fun f =>
  let (answer, tree) := Tree.delete f.tree p
  accepted answer { f with tree, effects := f.effects.push (.delete p) }

/-- The response to a message, or why there is none. -/
def send (m : Message) : Host τ κ (Except DeliveryError Response) := fun f =>
  let (answer, kernel) := Kernel.send f.kernel m
  .ok answer { f with kernel, effects := f.effects.push (.send m) }

end Host

end ContractHost
