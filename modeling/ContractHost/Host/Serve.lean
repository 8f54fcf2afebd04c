import ContractHost.Host.Storage
import ContractHost.Host.SubCall
import ContractHost.Request

/-!
# Serving requests

What each request does once its base price is paid, and `invoke`, by which a contract makes a request.  An
operation that traps aborts the execution, and one that comes after the end is refused.
-/

namespace ContractHost.Host

variable {τ κ : Type} [Tree τ] [Kernel κ]

/-- Reads what a call asks for; without an offset for it the value is zero. -/
def readSubCall (gas : UInt64) (address : UInt32) (value : Option UInt32) (data length : UInt32) :
    Host τ κ SubCall := do
  let target ← readAddress address
  let value ← match value with
    | some offset => readAmount offset
    | none => pure 0
  let data ← readBytes data length
  return { gas, target, value, data }

/-- Writes the output of a call as far as there is room for it; nothing is no access to the memory. -/
def writeOutput (offset length : UInt32) (output : Bytes) : Host τ κ Unit :=
  match output.take length.toNat with
  | [] => pure ()
  | b => writeBytes offset b

/-- Copies a window of what `source` gives; a window of length zero does not even ask for it. -/
def copyWindow (source : Host τ κ Bytes) (result offset length : UInt32) : Host τ κ Unit := do
  if length ≠ 0 then
    let b ← source
    writePadded result length (Bytes.window b offset.toUInt64 length.toUInt64)

def record (data length topics : UInt32) (offsets : List UInt32) : Host τ κ Unit := do
  if Gas.maxLogTopics < topics.toUInt64 then
    throw (.trap .invalidArgument)
  charge (Gas.logCost length.toUInt64 topics)
  let data ← if length = 0 then pure [] else readBytes data length
  let topics ← (offsets.take topics.toNat).mapM readWord
  log { data, topics }

/-- The result of an operation that has none. -/
def silently (x : Host τ κ Unit) : Host τ κ (Option UInt64) := do
  x
  return none

/-- Serves a request of the execution of `m`; the result is there if the table says so. -/
def serve (m : Message) : Request → Host τ κ (Option UInt64)
  | .getAddress result => silently (writeBytes result m.executor.toList)
  | .getTxOrigin result => silently (writeBytes result m.signer.toList)
  | .getCaller result => silently (writeBytes result m.caller.toList)
  | .getCallValue result => silently (writeBytes result m.value.toBytes)
  | .getCallDataSize => return some (UInt64.ofNat m.data.length)
  | .callDataCopy result offset length => silently do
    charge (Gas.copyCost length.toUInt64)
    copyWindow (pure m.data) result offset length
  | .callDataCopy256 result offset => silently
    (writePadded result 32 (Bytes.window m.data offset.toUInt64 32))
  | .getTxGasPrice => return some m.gasPrice
  | .getBlockCoinbase result => silently (writeBytes result m.block.coinbase.toList)
  | .getBlockDifficulty result => silently (writeBytes result m.block.difficulty.toList)
  | .getBlockTimestamp => return some m.block.timestamp
  | .getBlockNumber => return some m.block.number
  | .getBlockGasLimit => return some m.block.gasLimit
  | .getBalance address result => silently do
    let target ← readAddress address
    let balance ← lookupBalance m.callee target
    writeBytes result balance.value.toBytes
  | .getCodeSize => return some (UInt64.ofNat (← lookupOwnCode m.callee).value.length)
  | .codeCopy result offset length => silently do
    charge (Gas.copyCost length.toUInt64)
    copyWindow (Reading.value <$> lookupOwnCode m.callee) result offset length
  | .getExternalCodeSize address => do
    let target ← readAddress address
    return some (UInt64.ofNat (← lookupCode m.callee target).value.length)
  | .externalCodeCopy address result offset length => silently do
    charge (Gas.externalCopyCost length.toUInt64)
    let target ← readAddress address
    copyWindow (Reading.value <$> lookupCode m.callee target) result offset length
  | .getBlockHash number result => silently do
    let hash ← lookupBlockHash m.block.number number
    writeBytes result hash.value.toList
  | .storageStore key value => silently do
    let key ← readWord key
    let value ← readWord value
    storeSlot m.callee key value
  | .storageLoad key result => silently do
    let key ← readWord key
    let slot ← lookupSlot m.callee key
    writeBytes result slot.value.toList
  | .create value _ _ result => do
    let (status, address) := created m (← readAmount value)
    writeBytes result address.toList
    return some status.code
  | .call gas address value data length result resultLength => do
    let c ← readSubCall gas address (some value) data length
    let (status, output) ← call m c
    writeOutput result resultLength output
    return some status.code
  | .callCode gas address value data length _ _ => do
    let c ← readSubCall gas address (some value) data length
    let status ← callCode m.callee c
    return some status.code
  | .callDelegate gas address data length result resultLength => do
    let c ← readSubCall gas address none data length
    let (status, output) ← callDelegate m c
    writeOutput result resultLength output
    return some status.code
  | .log data length topics t₁ t₂ t₃ t₄ => silently (record data length topics [t₁, t₂, t₃, t₄])
  | .returnData data length => silently do
    let output ← if length = 0 then pure none else some <$> readBytes data length
    halt output
  | .selfDestruct beneficiary => silently do
    let target ← readAddress beneficiary
    refund Gas.selfDestruct
    selfDestruct target

/-- Carries out an operation for the execution of `m`: the execution must be running and the number of arguments
right, then the base price is charged and the request served. -/
def invoke (m : Message) (op : Operation) (args : List UInt64) : Host τ κ (Option UInt64) := do
  ensureRunning
  match Request.ofArgs? op args with
  | none => throw (.arity op op.params.length args.length)
  | some request => trapping do
    charge op.cost
    serve m request

end ContractHost.Host
