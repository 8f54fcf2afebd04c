import ContractHost.Gas.Schedule

/-!
# Host operations

The 28 operations a contract may ask of its host, and the table that says for each how it is called and what it
costs at least.  The table is what a contract's imports are checked against.
-/

namespace ContractHost

/-- The types of numbers that pass between a contract and its host. -/
inductive NumType
  | i32
  | i64
  deriving DecidableEq

/-- The number of bytes that a number of the type takes in memory. -/
def NumType.width : NumType → Nat
  | i32 => 4
  | i64 => 8

inductive Operation
  | getAddress
  | getBalance
  | getTxOrigin
  | getCaller
  | getCallValue
  | getCallDataSize
  | callDataCopy
  | callDataCopy256
  | getCodeSize
  | codeCopy
  | getExternalCodeSize
  | externalCodeCopy
  | getTxGasPrice
  | getBlockHash
  | getBlockCoinbase
  | getBlockTimestamp
  | getBlockNumber
  | getBlockDifficulty
  | getBlockGasLimit
  | log
  | create
  | call
  | callCode
  | callDelegate
  | storageStore
  | storageLoad
  | returnData
  | selfDestruct
  deriving DecidableEq

namespace Operation

/-- What the table says of one operation. -/
structure Row where
  name : String
  /-- The gas charged before anything else. -/
  cost : UInt64
  params : List NumType
  result : Option NumType
  /-- Whether the operation may have to wait for the state tree or for another contract. -/
  suspends : Bool
  deriving DecidableEq

def row : Operation → Row
  | getAddress => ⟨"getAddress", Gas.base, [.i32], none, false⟩
  | getBalance => ⟨"getBalance", Gas.accountLookup, [.i32, .i32], none, true⟩
  | getTxOrigin => ⟨"getTxOrigin", Gas.base, [.i32], none, false⟩
  | getCaller => ⟨"getCaller", Gas.base, [.i32], none, false⟩
  | getCallValue => ⟨"getCallValue", Gas.base, [.i32], none, false⟩
  | getCallDataSize => ⟨"getCallDataSize", Gas.base, [], some .i32, false⟩
  | callDataCopy => ⟨"callDataCopy", 0, [.i32, .i32, .i32], none, false⟩
  | callDataCopy256 => ⟨"callDataCopy256", Gas.copyWord, [.i32, .i32], none, false⟩
  | getCodeSize => ⟨"getCodeSize", Gas.base, [], some .i32, true⟩
  | codeCopy => ⟨"codeCopy", 0, [.i32, .i32, .i32], none, true⟩
  | getExternalCodeSize => ⟨"getExternalCodeSize", Gas.accountLookup, [.i32], some .i32, true⟩
  | externalCodeCopy => ⟨"externalCodeCopy", 0, [.i32, .i32, .i32, .i32], none, true⟩
  | getTxGasPrice => ⟨"getTxGasPrice", Gas.base, [], some .i64, false⟩
  | getBlockHash => ⟨"getBlockHash", Gas.accountLookup, [.i64, .i32], none, true⟩
  | getBlockCoinbase => ⟨"getBlockCoinbase", Gas.base, [.i32], none, false⟩
  | getBlockTimestamp => ⟨"getBlockTimestamp", Gas.base, [], some .i64, false⟩
  | getBlockNumber => ⟨"getBlockNumber", Gas.base, [], some .i64, false⟩
  | getBlockDifficulty => ⟨"getBlockDifficulty", Gas.base, [.i32], none, false⟩
  | getBlockGasLimit => ⟨"getBlockGasLimit", Gas.base, [], some .i64, false⟩
  | log => ⟨"log", 0, [.i32, .i32, .i32, .i32, .i32, .i32, .i32], none, false⟩
  | create => ⟨"create", Gas.create, [.i32, .i32, .i32, .i32], some .i32, true⟩
  | call => ⟨"call", Gas.call, [.i64, .i32, .i32, .i32, .i32, .i32, .i32], some .i32, true⟩
  | callCode => ⟨"callCode", Gas.call, [.i64, .i32, .i32, .i32, .i32, .i32, .i32], some .i32, true⟩
  | callDelegate => ⟨"callDelegate", Gas.call, [.i64, .i32, .i32, .i32, .i32, .i32], some .i32, true⟩
  | storageStore => ⟨"storageStore", Gas.storageStore, [.i32, .i32], none, true⟩
  | storageLoad => ⟨"storageLoad", Gas.storageLoad, [.i32, .i32], none, true⟩
  | returnData => ⟨"return", Gas.base, [.i32, .i32], none, false⟩
  | selfDestruct => ⟨"selfDestruct", Gas.base, [.i32], none, false⟩

def name (op : Operation) : String := op.row.name

def cost (op : Operation) : UInt64 := op.row.cost

def params (op : Operation) : List NumType := op.row.params

def result (op : Operation) : Option NumType := op.row.result

def suspends (op : Operation) : Bool := op.row.suspends

/-- All operations, in the order of the table. -/
def all : List Operation :=
  [getAddress, getBalance, getTxOrigin, getCaller, getCallValue, getCallDataSize, callDataCopy, callDataCopy256,
    getCodeSize, codeCopy, getExternalCodeSize, externalCodeCopy, getTxGasPrice, getBlockHash, getBlockCoinbase,
    getBlockTimestamp, getBlockNumber, getBlockDifficulty, getBlockGasLimit, log, create, call, callCode,
    callDelegate, storageStore, storageLoad, returnData, selfDestruct]

/-- The operation of that name. -/
def ofName? (name : String) : Option Operation := all.find? fun op => op.name = name

theorem mem_all (op : Operation) : op ∈ all := by cases op <;> decide

end Operation

end ContractHost
