import ContractHost.Json.Parser
import ContractHost.Message
import ContractHost.Outcome

/-!
# The wire form

How the values that cross process boundaries are written as JSON.  A record is an object of its fields, or the array
of them in order; unknown fields are ignored and no field may occur twice.  A choice is the name of its case, or an
object of one field that holds the case's content under its name.
-/

namespace ContractHost

class Wire (α : Type) where
  encode : α → Json
  decode? : Json → Option α

namespace Wire

variable {α : Type}

/-- The text of a value. -/
def write [Wire α] (a : α) : String := String.ofList (encode a).render

/-- The value that a text stands for. -/
def read? (α : Type) [Wire α] (s : String) : Option α := (Json.parse? s.toList).bind decode?

/-! ### Numbers, texts and lists -/

/-- A natural number below `bound`. -/
def natural? (bound : Nat) : Json → Option Nat
  | .natural n => if n < bound then some n else none
  | _ => none

instance : Wire UInt8 where
  encode n := .natural n.toNat
  decode? j := (natural? UInt8.size j).map UInt8.ofNat

instance : Wire UInt64 where
  encode n := .natural n.toNat
  decode? j := (natural? UInt64.size j).map UInt64.ofNat

instance : Wire Amount where
  encode v := .natural v.toNat
  decode? j := (natural? Amount.size j).map (BitVec.ofNat 128)

instance : Wire Bool where
  encode := .bool
  decode?
    | .bool b => some b
    | _ => none

instance : Wire String where
  encode := .string
  decode?
    | .string s => some s
    | _ => none

instance [Wire α] : Wire (List α) where
  encode as := .array (as.map encode)
  decode?
    | .array items => items.mapM decode?
    | _ => none

instance {n : Nat} : Wire (Vector UInt8 n) where
  encode v := encode v.toList
  decode? j := (decode? j : Option Bytes).bind (Bytes.toVector? n)

instance [Wire α] : Wire (Option α) where
  encode
    | some a => encode a
    | none => .null
  decode?
    | .null => some none
    | j => (decode? j).map some

/-! ### Records and choices -/

/-- What stands for each of the named fields of a record; in an object a field may be missing. -/
def fields? (names : List String) : Json → Option (List (Option Json))
  | .object fields =>
    if ((fields.map Prod.fst).filter (· ∈ names)).Nodup then some (names.map (List.lookup · fields)) else none
  | .array items => if items.length = names.length then some (items.map some) else none
  | _ => none

/-- The value of a field that must be there. -/
def required? [Wire α] (field : Option Json) : Option α := field.bind decode?

/-- The value of a field that counts as nothing when it is missing. -/
def optional? [Wire α] : Option Json → Option (Option α)
  | none => some none
  | some j => decode? j

/-- The name of a case and its content, if it has any. -/
def case? : Json → Option (String × Option Json)
  | .string name => some (name, none)
  | .object [(name, j)] => some (name, some j)
  | _ => none

/-- The case of a choice between names; one may also be written with `null` as its content. -/
def name? (cases : List (String × α)) (j : Json) : Option α :=
  match case? j with
  | some (name, none) | some (name, some .null) => cases.lookup name
  | _ => none

instance : Wire Segment where
  encode
    | .root => .string "Root"
    | .parent => .string "Parent"
    | .key name => .object [("Key", encode name)]
  decode? j :=
    match case? j with
    | some ("Key", some j) => (decode? j).map .key
    | _ => name? [("Root", .root), ("Parent", .parent)] j

instance : Wire Path where
  encode p := encode p.segments
  decode? j := (decode? j).map .mk

instance : Wire Block where
  encode b := .object [("number", encode b.number), ("timestamp", encode b.timestamp),
    ("difficulty", encode b.difficulty), ("gas_limit", encode b.gasLimit), ("coinbase", encode b.coinbase)]
  decode? j := do
    match ← fields? ["number", "timestamp", "difficulty", "gas_limit", "coinbase"] j with
    | [number, timestamp, difficulty, gasLimit, coinbase] =>
      return {
        number := ← required? number
        timestamp := ← required? timestamp
        difficulty := ← required? difficulty
        gasLimit := ← required? gasLimit
        coinbase := ← required? coinbase }
    | _ => none

instance : Wire MessageKind where
  encode
    | .call => .string "Call"
    | .delegate => .string "Delegate"
  decode? := name? [("Call", .call), ("Delegate", .delegate)]

instance : Wire Message where
  encode m := .object [("to", encode m.callee), ("from", encode m.sender), ("origin", encode m.origin),
    ("value", encode m.value), ("data", encode m.data), ("gas", encode m.gas), ("gas_price", encode m.gasPrice),
    ("nonce", encode m.nonce), ("block", encode m.block), ("kind", encode m.kind), ("sync", encode m.sync)]
  decode? j := do
    match ← fields? ["to", "from", "origin", "value", "data", "gas", "gas_price", "nonce", "block", "kind", "sync"] j
      with
    | [callee, sender, origin, value, data, gas, gasPrice, nonce, block, kind, sync] =>
      return {
        callee := ← required? callee
        sender := ← required? sender
        origin := ← required? origin
        value := ← required? value
        data := ← required? data
        gas := ← required? gas
        gasPrice := ← required? gasPrice
        nonce := ← required? nonce
        block := ← required? block
        kind := ← required? kind
        sync := ← required? sync }
    | _ => none

instance : Wire Response where
  encode r := .object [("exception", encode r.exception), ("return_value", encode r.output)]
  decode? j := do
    match ← fields? ["exception", "return_value"] j with
    | [exception, output] => return { exception := ← required? exception, output := ← required? output }
    | _ => none

instance : Wire LogEntry where
  encode e := .object [("data", encode e.data), ("topics", encode e.topics)]
  decode? j := do
    match ← fields? ["data", "topics"] j with
    | [data, topics] => return { data := ← required? data, topics := ← required? topics }
    | _ => none

instance : Wire Result where
  encode r := .object [("return_value", encode r.output), ("gas_refund", encode r.gasRefund),
    ("self_destruct", encode r.selfDestruct), ("self_destruct_address", encode r.beneficiary),
    ("exception", encode r.exception)]
  decode? j := do
    match ← fields? ["return_value", "gas_refund", "self_destruct", "self_destruct_address", "exception"] j with
    | [output, gasRefund, selfDestruct, beneficiary, exception] =>
      return {
        output := ← required? output
        gasRefund := ← required? gasRefund
        selfDestruct := ← required? selfDestruct
        beneficiary := ← optional? beneficiary
        exception := ← required? exception }
    | _ => none

instance : Wire Halt where
  encode
    | .returned => .string "Return"
    | .selfDestructed => .string "SelfDestruct"
  decode? := name? [("Return", .returned), ("SelfDestruct", .selfDestructed)]

instance : Wire Trap where
  encode
    | .outOfGas => .string "OutOfGas"
    | .memoryFault => .string "MemoryFault"
    | .invalidArgument => .string "InvalidArgument"
  decode? := name? [("OutOfGas", .outOfGas), ("MemoryFault", .memoryFault), ("InvalidArgument", .invalidArgument)]

instance : Wire Status where
  encode
    | .running => .string "Running"
    | .halted how => .object [("Halted", encode how)]
    | .trapped why => .object [("Trapped", encode why)]
  decode? j :=
    match case? j with
    | some ("Halted", some j) => (decode? j).map .halted
    | some ("Trapped", some j) => (decode? j).map .trapped
    | _ => name? [("Running", .running)] j

instance : Wire Outcome where
  encode o := .object [("status", encode o.status), ("result", encode o.result), ("logs", encode o.logs),
    ("gas_left", encode o.gasLeft), ("gas_used", encode o.gasUsed)]
  decode? j := do
    match ← fields? ["status", "result", "logs", "gas_left", "gas_used"] j with
    | [status, result, logs, gasLeft, gasUsed] =>
      return {
        status := ← required? status
        result := ← required? result
        logs := ← required? logs
        gasLeft := ← required? gasLeft
        gasUsed := ← required? gasUsed }
    | _ => none

end Wire

end ContractHost
