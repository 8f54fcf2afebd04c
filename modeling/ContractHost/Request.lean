import ContractHost.Operation

/-!
# Requests

A request is an operation together with its arguments.  Arguments arrive as words of 64 bits, one for each parameter
of the table's row; an `i32` parameter takes the lower half of its word.  `ofArgs?_eq_none_iff` says that the number
of words is all that is checked.
-/

namespace ContractHost

/-- One constructor for each operation.  Offsets and lengths refer to the memory of the contract. -/
inductive Request
  | getAddress (result : UInt32)
  | getBalance (address result : UInt32)
  | getTxOrigin (result : UInt32)
  | getCaller (result : UInt32)
  | getCallValue (result : UInt32)
  | getCallDataSize
  | callDataCopy (result offset length : UInt32)
  | callDataCopy256 (result offset : UInt32)
  | getCodeSize
  | codeCopy (result offset length : UInt32)
  | getExternalCodeSize (address : UInt32)
  | externalCodeCopy (address result offset length : UInt32)
  | getTxGasPrice
  | getBlockHash (number : Int64) (result : UInt32)
  | getBlockCoinbase (result : UInt32)
  | getBlockTimestamp
  | getBlockNumber
  | getBlockDifficulty (result : UInt32)
  | getBlockGasLimit
  | log (data length topics topic₁ topic₂ topic₃ topic₄ : UInt32)
  | create (value data length result : UInt32)
  | call (gas : UInt64) (address value data length result resultLength : UInt32)
  | callCode (gas : UInt64) (address value data length result resultLength : UInt32)
  | callDelegate (gas : UInt64) (address data length result resultLength : UInt32)
  | storageStore (key value : UInt32)
  | storageLoad (key result : UInt32)
  | returnData (data length : UInt32)
  | selfDestruct (beneficiary : UInt32)

namespace Request

/-- The request that the words spell for an operation, if there is one word for each parameter. -/
def ofArgs? (op : Operation) (args : List UInt64) : Option Request :=
  match op with
  | .getAddress => if let [r] := args then some (.getAddress r.toUInt32) else none
  | .getBalance => if let [a, r] := args then some (.getBalance a.toUInt32 r.toUInt32) else none
  | .getTxOrigin => if let [r] := args then some (.getTxOrigin r.toUInt32) else none
  | .getCaller => if let [r] := args then some (.getCaller r.toUInt32) else none
  | .getCallValue => if let [r] := args then some (.getCallValue r.toUInt32) else none
  | .getCallDataSize => if let [] := args then some .getCallDataSize else none
  | .callDataCopy => if let [r, o, n] := args then some (.callDataCopy r.toUInt32 o.toUInt32 n.toUInt32) else none
  | .callDataCopy256 => if let [r, o] := args then some (.callDataCopy256 r.toUInt32 o.toUInt32) else none
  | .getCodeSize => if let [] := args then some .getCodeSize else none
  | .codeCopy => if let [r, o, n] := args then some (.codeCopy r.toUInt32 o.toUInt32 n.toUInt32) else none
  | .getExternalCodeSize => if let [a] := args then some (.getExternalCodeSize a.toUInt32) else none
  | .externalCodeCopy =>
    if let [a, r, o, n] := args then
      some (.externalCodeCopy a.toUInt32 r.toUInt32 o.toUInt32 n.toUInt32)
    else none
  | .getTxGasPrice => if let [] := args then some .getTxGasPrice else none
  | .getBlockHash => if let [n, r] := args then some (.getBlockHash n.toInt64 r.toUInt32) else none
  | .getBlockCoinbase => if let [r] := args then some (.getBlockCoinbase r.toUInt32) else none
  | .getBlockTimestamp => if let [] := args then some .getBlockTimestamp else none
  | .getBlockNumber => if let [] := args then some .getBlockNumber else none
  | .getBlockDifficulty => if let [r] := args then some (.getBlockDifficulty r.toUInt32) else none
  | .getBlockGasLimit => if let [] := args then some .getBlockGasLimit else none
  | .log =>
    if let [d, n, t, t₁, t₂, t₃, t₄] := args then
      some (.log d.toUInt32 n.toUInt32 t.toUInt32 t₁.toUInt32 t₂.toUInt32 t₃.toUInt32 t₄.toUInt32)
    else none
  | .create =>
    if let [v, d, n, r] := args then
      some (.create v.toUInt32 d.toUInt32 n.toUInt32 r.toUInt32)
    else none
  | .call =>
    if let [g, a, v, d, n, r, rn] := args then
      some (.call g a.toUInt32 v.toUInt32 d.toUInt32 n.toUInt32 r.toUInt32 rn.toUInt32)
    else none
  | .callCode =>
    if let [g, a, v, d, n, r, rn] := args then
      some (.callCode g a.toUInt32 v.toUInt32 d.toUInt32 n.toUInt32 r.toUInt32 rn.toUInt32)
    else none
  | .callDelegate =>
    if let [g, a, d, n, r, rn] := args then
      some (.callDelegate g a.toUInt32 d.toUInt32 n.toUInt32 r.toUInt32 rn.toUInt32)
    else none
  | .storageStore => if let [k, v] := args then some (.storageStore k.toUInt32 v.toUInt32) else none
  | .storageLoad => if let [k, r] := args then some (.storageLoad k.toUInt32 r.toUInt32) else none
  | .returnData => if let [d, n] := args then some (.returnData d.toUInt32 n.toUInt32) else none
  | .selfDestruct => if let [b] := args then some (.selfDestruct b.toUInt32) else none

private theorem exists_cons_of_length {l : List UInt64} {n : Nat} (h : l.length = n + 1) :
    ∃ a r, l = a :: r ∧ r.length = n := by
  cases l with
  | nil => cases h
  | cons a r => exact ⟨a, r, rfl, Nat.succ.inj h⟩

theorem ofArgs?_eq_none_iff {op : Operation} {args : List UInt64} :
    ofArgs? op args = none ↔ args.length ≠ op.params.length := by
  cases op
  all_goals
    simp only [ofArgs?, Operation.params, Operation.row]
    split
    · simp
    · rename_i h
      refine iff_of_true rfl fun hlen => ?_
      repeat
        obtain ⟨_, _, rfl, hr⟩ := exists_cons_of_length hlen
        replace hlen := hr
        clear hr
      cases List.eq_nil_of_length_eq_zero hlen
      apply h
      rfl

/-- The operation that is requested. -/
def operation : Request → Operation
  | getAddress .. => .getAddress
  | getBalance .. => .getBalance
  | getTxOrigin .. => .getTxOrigin
  | getCaller .. => .getCaller
  | getCallValue .. => .getCallValue
  | getCallDataSize => .getCallDataSize
  | callDataCopy .. => .callDataCopy
  | callDataCopy256 .. => .callDataCopy256
  | getCodeSize => .getCodeSize
  | codeCopy .. => .codeCopy
  | getExternalCodeSize .. => .getExternalCodeSize
  | externalCodeCopy .. => .externalCodeCopy
  | getTxGasPrice => .getTxGasPrice
  | getBlockHash .. => .getBlockHash
  | getBlockCoinbase .. => .getBlockCoinbase
  | getBlockTimestamp => .getBlockTimestamp
  | getBlockNumber => .getBlockNumber
  | getBlockDifficulty .. => .getBlockDifficulty
  | getBlockGasLimit => .getBlockGasLimit
  | log .. => .log
  | create .. => .create
  | call .. => .call
  | callCode .. => .callCode
  | callDelegate .. => .callDelegate
  | storageStore .. => .storageStore
  | storageLoad .. => .storageLoad
  | returnData .. => .returnData
  | selfDestruct .. => .selfDestruct

theorem operation_of_ofArgs? {op : Operation} {args : List UInt64} {r : Request} (h : ofArgs? op args = some r) :
    r.operation = op := by
  cases op
  all_goals
    simp only [ofArgs?] at h
    split at h
    · cases h
      rfl
    · cases h

theorem length_of_ofArgs? {op : Operation} {args : List UInt64} {r : Request} (h : ofArgs? op args = some r) :
    args.length = op.params.length := by
  refine Decidable.byContradiction fun hne => ?_
  rw [ofArgs?_eq_none_iff.2 hne] at h
  cases h

theorem exists_ofArgs? {op : Operation} {args : List UInt64} (h : args.length = op.params.length) :
    ∃ r, ofArgs? op args = some r :=
  Option.ne_none_iff_exists'.1 fun hnone => ofArgs?_eq_none_iff.1 hnone h

end Request

end ContractHost
