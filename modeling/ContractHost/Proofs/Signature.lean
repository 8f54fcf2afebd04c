import ContractHost.Proofs.Runs
import ContractHost.Tree.NodeTree

/-!
# How an operation is called

The table says how many arguments an operation takes, how much of each it takes, and whether it gives a result.  With
another number of arguments an invocation fails with these two numbers and changes nothing.  With the right number it
serves a request that holds one word for each parameter of its row, in this order: an `i32` argument without its upper
half, an `i64` argument as it is (`Request.words_of_ofArgs?`).

These words are the request (`Request.ofArgs?_words`), so that what an operation does depends on nothing else that it
is called with.  `invoke_signature` says that every invocation of a running execution keeps to the table.
-/

namespace ContractHost

/-- As much of a word as a number of the type holds: the remainder by `2 ^ 32` for an `i32`. -/
def NumType.narrow : NumType → UInt64 → UInt64
  | i32, w => UInt64.ofNat (w.toNat % UInt32.size)
  | i64, w => w

/-- As much of the arguments as the operation takes. -/
def Operation.narrow (op : Operation) (args : List UInt64) : List UInt64 := List.zipWith NumType.narrow op.params args

/-- The number as it lies in memory, the lowest byte first. -/
def NumType.bytes (type : NumType) (n : UInt64) : Bytes :=
  (List.range type.width).map fun i => UInt8.ofNat (n.toNat >>> (8 * i))

/-- What is given of an answer, as it lies in memory: nothing, unless the table names a type for the result. -/
def Operation.given (op : Operation) (answer : Option UInt64) : Bytes :=
  match op.result, answer with
  | some type, some n => type.bytes n
  | _, _ => []

/-- Of an `i32` only the lower half of the word is left. -/
theorem NumType.narrow_eq :
    narrow = fun type w => match type with
      | i32 => w.toUInt32.toUInt64
      | i64 => w := by
  funext type w
  cases type with
  | i32 =>
    have hhalf : w.toUInt32.toUInt64.toNat = w.toNat % UInt32.size := by
      rw [UInt32.toNat_toUInt64, UInt64.toNat_toUInt32]
    dsimp only
    rw [narrow, ← hhalf, UInt64.ofNat_toNat]
  | i64 => rfl

namespace Request

/-- The words that the request holds, in the order of the table. -/
def words : Request → List UInt64
  | getAddress r | getTxOrigin r | getCaller r | getCallValue r | getBlockCoinbase r | getBlockDifficulty r =>
    [r.toUInt64]
  | getExternalCodeSize a => [a.toUInt64]
  | selfDestruct b => [b.toUInt64]
  | getCallDataSize | getCodeSize | getTxGasPrice | getBlockTimestamp | getBlockNumber | getBlockGasLimit => []
  | getBalance a r => [a.toUInt64, r.toUInt64]
  | callDataCopy r o n | codeCopy r o n => [r.toUInt64, o.toUInt64, n.toUInt64]
  | callDataCopy256 r o => [r.toUInt64, o.toUInt64]
  | externalCodeCopy a r o n => [a.toUInt64, r.toUInt64, o.toUInt64, n.toUInt64]
  | getBlockHash n r => [n.toUInt64, r.toUInt64]
  | log d n t t₁ t₂ t₃ t₄ =>
    [d.toUInt64, n.toUInt64, t.toUInt64, t₁.toUInt64, t₂.toUInt64, t₃.toUInt64, t₄.toUInt64]
  | create v d n r => [v.toUInt64, d.toUInt64, n.toUInt64, r.toUInt64]
  | call g a v d n r rn | callCode g a v d n r rn =>
    [g, a.toUInt64, v.toUInt64, d.toUInt64, n.toUInt64, r.toUInt64, rn.toUInt64]
  | callDelegate g a d n r rn => [g, a.toUInt64, d.toUInt64, n.toUInt64, r.toUInt64, rn.toUInt64]
  | storageStore k v => [k.toUInt64, v.toUInt64]
  | storageLoad k r => [k.toUInt64, r.toUInt64]
  | returnData d n => [d.toUInt64, n.toUInt64]

variable {op : Operation} {args args' : List UInt64} {r : Request}

/-- A request holds its arguments and nothing else. -/
theorem words_of_ofArgs? (h : ofArgs? op args = some r) : r.words = op.narrow args := by
  cases op
  all_goals
    simp only [ofArgs?] at h
    split at h
    · cases h
      rw [Operation.narrow, NumType.narrow_eq]
      rfl
    · cases h

/-- The words of a request spell it again. -/
theorem ofArgs?_words (r : Request) : ofArgs? r.operation r.words = some r := by
  cases r <;> simp [operation, words, ofArgs?]

theorem length_words (r : Request) : r.words.length = r.operation.params.length :=
  length_of_ofArgs? r.ofArgs?_words

/-- What is cut off from the arguments makes no difference. -/
theorem ofArgs?_congr (hlength : args'.length = args.length) (hnarrow : op.narrow args' = op.narrow args) :
    ofArgs? op args' = ofArgs? op args := by
  -- Cut down to what is taken of them, the arguments are the words of their request, which spell it again.
  have hrest {l : List UInt64} {r : Request} (hl : ofArgs? op l = some r) : ofArgs? op (op.narrow l) = some r := by
    rw [← words_of_ofArgs? hl, ← operation_of_ofArgs? hl]
    exact ofArgs?_words r
  by_cases harity : args.length = op.params.length
  · obtain ⟨r, hr⟩ := exists_ofArgs? harity
    obtain ⟨r', hr'⟩ := exists_ofArgs? (hlength.trans harity)
    have hsame := hrest hr'
    rw [hnarrow, hrest hr] at hsame
    rw [hr, hr', hsame]
  · rw [ofArgs?_eq_none_iff.2 harity, ofArgs?_eq_none_iff.2 (hlength ▸ harity)]

end Request

namespace Host

variable {τ κ : Type} {α : Type}

/-- Whenever `x` is carried out, it answers with a number if `numeric`, and without if not. -/
def Answers (numeric : Bool) (x : Host τ κ (Option UInt64)) : Prop := ∀ f a g, x f = .ok a g → a.isSome = numeric

variable {numeric : Bool}

theorem answers_pure (a : Option UInt64) : Answers a.isSome (pure a : Host τ κ (Option UInt64)) := by
  intro f b g h
  cases h
  rfl

theorem Answers.bind {x : Host τ κ α} {next : α → Host τ κ (Option UInt64)} (h : ∀ a, Answers numeric (next a)) :
    Answers numeric (x >>= next) := by
  intro f b g hb
  obtain ⟨a, k, -, hnext⟩ := of_bind_ok hb
  exact h a k b g hnext

theorem answers_silently (x : Host τ κ Unit) : Answers false (silently x) := .bind fun _ => answers_pure none

variable [Tree τ] [Kernel κ] {f : Frame τ κ}

/-- Every request is answered as the table says. -/
theorem answers_serve (m : Message) (r : Request) :
    Answers r.operation.result.isSome (serve m r : Host τ κ (Option UInt64)) := by
  cases r with
  | getCallDataSize | getTxGasPrice | getBlockTimestamp | getBlockNumber | getBlockGasLimit => exact answers_pure _
  | getCodeSize => exact .bind fun _ => answers_pure (some _)
  | getExternalCodeSize _ | callCode _ _ _ _ _ _ _ => exact .bind fun _ => .bind fun _ => answers_pure (some _)
  | create _ _ _ _ => exact .bind fun _ => .bind fun _ => answers_pure (some _)
  | call _ _ _ _ _ _ _ | callDelegate _ _ _ _ _ _ =>
    exact .bind fun _ => .bind fun _ => .bind fun _ => answers_pure (some _)
  | _ => exact answers_silently _

/-- An invocation keeps to the table: by the number of its arguments, as much of each as is taken, and by its result.
-/
theorem invoke_signature (hrun : f.progress.status = .running) (m : Message) (op : Operation)
    (args : List UInt64) :
    (args.length ≠ op.params.length →
      invoke m op args f = .error (.arity op op.params.length args.length) f) ∧
    (args.length = op.params.length →
      (∃ r : Request, r.operation = op ∧ r.words = op.narrow args ∧ r.words.length = args.length ∧
        invoke m op args f = trapping (do charge op.cost; serve m r) f) ∧
      (∀ args' : List UInt64, args'.length = args.length → op.narrow args' = op.narrow args →
        invoke m op args' f = invoke m op args f) ∧
      ∀ a g, invoke m op args f = .ok a g → (a.isSome = true ↔ op.result.isSome = true)) := by
  refine ⟨fun hne => invoke_of_arity hrun (Request.ofArgs?_eq_none_iff.2 hne), fun harity => ⟨?_, ?_, ?_⟩⟩
  · obtain ⟨r, hr⟩ := Request.exists_ofArgs? harity
    have hop := Request.operation_of_ofArgs? hr
    have hlength : r.words.length = args.length := by rw [r.length_words, hop, harity]
    exact ⟨r, hop, Request.words_of_ofArgs? hr, hlength, invoke_eq hrun hr⟩
  · intro args' hlength hnarrow
    obtain ⟨r, hr⟩ := Request.exists_ofArgs? harity
    have hr' : Request.ofArgs? op args' = some r := (Request.ofArgs?_congr hlength hnarrow).trans hr
    rw [invoke_eq hrun hr, invoke_eq hrun hr']
  · intro a g h
    obtain ⟨r, hr, hserve⟩ := of_invoke_ok h
    have hanswer := answers_serve m r _ a g hserve
    rw [Request.operation_of_ofArgs? hr] at hanswer
    rw [hanswer]

private def onlooker : Message := { callee := .root, sender := .root, origin := .root, gas := 800 }

/-- The number of a block is an `i64`, and where its hash is to be written an `i32`. -/
theorem invoke_signature_getBlockHash :
    let f : Frame NodeTree Script := .start onlooker {} {} (.zeros 32)
    invoke onlooker .getBlockHash [7, 0x100000000] f = invoke onlooker .getBlockHash [7, 0] f ∧
      failure? (invoke onlooker .getBlockHash [7]) f = some (.arity .getBlockHash 2 1) := by
  intro f
  obtain ⟨-, hright⟩ := invoke_signature (f := f) rfl onlooker .getBlockHash [7, 0]
  obtain ⟨-, hsame, -⟩ := hright rfl
  obtain ⟨hwrong, -⟩ := invoke_signature (f := f) rfl onlooker .getBlockHash [7]
  exact ⟨hsame [7, 0x100000000] rfl (by decide), failure?_error (hwrong (by decide))⟩

end Host

end ContractHost
