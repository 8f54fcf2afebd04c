import ContractHost.Proofs.Steps

/-!
# The shape of the operations

Every operation goes about its work in one order.  First it prepares: it pays, reads the memory and asks the state
tree or the kernel at most once, and none of this can be seen by the contract (`Prepares`).  Then it commits, by at
most one of a few acts that change the memory, the progress or the tree (`Commit`), and only reports afterwards
(`Transacts`).  What an operation may ask and how it may commit depends on the request and on the memory that it
finds (`Request.Asks`, `Request.Commits`).

`transacts_serve` derives this shape for each of the 28 operations.  What holds of every operation is then proved by
induction on the derivation and not by going through the operations again.
-/

namespace ContractHost

/-- Reads what a call asks for out of the memory; without an offset for it the value is zero. -/
def Memory.subCall? (M : Memory) (gas : UInt64) (address : UInt32) (value : Option UInt32) (data length : UInt32) :
    Option SubCall := do
  let target ← M.readVector? 20 address
  let value ← match value with
    | some offset => M.readAmount? offset
    | none => some 0
  let data ← M.read? data length.toNat
  return { gas, target, value, data }

theorem Memory.gas_of_subCall? {M : Memory} {gas : UInt64} {address : UInt32} {value : Option UInt32}
    {data length : UInt32} {c : SubCall} (h : M.subCall? gas address value data length = some c) : c.gas = gas := by
  cases value
  all_goals
    simp only [Memory.subCall?, Option.bind_eq_bind, Option.bind_eq_some_iff] at h
    obtain ⟨target, -, amount, -, bytes, -, h⟩ := h
    cases h
    rfl

theorem Memory.target_of_subCall? {M : Memory} {gas : UInt64} {address : UInt32} {value : Option UInt32}
    {data length : UInt32} {c : SubCall} (h : M.subCall? gas address value data length = some c) :
    M.readVector? 20 address = some c.target := by
  cases value
  all_goals
    simp only [Memory.subCall?, Option.bind_eq_bind, Option.bind_eq_some_iff] at h
    obtain ⟨target, htarget, amount, -, bytes, -, h⟩ := h
    cases h
    exact htarget

/-- The acts by which an operation changes what can be seen. -/
inductive Commit
  | write (offset : UInt32) (bytes : Bytes)
  /-- Writes exactly `length` bytes, with zeros behind those given. -/
  | fill (offset length : UInt32) (bytes : Bytes)
  | log (entry : LogEntry)
  | halt (output : Option Bytes)
  /-- Halts with a refund and leaves the balance to the beneficiary. -/
  | destroy (beneficiary : Address)
  | put (path : Path) (value : Bytes)
  | remove (path : Path)
  /-- Removes with a refund. -/
  | clear (path : Path)

namespace Host

variable {τ κ : Type} {α β : Type}

/-- Whether `a` can come out of `x` on a frame with the memory `M`. -/
def Yields (M : Memory) (x : Host τ κ α) (a : α) : Prop := ∃ f g, f.memory = M ∧ x f = .ok a g

theorem Yields.view {M : Memory} {read : Memory → Option α} {a : α} (h : Yields (τ := τ) (κ := κ) M (view read) a) :
    read M = some a := by
  obtain ⟨f, g, rfl, h⟩ := h
  exact (of_view_ok h).1

theorem view_some (a : α) : view (fun _ => some a) = (pure a : Host τ κ α) := rfl

theorem view_bind (read : Memory → Option α) (next : α → Memory → Option β) :
    (view read >>= fun a => view (next a)) = (view fun M => read M >>= fun a => next a M : Host τ κ β) := by
  funext f
  cases h : read f.memory with
  | none => rw [bind_error (view_of_none h), view_of_none (by rw [h]; rfl)]
  | some a =>
    rw [bind_ok (view_of_some h)]
    simp only [view, h, Option.bind_eq_bind, Option.bind_some]

theorem readSubCall_eq (gas : UInt64) (address : UInt32) (value : Option UInt32) (data length : UInt32) :
    readSubCall gas address value data length =
      (view fun M => M.subCall? gas address value data length : Host τ κ SubCall) := by
  unfold readSubCall Memory.subCall? readAddress readAmount readBytes
  cases value with
  | none =>
    simp only [← view_some, view_bind]
    rfl
  | some offset =>
    simp only [← view_some, view_bind]
    rfl

theorem Yields.readSubCall {gas : UInt64} {address : UInt32} {value : Option UInt32} {data length : UInt32}
    {M : Memory} {c : SubCall} (h : Yields (τ := τ) (κ := κ) M (Host.readSubCall gas address value data length) c) :
    M.subCall? gas address value data length = some c := by
  rw [readSubCall_eq] at h
  exact h.view

variable [Tree τ] [Kernel κ]

/-- Computations on a frame with the memory `M` that pay, only if `pays`, and ask at most the given number of
questions, all of them in `P`.  Nothing of this changes what the contract can see. -/
inductive Prepares (M : Memory) (pays : Prop) (P : Effect → Prop) : Nat → {α : Type} → Host τ κ α → Prop
  | pure {α : Type} (a : α) : Prepares M pays P 0 (Pure.pure a)
  | invalid {α : Type} : Prepares M pays P 0 (throw (.trap .invalidArgument) : Host τ κ α)
  | charge (amount : UInt64) (h : pays) : Prepares M pays P 0 (charge amount)
  | payCall (c : SubCall) (h : pays) : Prepares M pays P 0 (payCall c)
  | view {α : Type} (read : Memory → Option α) : Prepares M pays P 0 (view read)
  | fetch {p : Path} (h : P (.get p)) : Prepares M pays P 1 (fetch p)
  | fetchHash {p : Path} (h : P (.hash p)) : Prepares M pays P 1 (fetchHash p)
  | send {m : Message} (h : P (.send m)) : Prepares M pays P 1 (send m)
  | bind {n k l : Nat} {α β : Type} {x : Host τ κ α} {g : α → Host τ κ β} (hx : Prepares M pays P n x)
      (hg : ∀ a, Yields M x a → Prepares M pays P k (g a)) (h : l = n + k := by rfl) :
      Prepares M pays P l (x >>= g)
  | mono {n l : Nat} {α : Type} {x : Host τ κ α} (hx : Prepares M pays P n x) (h : n ≤ l) : Prepares M pays P l x

end Host

variable {τ κ : Type} [Tree τ] [Kernel κ]

/-- What the act does to a frame. -/
def Commit.run : Commit → Host τ κ Unit
  | write offset b => Host.writeBytes offset b
  | fill offset length b => Host.writePadded offset length b
  | log entry => Host.log entry
  | halt output => Host.halt output
  | destroy beneficiary => do
    Host.refund Gas.selfDestruct
    Host.selfDestruct beneficiary
  | put p value => Host.put p value
  | remove p => Host.remove p
  | clear p => do
    Host.refund Gas.slotClearing
    Host.remove p

/-- Computations that prepare as described by `Prepares`, then commit by at most one act in `C`, and report. -/
inductive Host.Transacts (M : Memory) (pays : Prop) (P : Effect → Prop) (C : Commit → Prop) :
    Nat → {α : Type} → Host τ κ α → Prop
  | prepares {n : Nat} {α : Type} {x : Host τ κ α} (hx : Prepares M pays P n x) : Transacts M pays P C n x
  | commit (c : Commit) (h : C c) : Transacts M pays P C 0 c.run
  | bind {n k l : Nat} {α β : Type} {x : Host τ κ α} {g : α → Host τ κ β} (hx : Prepares M pays P n x)
      (hg : ∀ a, Yields M x a → Transacts M pays P C k (g a)) (h : l = n + k := by rfl) :
      Transacts M pays P C l (x >>= g)
  | report {n : Nat} {α β : Type} {x : Host τ κ α} (hx : Transacts M pays P C n x) (b : α → β) :
      Transacts M pays P C n (x >>= fun a => Pure.pure (b a))
  | mono {n l : Nat} {α : Type} {x : Host τ κ α} (hx : Transacts M pays P C n x) (h : n ≤ l) :
      Transacts M pays P C l x

namespace Request

/-- Whether there is a price to pay beyond the base price. -/
def Surcharged : Request → Prop
  | callDataCopy .. | codeCopy .. | externalCodeCopy .. | log .. | storageStore .. | call .. | callCode .. => True
  | _ => False

/-- What the request may ask, in the execution of `m` and with the memory `M`. -/
def Asks (m : Message) (M : Memory) : Request → Effect → Prop
  | getBalance address _, e =>
    ∃ target, M.readVector? 20 address = some target ∧ e = .get (.balanceOf (m.callee.sibling target))
  | getCodeSize, e | codeCopy .., e => e = .get m.callee
  | getExternalCodeSize address, e | externalCodeCopy address .., e =>
    ∃ target, M.readVector? 20 address = some target ∧ e = .get (.codeOf (m.callee.sibling target))
  | callCode gas address value data length _ _, e =>
    ∃ c, M.subCall? gas address (some value) data length = some c ∧ e = .get (.codeOf (m.callee.sibling c.target))
  | getBlockHash number _, e =>
    Host.InHashWindow m.block.number number ∧ e = .hash (.block number.toUInt64)
  | storageStore key _, e | storageLoad key _, e =>
    ∃ k, M.readVector? 32 key = some k ∧ e = .get (m.callee.slot k)
  | call gas address value data length _ _, e =>
    ∃ c, M.subCall? gas address (some value) data length = some c ∧ e = .send (c.message m)
  | callDelegate gas address data length _ _, e =>
    ∃ c, M.subCall? gas address none data length = some c ∧ e = .send (c.delegateMessage m)
  | _, _ => False

/-- How the request may commit, in the execution of `m` and with the memory `M`. -/
def Commits (m : Message) (M : Memory) : Request → Commit → Prop
  | getAddress result, c | getTxOrigin result, c | getCaller result, c | getBlockCoinbase result, c
  | create _ _ _ result, c => ∃ b, b.length = 20 ∧ c = .write result b
  | getCallValue result, c | getBalance _ result, c => ∃ b, b.length = 16 ∧ c = .write result b
  | getBlockHash _ result, c | getBlockDifficulty result, c | storageLoad _ result, c =>
    ∃ b, b.length = 32 ∧ c = .write result b
  | callDataCopy256 result _, c => ∃ b, c = .fill result 32 b
  | callDataCopy result _ length, c | codeCopy result _ length, c | externalCodeCopy _ result _ length, c =>
    length ≠ 0 ∧ ∃ b, c = .fill result length b
  | call _ _ _ _ _ result length, c | callDelegate _ _ _ _ result length, c =>
    ∃ b, b ≠ [] ∧ b.length ≤ length.toNat ∧ c = .write result b
  | storageStore key value, c =>
    ∃ k v : Word, M.readVector? 32 key = some k ∧ M.readVector? 32 value = some v ∧
      if Word.isZero v then c = .remove (m.callee.slot k) ∨ c = .clear (m.callee.slot k)
      else c = .put (m.callee.slot k) v.toList
  | log .., c => ∃ entry, c = .log entry
  | returnData .., c => ∃ output, c = .halt output
  | selfDestruct beneficiary, c => ∃ target, M.readVector? 20 beneficiary = some target ∧ c = .destroy target
  | _, _ => False

end Request

namespace Host

open Request (Surcharged Asks Commits)

variable {α β : Type} {M : Memory} {pays : Prop} {P : Effect → Prop} {C : Commit → Prop} {n : Nat}

/-! ### Parts of operations -/

theorem Prepares.readSubCall (gas : UInt64) (address : UInt32) (value : Option UInt32) (data length : UInt32) :
    Prepares M pays P 0 (readSubCall gas address value data length : Host τ κ SubCall) := by
  rw [readSubCall_eq]
  exact .view _

theorem Prepares.mapM {γ : Type} {step : γ → Host τ κ α} (h : ∀ c, Prepares M pays P 0 (step c)) (l : List γ) :
    Prepares M pays P 0 (l.mapM step) := by
  induction l with
  | nil => exact .pure _
  | cons c l ih =>
    rw [List.mapM_cons]
    exact .bind (h c) fun _ _ => .bind ih fun _ _ => .pure _

theorem Prepares.map {x : Host τ κ α} (h : Prepares M pays P n x) (g : α → β) : Prepares M pays P n (g <$> x) :=
  .bind h fun _ _ => .pure _

theorem Prepares.lookupBalance {self : Path} {target : Address} (h : P (.get (.balanceOf (self.sibling target)))) :
    Prepares M pays P 1 (lookupBalance self target : Host τ κ (Reading Amount)) :=
  .bind (.fetch h) fun _ _ => .pure _

theorem Prepares.lookupOwnCode {self : Path} (h : P (.get self)) :
    Prepares M pays P 1 (lookupOwnCode self : Host τ κ (Reading Bytes)) :=
  .bind (.fetch h) fun _ _ => .pure _

theorem Prepares.lookupCode {self : Path} {target : Address} (h : P (.get (.codeOf (self.sibling target)))) :
    Prepares M pays P 1 (lookupCode self target : Host τ κ (Reading Bytes)) :=
  .bind (.fetch h) fun _ _ => .pure _

theorem Prepares.lookupSlot {self : Path} {key : Word} (h : P (.get (self.slot key))) :
    Prepares M pays P 1 (lookupSlot self key : Host τ κ (Reading Word)) :=
  .bind (.fetch h) fun _ _ => .pure _

theorem Prepares.lookupBlockHash {current : UInt64} {number : Int64}
    (h : InHashWindow current number → P (.hash (.block number.toUInt64))) :
    Prepares M pays P 1 (lookupBlockHash current number : Host τ κ (Reading Word)) := by
  unfold Host.lookupBlockHash
  split
  · rename_i hwindow
    exact .bind (.fetchHash (h hwindow)) fun _ _ => .pure _
  · exact .mono (.pure _) (Nat.zero_le 1)

theorem Prepares.call {m : Message} {c : SubCall} (hpays : pays) (h : P (.send (c.message m))) :
    Prepares M pays P 1 (call m c : Host τ κ (Verdict × Bytes)) := by
  refine .bind (.payCall c hpays) fun _ _ => .bind (k := 0) (.send h) fun answer _ => ?_
  split
  · exact .pure _
  · exact .bind (.charge _ hpays) fun _ _ => .pure _

theorem Prepares.callCode {self : Path} {c : SubCall} (hpays : pays)
    (h : P (.get (.codeOf (self.sibling c.target)))) :
    Prepares M pays P 1 (callCode self c : Host τ κ Verdict) := by
  unfold Host.callCode
  have hfetch : Prepares M pays P 1 (discard (Host.lookupCode self c.target) : Host τ κ Unit) :=
    .map (.lookupCode h) _
  split
  · exact .bind (.charge _ hpays) fun _ _ => .bind hfetch fun _ _ => .pure _
  · exact .bind hfetch fun _ _ => .pure _

theorem Prepares.callDelegate {m : Message} {c : SubCall} (h : P (.send (c.delegateMessage m))) :
    Prepares M pays P 1 (callDelegate m c : Host τ κ (Verdict × Bytes)) := by
  refine .bind (k := 0) (.send h) fun answer _ => ?_
  split <;> exact .pure _

theorem Transacts.copyWindow {source : Host τ κ Bytes} {result offset length : UInt32}
    (hsource : Prepares M pays P n source) (h : length ≠ 0 → ∀ b, C (.fill result length b)) :
    Transacts M pays P C n (copyWindow source result offset length) := by
  unfold Host.copyWindow
  split
  · rename_i hlength
    exact .bind hsource fun b _ => .commit (.fill result length _) (h hlength _)
  · exact .mono (.prepares (.pure _)) (Nat.zero_le n)

theorem Transacts.writeOutput {offset length : UInt32} {output : Bytes}
    (h : ∀ b, b ≠ [] → b.length ≤ length.toNat → C (.write offset b)) :
    Transacts M pays P C 0 (writeOutput offset length output : Host τ κ Unit) := by
  unfold Host.writeOutput
  split
  · exact .prepares (.pure _)
  · rename_i b hb
    exact .commit (.write offset _) (h _ hb (List.length_take_le ..))

theorem Transacts.silently {x : Host τ κ Unit} (h : Transacts M pays P C n x) :
    Transacts M pays P C n (silently x) :=
  .report h _

private theorem isZero_of_classify (old : Reading Word) (new : Word) :
    match SlotWrite.classify old new with
    | .create | .update => new.isZero = false
    | .clear | .noop => new.isZero = true := by
  unfold SlotWrite.classify
  cases old.isFound && !old.value.isZero <;> cases new.isZero <;> rfl

theorem Transacts.storeSlot {self : Path} {k v : Word} (hpays : pays) (hP : P (.get (self.slot k)))
    (hput : v.isZero = false → C (.put (self.slot k) v.toList))
    (hremove : v.isZero = true → C (.remove (self.slot k)) ∧ C (.clear (self.slot k))) :
    Transacts M pays P C 1 (storeSlot self k v : Host τ κ Unit) := by
  refine .bind (k := 0) (.lookupSlot hP) fun old _ => ?_
  have hzero := isZero_of_classify old v
  cases hwrite : SlotWrite.classify old v with
  | create =>
    rw [hwrite] at hzero
    exact .bind (.charge _ hpays) fun _ _ => .commit (.put _ _) (hput hzero)
  | update =>
    rw [hwrite] at hzero
    exact .bind (.pure ()) fun _ _ => .commit (.put _ _) (hput hzero)
  | clear =>
    rw [hwrite] at hzero
    exact .commit (.clear _) (hremove hzero).2
  | noop =>
    rw [hwrite] at hzero
    exact .bind (.pure ()) fun _ _ => .commit (.remove _) (hremove hzero).1

/-- What is left of `record` once the entry is paid for. -/
theorem Transacts.enter {data length topics : UInt32} {offsets : List UInt32} (h : ∀ entry, C (.log entry)) :
    Transacts M pays P C 0 (do
      let data ← if length = 0 then pure [] else readBytes data length
      let topics ← (offsets.take topics.toNat).mapM readWord
      log { data, topics } : Host τ κ Unit) := by
  have hentry (data : Bytes) : Transacts M pays P C 0 (do
      let topics ← (offsets.take topics.toNat).mapM readWord
      log { data, topics } : Host τ κ Unit) :=
    .bind (.mapM (fun _ => .view _) _) fun _ _ => .commit (.log _) (h _)
  dsimp only
  split
  · exact .bind (.pure _) fun data _ => hentry data
  · exact .bind (.view _) fun data _ => hentry data

theorem Transacts.record {data length topics : UInt32} {offsets : List UInt32} (hpays : pays)
    (h : ∀ entry, C (.log entry)) :
    Transacts M pays P C 0 (record data length topics offsets : Host τ κ Unit) := by
  unfold Host.record
  by_cases hmany : Gas.maxLogTopics < topics.toUInt64
  · rw [if_pos hmany]
    exact .bind .invalid fun _ _ => .bind (.charge _ hpays) fun _ _ => .enter h
  · rw [if_neg hmany]
    exact .bind (.charge _ hpays) fun _ _ => .enter h

/-! ### The operations -/

/-- Every request prepares, asking at most one question, and then commits at most once. -/
theorem transacts_serve (m : Message) (M : Memory) (r : Request) :
    Transacts M (Surcharged r) (Asks m M r) (Commits m M r) 1 (serve m r : Host τ κ (Option UInt64)) := by
  cases r with
  | getAddress result | getTxOrigin result | getCaller result | getBlockCoinbase result =>
    exact .mono (.silently (.commit (.write result _) ⟨_, Vector.length_toList, rfl⟩)) (Nat.zero_le 1)
  | getCallValue result =>
    exact .mono (.silently (.commit (.write result _) ⟨_, Bytes.length_ofNat .., rfl⟩)) (Nat.zero_le 1)
  | getBlockDifficulty result =>
    exact .mono (.silently (.commit (.write result _) ⟨_, Vector.length_toList, rfl⟩)) (Nat.zero_le 1)
  | getCallDataSize | getTxGasPrice | getBlockTimestamp | getBlockNumber | getBlockGasLimit =>
    exact .mono (.prepares (.pure _)) (Nat.zero_le 1)
  | callDataCopy result offset length =>
    exact .mono (.silently (.bind (.charge _ trivial) fun _ _ =>
      .copyWindow (.pure _) fun h b => ⟨h, b, rfl⟩)) (Nat.zero_le 1)
  | callDataCopy256 result offset =>
    exact .mono (.silently (.commit (.fill result 32 _) ⟨_, rfl⟩)) (Nat.zero_le 1)
  | getBalance address result =>
    exact .silently (.bind (.view _) fun target htarget =>
      .bind (.lookupBalance ⟨target, htarget.view, rfl⟩) fun _ _ =>
        .commit (.write result _) ⟨_, Bytes.length_ofNat .., rfl⟩)
  | getCodeSize => exact .prepares (.bind (.lookupOwnCode rfl) fun _ _ => .pure _)
  | codeCopy result offset length =>
    have hown : Asks m M (.codeCopy result offset length) (.get m.callee) := rfl
    exact .silently (.bind (.charge _ trivial) fun _ _ =>
      .copyWindow (.map (.lookupOwnCode hown) _) fun h b => ⟨h, b, rfl⟩)
  | getExternalCodeSize address =>
    exact .prepares (.bind (.view _) fun target htarget =>
      .bind (.lookupCode ⟨target, htarget.view, rfl⟩) fun _ _ => .pure _)
  | externalCodeCopy address result offset length =>
    exact .silently (.bind (.charge _ trivial) fun _ _ => .bind (.view _) fun target htarget =>
      .copyWindow (.map (.lookupCode ⟨target, htarget.view, rfl⟩) _) fun h b => ⟨h, b, rfl⟩)
  | getBlockHash number result =>
    exact .silently (.bind (.lookupBlockHash fun h => ⟨h, rfl⟩) fun _ _ =>
      .commit (.write result _) ⟨_, Vector.length_toList, rfl⟩)
  | storageStore key value =>
    exact .silently (.bind (.view _) fun k hk => .bind (.view _) fun v hv =>
      .storeSlot trivial ⟨k, hk.view, rfl⟩ (fun h => ⟨k, v, hk.view, hv.view, by simp [h]⟩)
        fun h => ⟨⟨k, v, hk.view, hv.view, by simp [h]⟩, ⟨k, v, hk.view, hv.view, by simp [h]⟩⟩)
  | storageLoad key result =>
    exact .silently (.bind (.view _) fun k hk =>
      .bind (.lookupSlot ⟨k, hk.view, rfl⟩) fun _ _ => .commit (.write result _) ⟨_, Vector.length_toList, rfl⟩)
  | create value data length result =>
    exact .mono (.bind (.view _) fun v _ =>
      .report (.commit (.write result _) ⟨_, Vector.length_toList, rfl⟩) _) (Nat.zero_le 1)
  | call gas address value data length result resultLength =>
    exact .bind (.readSubCall ..) fun c hc => .bind (.call trivial ⟨c, hc.readSubCall, rfl⟩) fun _ _ =>
      .report (.writeOutput fun b hb hlength => ⟨b, hb, hlength, rfl⟩) _
  | callCode gas address value data length _ _ =>
    exact .prepares (.bind (.readSubCall ..) fun c hc =>
      .bind (.callCode trivial ⟨c, hc.readSubCall, rfl⟩) fun _ _ => .pure _)
  | callDelegate gas address data length result resultLength =>
    exact .bind (.readSubCall ..) fun c hc => .bind (.callDelegate ⟨c, hc.readSubCall, rfl⟩) fun _ _ =>
      .report (.writeOutput fun b hb hlength => ⟨b, hb, hlength, rfl⟩) _
  | log data length topics t₁ t₂ t₃ t₄ =>
    exact .mono (.silently (.record trivial fun entry => ⟨entry, rfl⟩)) (Nat.zero_le 1)
  | returnData data length =>
    have hhalt (output : Option Bytes) :
        Transacts M False (Asks m M (.returnData data length)) (Commits m M (.returnData data length)) 0
          (Host.halt output : Host τ κ Unit) :=
      .commit (.halt output) ⟨output, rfl⟩
    refine .mono (.silently (n := 0) ?_) (Nat.zero_le 1)
    by_cases hlength : length = 0
    · rw [if_pos hlength]
      exact .bind (.pure _) fun output _ => hhalt output
    · rw [if_neg hlength]
      exact .bind (.map (.view _) _) fun output _ => hhalt output
  | selfDestruct beneficiary =>
    exact .mono (.silently (.bind (.view _) fun target htarget =>
      .commit (.destroy target) ⟨target, htarget.view, rfl⟩)) (Nat.zero_le 1)

end Host

end ContractHost
