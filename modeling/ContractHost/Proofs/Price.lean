import ContractHost.Proofs.Endings
import ContractHost.Proofs.Slots
import ContractHost.Tree.NodeTree

/-!
# What operations cost

The price of an operation is its base price and a surcharge that depends on the request, on the memory and on the
answers of the state tree and the kernel (`Request.surcharge`).  All sums are sums of natural numbers, so the
statements also say that nothing on the way reaches the largest amount of gas.

An operation that runs into no fault succeeds exactly if the gas covers what is needed, and then exactly its price
is gone.  Needed is the price, except that a call with a value must also be able to lend the callee its gas.
-/

namespace ContractHost

variable {τ κ : Type}

/-- Whether the answer of the kernel counts as the failure of a call. -/
def CallFails : Except DeliveryError Response → Prop
  | .ok response => response.exception = true
  | .error _ => True

instance (answer : Except DeliveryError Response) : Decidable (CallFails answer) := by
  cases answer <;> unfold CallFails <;> infer_instance

namespace Request

/-- The price of copying `length` bytes, beyond a fixed part. -/
def wordsPrice (length : UInt32) : Nat := 3 * ((length.toNat + 31) / 32)

variable [Tree τ] [Kernel κ]

/-- What the failure of the call `c` costs. -/
def penalty (m : Message) (f : Frame τ κ) (c : SubCall) : Nat :=
  if CallFails (Kernel.send f.kernel (c.message m)).1 then 25000 else 0

/-- What the request costs beyond the base price of its operation. -/
def surcharge (m : Message) (f : Frame τ κ) : Request → Nat
  | callDataCopy _ _ length | codeCopy _ _ length => 3 + wordsPrice length
  | externalCodeCopy _ _ _ length => 20 + wordsPrice length
  | log _ length topics _ _ _ _ => 375 + 8 * length.toNat + 375 * topics.toNat
  | storageStore key value =>
    match f.memory.readVector? 32 key, f.memory.readVector? 32 value with
    | some k, some v =>
      if v ≠ Word.zero ∧ ¬ SlotInUse (Tree.get f.tree (m.callee.slot k)).1 then 15000 else 0
    | _, _ => 0
  | call gas address value data length _ _ =>
    match f.memory.subCall? gas address (some value) data length with
    | some c => (if c.value ≠ 0 then 6700 else 0) + penalty m f c
    | none => 0
  | callCode gas address value data length _ _ =>
    match f.memory.subCall? gas address (some value) data length with
    | some c => if c.value ≠ 0 then 6700 else 0
    | none => 0
  | _ => 0

/-- What must be there beyond the base price: the surcharge, and for a call with a value also the callee's gas while
the call lasts. -/
def reserve (m : Message) (f : Frame τ κ) (r : Request) : Nat :=
  match r with
  | call gas address value data length _ _ =>
    match f.memory.subCall? gas address (some value) data length with
    | some c => if c.value ≠ 0 then 6700 + max gas.toNat (penalty m f c) else surcharge m f r
    | none => 0
  | r => surcharge m f r

end Request

namespace Host

variable {α β : Type} {f : Frame τ κ} {price needed : Nat}

/-- On `f` the computation `x` succeeds only if `needed` gas is there, and then it takes `price`; it lacks gas only
if less is there, and fails otherwise by one of the other faults. -/
structure Priced (x : Host τ κ α) (f : Frame τ κ) (price needed : Nat) : Prop where
  ok : ∀ a g, x f = .ok a g →
    needed ≤ f.meter.remaining.toNat ∧ g.meter.remaining.toNat + price = f.meter.remaining.toNat
  error : ∀ e g, x f = .error e g → (e = .trap .outOfGas ∧ f.meter.remaining.toNat < needed) ∨
    e = .trap .memoryFault ∨ e = .trap .invalidArgument ∨ ∃ text, e = .internal text

theorem Priced.of_ok {x : Host τ κ α} {a : α} {g : Frame τ κ} (h : x f = .ok a g)
    (hneeded : needed ≤ f.meter.remaining.toNat)
    (hprice : g.meter.remaining.toNat + price = f.meter.remaining.toNat) :
    Priced x f price needed where
  ok a' g' h' := by
    rw [h] at h'
    cases h'
    exact ⟨hneeded, hprice⟩
  error e g' h' := by
    rw [h] at h'
    cases h'

theorem Priced.of_error {x : Host τ κ α} {g : Frame τ κ} {e : OperationError} (h : x f = .error e g)
    (he : (e = .trap .outOfGas ∧ f.meter.remaining.toNat < needed) ∨
      e = .trap .memoryFault ∨ e = .trap .invalidArgument ∨ ∃ text, e = .internal text) :
    Priced x f price needed where
  ok a g' h' := by
    rw [h] at h'
    cases h'
  error e' g' h' := by
    rw [h] at h'
    cases h'
    exact he

theorem Priced.of_eq {x y : Host τ κ α} (h : x f = y f) (hy : Priced y f price needed) :
    Priced x f price needed where
  ok a g hg := hy.ok a g (h ▸ hg)
  error e g hg := hy.error e g (h ▸ hg)

theorem Priced.bind {x : Host τ κ α} {next : α → Host τ κ β} {price' needed' : Nat} (hx : Priced x f price needed)
    (hnext : ∀ a g, x f = .ok a g → Priced (next a) g price' needed') :
    Priced (x >>= next) f (price + price') (max needed (price + needed')) := by
  cases hxf : x f with
  | error e g =>
    refine .of_error (bind_error hxf next) ?_
    rcases hx.error e g hxf with ⟨he, hlt⟩ | he
    · exact .inl ⟨he, by omega⟩
    · exact .inr he
  | ok a g =>
    have hx' := hx.ok a g hxf
    have hna := hnext a g hxf
    cases hng : next a g with
    | error e h =>
      refine .of_error ((bind_ok hxf next).trans hng) ?_
      rcases hna.error e h hng with ⟨he, hlt⟩ | he
      · exact .inl ⟨he, by omega⟩
      · exact .inr he
    | ok b h =>
      have hna' := hna.ok b h hng
      exact .of_ok ((bind_ok hxf next).trans hng) (by omega) (by omega)

theorem Priced.congr {x : Host τ κ α} {price' needed' : Nat} (h : Priced x f price needed) (hprice : price = price')
    (hneeded : needed = needed') : Priced x f price' needed' := hprice ▸ hneeded ▸ h

/-- What comes after is free. -/
theorem Priced.then_free {x : Host τ κ α} {next : α → Host τ κ β} (hx : Priced x f price needed)
    (hle : price ≤ needed) (hnext : ∀ a g, x f = .ok a g → Priced (next a) g 0 0) :
    Priced (x >>= next) f price needed :=
  .congr (.bind hx hnext) (Nat.add_zero _) (by omega)

theorem Priced.charge (amount : UInt64) (f : Frame τ κ) : Priced (charge amount) f amount.toNat amount.toNat := by
  rcases Nat.lt_or_ge f.meter.remaining.toNat amount.toNat with hlt | hle
  · exact .of_error (charge_of_lt hlt) (.inl ⟨rfl, hlt⟩)
  · refine .of_ok (charge_of_le hle) hle ?_
    rw [Frame.toNat_remaining_spend]
    omega

/-- As long as the gas has not its largest amount, the sum of the value's price and the callee's gas is exact. -/
theorem Priced.payCall {c : SubCall} (hcap : f.meter.remaining.toNat < Gas.cap) :
    Priced (payCall c) f (if c.value ≠ 0 then 6700 else 0) (if c.value ≠ 0 then 6700 + c.gas.toNat else 0) := by
  by_cases hvalue : c.value = 0
  · simp only [hvalue, ne_eq, not_true_eq_false, if_false]
    exact .of_ok (payCall_of_eq hvalue f) (Nat.zero_le _) rfl
  · simp only [hvalue, ne_eq, not_false_eq_true, if_true]
    -- If the sum stops at the largest amount it exceeds what is there, as the exact sum does.
    rcases Nat.lt_or_ge f.meter.remaining.toNat (min (6700 + c.gas.toNat) Gas.cap) with hlt | hle
    · exact .of_error (payCall_of_lt hvalue hlt) (.inl ⟨rfl, by omega⟩)
    · refine .of_ok (payCall_of_le hvalue hle) (by omega) ?_
      rw [Frame.toNat_remaining_spend]
      omega

theorem Priced.step {x : Host τ κ α} {next : α → Host τ κ β} {a : α} {g : Frame τ κ} (h : x f = .ok a g)
    (hg : g.meter = f.meter) (hnext : Priced (next a) g price needed) : Priced (x >>= next) f price needed where
  ok b k hb := by
    rw [← hg]
    exact hnext.ok b k (bind_ok h next ▸ hb)
  error e k he := by
    rw [← hg]
    exact hnext.error e k (bind_ok h next ▸ he)

theorem Priced.view {read : Memory → Option α} {next : α → Host τ κ β}
    (h : ∀ a, read f.memory = some a → Priced (next a) f price needed) :
    Priced (view read >>= next) f price needed := by
  cases hread : read f.memory with
  | none => exact .of_error (bind_error (view_of_none hread) next) (.inr (.inl rfl))
  | some a =>
    exact .step (view_of_some hread) rfl (h a hread)

theorem Priced.report {x : Host τ κ α} (h : Priced x f price needed) (b : α → β) :
    Priced (x >>= fun a => pure (b a)) f price needed := by
  cases hxf : x f with
  | error e g => exact .of_error (bind_error hxf _) (h.error e g hxf)
  | ok a g =>
    obtain ⟨hneeded, hprice⟩ := h.ok a g hxf
    exact .of_ok (bind_ok hxf _) hneeded hprice

theorem Priced.trapping {x : Host τ κ α} (h : Priced x f price needed) : Priced (trapping x) f price needed := by
  cases hxf : x f with
  | ok a g =>
    obtain ⟨hneeded, hprice⟩ := h.ok a g hxf
    exact .of_ok (trapping_ok hxf) hneeded hprice
  | error e g =>
    have he := h.error e g hxf
    cases e with
    | trap why => exact .of_error (trapping_trap hxf) he
    | ended _ | arity _ _ _ | internal _ => exact .of_error (trapping_error hxf rfl) he

variable [Tree τ] [Kernel κ] {P : Effect → Prop} {C : Commit → Prop} {n : Nat}

/-- Computations that never pay, whatever they ask and however they commit. -/
abbrev Unpaid (M : Memory) (n : Nat) (x : Host τ κ α) : Prop :=
  Transacts M False (fun _ => True) (fun _ => True) n x

/-- What never pays is free and never lacks gas. -/
theorem Priced.free {x : Host τ κ α} (h : Transacts f.memory False P C n x) (hrun : f.progress.status = .running) :
    Priced x f 0 0 := by
  obtain ⟨g, hfg, hend⟩ := h.ending rfl hrun
  have hremaining : g.meter.remaining = f.meter.remaining := hfg.paid.resolve_left id
  cases hend with
  | done a h => exact .of_ok h (Nat.zero_le _) (by rw [hremaining]; rfl)
  | trap why h hpays =>
    refine .of_error h (.inr ?_)
    cases why with
    | outOfGas => exact absurd rfl hpays
    | memoryFault => exact .inl rfl
    | invalidArgument => exact .inr (.inl rfl)
  | commit c a k _ _ h hspared => exact .of_ok h (Nat.zero_le _) (by rw [hspared.remaining, hremaining]; rfl)
  | refuse c text k _ _ _ h _ => exact .of_error h (.inr (.inr (.inr ⟨text, rfl⟩)))

/-- The amount is due before anything else, and what follows is free. -/
theorem Priced.charge_then {amount : UInt64} {next : Unit → Host τ κ α}
    (hnext : Unpaid f.memory n (next ())) (hrun : f.progress.status = .running) :
    Priced (Host.charge amount >>= next) f amount.toNat amount.toNat := by
  refine .then_free (.charge amount f) (Nat.le_refl _) fun a g hg => ?_
  obtain ⟨-, rfl⟩ := of_charge_ok hg
  exact .free hnext hrun

/-! ### The operations -/

section

variable {m : Message}

private theorem priced_copy {source : Host τ κ Bytes} {result offset length : UInt32} {amount : UInt64}
    (hsource : Prepares f.memory False (fun _ => True) n source) (hrun : f.progress.status = .running) :
    Priced (silently (do charge amount; copyWindow source result offset length)) f amount.toNat amount.toNat := by
  have hshape : Unpaid f.memory n (copyWindow source result offset length) := .copyWindow hsource fun _ _ => trivial
  exact .report (.charge_then hshape hrun) _

private theorem priced_settle {self : Path} {k v : Word} (write : SlotWrite) (hrun : f.progress.status = .running) :
    Priced (do settle write; applyWrite self k v write) f (if write = .create then 15000 else 0)
      (if write = .create then 15000 else 0) := by
  cases write with
  | create =>
    have hput : Unpaid f.memory 0 (put (self.slot k) v.toList : Host τ κ Unit) := .commit (.put _ _) trivial
    exact .charge_then hput hrun
  | update =>
    have hput : Unpaid f.memory 0 (do pure (); put (self.slot k) v.toList : Host τ κ Unit) :=
      .bind (.pure ()) fun _ _ => .commit (.put _ _) trivial
    exact .free hput hrun
  | clear =>
    have hclear : Unpaid f.memory 0 (Commit.run (.clear (self.slot k)) : Host τ κ Unit) := .commit _ trivial
    exact .free hclear hrun
  | noop =>
    have hremove : Unpaid f.memory 0 (do pure (); remove (self.slot k) : Host τ κ Unit) :=
      .bind (.pure ()) fun _ _ => .commit (.remove _) trivial
    exact .free hremove hrun

private theorem priced_storeSlot {self : Path} {k v : Word} (hrun : f.progress.status = .running) :
    Priced (storeSlot self k v) f
      (if v ≠ Word.zero ∧ ¬ SlotInUse (Tree.get f.tree (self.slot k)).1 then 15000 else 0)
      (if v ≠ Word.zero ∧ ¬ SlotInUse (Tree.get f.tree (self.slot k)).1 then 15000 else 0) := by
  simp only [← classify_slot_eq_create_iff]
  exact .step (lookupSlot_eq self k f) rfl (priced_settle _ hrun)

private theorem priced_record {data length topics : UInt32} {offsets : List UInt32}
    (hrun : f.progress.status = .running) :
    Priced (record data length topics offsets) f (375 + 8 * length.toNat + 375 * topics.toNat)
      (375 + 8 * length.toNat + 375 * topics.toNat) := by
  unfold Host.record
  by_cases hmany : Gas.maxLogTopics < topics.toUInt64
  · rw [if_pos hmany]
    exact .of_error (bind_error rfl _) (.inr (.inr (.inl rfl)))
  · have hcost : (Gas.logCost length.toUInt64 topics).toNat = 375 + 8 * length.toNat + 375 * topics.toNat := by
      -- No words of 32 bits bring the sum near the largest amount.
      have hlength := length.toNat_lt
      have htopics := topics.toNat_lt
      rw [Gas.toNat_logCost, UInt32.toNat_toUInt64, show Gas.cap = 2 ^ 64 - 1 from rfl]
      omega
    have hshape : Unpaid f.memory 0 (do
        let data ← if length = 0 then pure [] else readBytes data length
        let topics ← (offsets.take topics.toNat).mapM readWord
        log { data, topics } : Host τ κ Unit) := .enter fun _ => trivial
    rw [if_neg hmany]
    exact .congr (.charge_then hshape hrun) hcost hcost

omit [Tree τ] in
private theorem priced_answer {c : SubCall} :
    Priced (do
      match ← send (c.message m) with
      | .ok ⟨false, output⟩ => return (.success, output)
      | _ =>
        charge Gas.callException
        return (.failure, []) : Host τ κ (Verdict × Bytes)) f (Request.penalty m f c) (Request.penalty m f c) := by
  refine .step (a := (Kernel.send f.kernel (c.message m)).1) rfl rfl ?_
  unfold Request.penalty
  rcases hanswer : (Kernel.send f.kernel (c.message m)).1 with e | ⟨exception, output⟩
  · exact .report (.charge _ _) _
  · cases exception with
    | true => exact .report (.charge _ _) _
    | false => exact .of_ok rfl (Nat.zero_le _) rfl

private theorem priced_call {c : SubCall} (hcap : f.meter.remaining.toNat < Gas.cap) :
    Priced (call m c) f ((if c.value ≠ 0 then 6700 else 0) + Request.penalty m f c)
      (if c.value ≠ 0 then 6700 + max c.gas.toNat (Request.penalty m f c) else Request.penalty m f c) := by
  have hpay : Prepares f.memory True (fun _ => True) 0 (payCall c : Host τ κ Unit) := .payCall c trivial
  -- The callee's gas is back before the penalty is due, so only the larger of the two must be there.
  have hbind : Priced (call m c) f ((if c.value ≠ 0 then 6700 else 0) + Request.penalty m f c)
      (max (if c.value ≠ 0 then 6700 + c.gas.toNat else 0)
        ((if c.value ≠ 0 then 6700 else 0) + Request.penalty m f c)) := by
    refine .bind (.payCall hcap) fun a g hg => ?_
    have hkernel : g.kernel = f.kernel := congrArg Prod.snd (hpay.asked rfl hg).world_eq
    have hpenalty : Request.penalty m f c = Request.penalty m g c := by
      rw [Request.penalty, Request.penalty, hkernel]
    rw [hpenalty]
    exact priced_answer
  refine hbind.congr rfl ?_
  split <;> omega

private theorem priced_callCode {self : Path} {c : SubCall} (hrun : f.progress.status = .running) :
    Priced (callCode self c) f (if c.value ≠ 0 then 6700 else 0) (if c.value ≠ 0 then 6700 else 0) := by
  have hshape : Unpaid f.memory 1 (do
      discard (lookupCode self c.target)
      return .success : Host τ κ Verdict) :=
    .prepares (.bind (.map (.lookupCode trivial) _) fun _ _ => .pure _)
  unfold Host.callCode
  split
  · exact .charge_then hshape hrun
  · exact .free hshape hrun

/-- A request is priced as `surcharge` and `reserve` say.  That its base price was there before keeps the sums that
a call adds up below the largest amount. -/
theorem priced_serve (r : Request) (hrun : f.progress.status = .running)
    (hcap : r.operation.cost.toNat + f.meter.remaining.toNat ≤ Gas.cap) :
    Priced (serve m r) f (r.surcharge m f) (r.reserve m f) := by
  have hfree (hr : ¬ r.Surcharged) : Priced (serve m r) f 0 0 := by
    have hshape := transacts_serve (τ := τ) (κ := κ) m f.memory r
    rw [eq_false hr] at hshape
    exact .free hshape hrun
  cases r with
  | callDataCopy result offset length =>
    exact .congr (priced_copy (.pure m.data) hrun) (Gas.toNat_copyCost _) (Gas.toNat_copyCost _)
  | codeCopy result offset length =>
    exact .congr (priced_copy (.map (.lookupOwnCode trivial) _) hrun) (Gas.toNat_copyCost _) (Gas.toNat_copyCost _)
  | externalCodeCopy address result offset length =>
    have hshape : Unpaid f.memory 1 (do
        let target ← readAddress address
        copyWindow (Reading.value <$> lookupCode m.callee target) result offset length : Host τ κ Unit) :=
      .bind (.view _) fun target _ => .copyWindow (.map (.lookupCode trivial) _) fun _ _ => trivial
    exact .congr (.report (.charge_then hshape hrun) _) (Gas.toNat_externalCopyCost _)
      (Gas.toNat_externalCopyCost _)
  | log data length topics t₁ t₂ t₃ t₄ => exact .report (priced_record hrun) _
  | storageStore key value =>
    refine .report (.view fun k hk => .view fun v hv => ?_) _
    exact .congr (priced_storeSlot hrun) (by simp only [Request.surcharge, hk, hv])
      (by simp only [Request.reserve, Request.surcharge, hk, hv])
  | call gas address value data length result resultLength =>
    -- The base price is gone, so less than the largest amount remains.
    have hbase : (Operation.call).cost.toNat = 40 := rfl
    have hcap' : 40 + f.meter.remaining.toNat ≤ Gas.cap := hbase ▸ hcap
    rw [serve, readSubCall_eq]
    refine .view fun c hc => ?_
    have hshape : Prepares f.memory True (fun _ => True) 1 (Host.call m c : Host τ κ (Verdict × Bytes)) :=
      .call trivial trivial
    refine .congr (.then_free (priced_call (by omega)) ?_ fun answer g hg => ?_) ?_ ?_
    · split <;> omega
    · have hwrite : Unpaid g.memory 0
          (writeOutput result resultLength answer.2 : Host τ κ Unit) := .writeOutput fun _ _ _ => trivial
      exact .free (.report hwrite _) ((hshape.asked rfl hg).progress ▸ hrun)
    · simp only [Request.surcharge, hc]
    · simp only [Request.reserve, Request.surcharge, hc, Memory.gas_of_subCall? hc]
      split <;> omega
  | callCode gas address value data length result resultLength =>
    rw [serve, readSubCall_eq]
    refine .view fun c hc => ?_
    exact .congr (.report (priced_callCode hrun) _) (by simp only [Request.surcharge, hc])
      (by simp only [Request.reserve, Request.surcharge, hc])
  | getAddress _ | getBalance _ _ | getTxOrigin _ | getCaller _ | getCallValue _ | getCallDataSize
  | callDataCopy256 _ _ | getCodeSize | getExternalCodeSize _ | getTxGasPrice | getBlockHash _ _
  | getBlockCoinbase _ | getBlockTimestamp | getBlockNumber | getBlockDifficulty _ | getBlockGasLimit
  | create _ _ _ _ | callDelegate _ _ _ _ _ _ | storageLoad _ _ | returnData _ _ | selfDestruct _ => exact hfree id

theorem priced_invoke {op : Operation} {args : List UInt64} {r : Request} (hrun : f.progress.status = .running)
    (hr : Request.ofArgs? op args = some r) :
    Priced (invoke m op args) f (op.cost.toNat + r.surcharge m f) (op.cost.toNat + r.reserve m f) := by
  have hpaid : Priced (do charge op.cost; serve m r) f (op.cost.toNat + r.surcharge m f)
      (max op.cost.toNat (op.cost.toNat + r.reserve m f)) := by
    refine .bind (.charge op.cost f) fun a g hg => ?_
    obtain ⟨hle, rfl⟩ := of_charge_ok hg
    refine priced_serve r hrun ?_
    have hcap := f.meter.remaining.toNat_lt
    rw [Request.operation_of_ofArgs? hr, Frame.toNat_remaining_spend, show Gas.cap = 2 ^ 64 - 1 from rfl]
    omega
  exact .of_eq (invoke_eq hrun hr) (.trapping (hpaid.congr rfl (by omega)))

/-- An operation of a running execution that meets no other fault succeeds exactly if its base price and the reserve
of its request are there, lacks gas otherwise, and takes exactly its base price and the surcharge of its request. -/
theorem invoke_price {op : Operation} {args : List UInt64} (hrun : f.progress.status = .running)
    (hargs : args.length = op.params.length)
    (hmemory : failure? (invoke m op args) f ≠ some (.trap .memoryFault))
    (hargument : failure? (invoke m op args) f ≠ some (.trap .invalidArgument))
    (hinternal : ∀ text, failure? (invoke m op args) f ≠ some (.internal text)) :
    ∃ r, Request.ofArgs? op args = some r ∧
      ((∃ a g, invoke m op args f = .ok a g) ↔ op.cost.toNat + r.reserve m f ≤ f.meter.remaining.toNat) ∧
      (failure? (invoke m op args) f = some (.trap .outOfGas) ↔
        f.meter.remaining.toNat < op.cost.toNat + r.reserve m f) ∧
      ∀ a g, invoke m op args f = .ok a g →
        g.meter.remaining.toNat + (op.cost.toNat + r.surcharge m f) = f.meter.remaining.toNat := by
  obtain ⟨r, hr⟩ := Request.exists_ofArgs? hargs
  have hpriced := priced_invoke (m := m) hrun hr
  refine ⟨r, hr, ?_⟩
  cases hinvoke : invoke m op args f with
  | ok a g =>
    obtain ⟨hneeded, hprice⟩ := hpriced.ok a g hinvoke
    rw [failure?_ok hinvoke]
    refine ⟨iff_of_true ⟨a, g, rfl⟩ hneeded, iff_of_false (by simp) (by omega), fun a' g' h => ?_⟩
    cases h
    exact hprice
  | error e g =>
    have hfail := failure?_error hinvoke
    rw [hfail] at hmemory hargument hinternal
    rcases hpriced.error e g hinvoke with ⟨rfl, hlt⟩ | rfl | rfl | ⟨text, rfl⟩
    · rw [hfail]
      exact ⟨iff_of_false (by simp) (by omega), iff_of_true rfl hlt, fun a' g' h => by cases h⟩
    · exact absurd rfl hmemory
    · exact absurd rfl hargument
    · exact absurd rfl (hinternal text)

end

private def undelivered : Message := { callee := .root, sender := .root, origin := .root, gas := 31740 }

private def undeliveredStart : Frame NodeTree Script :=
  .start undelivered {} { strict := true } (.ofBytes (List.replicate 35 0 ++ [1]))

/-- A call with a value and 100 units of gas that cannot be delivered takes 40, 6700 and 25000, and needs no
more. -/
theorem invoke_price_undelivered :
    ∃ a g, invoke undelivered .call [100, 0, 20, 0, 0, 0, 0] undeliveredStart = .ok a g ∧
      g.meter.remaining.toNat = 0 := by
  have hfail : failure? (invoke undelivered .call [100, 0, 20, 0, 0, 0, 0]) undeliveredStart = none := by
    decide +kernel
  have hmemory : failure? (invoke undelivered .call [100, 0, 20, 0, 0, 0, 0]) undeliveredStart ≠
      some (.trap .memoryFault) := by simp [hfail]
  obtain ⟨r, hr, hok, -, hprice⟩ := invoke_price rfl rfl hmemory (by simp [hfail]) (by simp [hfail])
  obtain rfl : .call 100 0 20 0 0 0 0 = r := Option.some.inj hr
  obtain ⟨a, g, hg⟩ := hok.2 (by decide +kernel)
  refine ⟨a, g, hg, ?_⟩
  have hsurcharge : (Request.call 100 0 20 0 0 0 0).surcharge undelivered undeliveredStart = 31700 := by
    decide +kernel
  have h := hprice a g hg
  rw [hsurcharge] at h
  exact Nat.add_right_cancel (h.trans rfl)

end Host

end ContractHost
