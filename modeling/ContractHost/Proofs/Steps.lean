import ContractHost.Host.Serve
import ContractHost.Proofs.Schedule

/-!
# Single steps of the host

What the steps of the host do to a frame, one by one.  `after` is the frame that a computation leaves, whether or
not it failed, and `failure?` tells whether it did; of a sequence the later part counts only if the earlier one did
not fail (`bind_ok`, `bind_error`).  Paying is subtraction: a charge takes its amount or fails (`charge_of_le`,
`charge_of_lt`), and so does the price of a call's value, of which the gas of the callee comes back
(`payCall_of_le`, `payCall_of_lt`).
-/

namespace ContractHost

variable {τ κ : Type}

/-- The frame with `amount` of its gas spent. -/
def Frame.spend (f : Frame τ κ) (amount : Nat) : Frame τ κ :=
  { f with meter := { f.meter with remaining := UInt64.ofNat (f.meter.remaining.toNat - amount) } }

private theorem toNat_ofNat_sub (a : UInt64) (n : Nat) : (UInt64.ofNat (a.toNat - n)).toNat = a.toNat - n :=
  UInt64.toNat_ofNat_of_lt (Nat.lt_of_le_of_lt (Nat.sub_le ..) a.toNat_lt_size)

@[simp] theorem Frame.toNat_remaining_spend (f : Frame τ κ) (amount : Nat) :
    (f.spend amount).meter.remaining.toNat = f.meter.remaining.toNat - amount :=
  toNat_ofNat_sub ..

theorem Frame.remaining_spend_le (f : Frame τ κ) (amount : Nat) :
    (f.spend amount).meter.remaining ≤ f.meter.remaining := by
  rw [UInt64.le_iff_toNat_le, toNat_remaining_spend]
  omega

theorem Frame.spend_zero (f : Frame τ κ) : f.spend 0 = f := by
  rw [spend, Nat.sub_zero, UInt64.ofNat_toNat]

namespace Host

variable {α β : Type}

/-! ### Sequences -/

section

variable {ε σ : Type} {x : EStateM ε σ α} {f g h : σ}

theorem bind_ok {a : α} (hx : x f = .ok a g) (k : α → EStateM ε σ β) : (x >>= k) f = k a g := by
  change EStateM.bind x k f = _
  rw [EStateM.bind, hx]

theorem bind_error {e : ε} (hx : x f = .error e g) (k : α → EStateM ε σ β) : (x >>= k) f = .error e g := by
  change EStateM.bind x k f = _
  rw [EStateM.bind, hx]

theorem of_bind_ok {k : α → EStateM ε σ β} {b : β} (hbind : (x >>= k) f = .ok b h) :
    ∃ a g, x f = .ok a g ∧ k a g = .ok b h := by
  cases hx : x f with
  | ok a g => exact ⟨a, g, rfl, (bind_ok hx k).symm.trans hbind⟩
  | error e g =>
    rw [bind_error hx] at hbind
    cases hbind

theorem of_bind_error {k : α → EStateM ε σ β} {e : ε} (hbind : (x >>= k) f = .error e h) :
    x f = .error e h ∨ ∃ a g, x f = .ok a g ∧ k a g = .error e h := by
  cases hx : x f with
  | ok a g => exact .inr ⟨a, g, rfl, (bind_ok hx k).symm.trans hbind⟩
  | error e' g =>
    rw [bind_error hx] at hbind
    cases hbind
    exact .inl rfl

end

/-! ### What is left -/

/-- The frame that `x` leaves. -/
def after (x : Host τ κ α) (f : Frame τ κ) : Frame τ κ :=
  match x f with
  | .ok _ g => g
  | .error _ g => g

/-- Why `x` failed, if it did. -/
def failure? (x : Host τ κ α) (f : Frame τ κ) : Option OperationError :=
  match x f with
  | .ok _ _ => none
  | .error e _ => some e

section

variable {x : Host τ κ α} {f g : Frame τ κ}

theorem after_ok {a : α} (h : x f = .ok a g) : after x f = g := by rw [after, h]

theorem after_error {e : OperationError} (h : x f = .error e g) : after x f = g := by rw [after, h]

theorem failure?_ok {a : α} (h : x f = .ok a g) : failure? x f = none := by rw [failure?, h]

theorem failure?_error {e : OperationError} (h : x f = .error e g) : failure? x f = some e := by rw [failure?, h]

theorem after_bind_ok {a : α} (h : x f = .ok a g) (k : α → Host τ κ β) : after (x >>= k) f = after (k a) g := by
  rw [after, after, bind_ok h]

theorem after_bind_error {e : OperationError} (h : x f = .error e g) (k : α → Host τ κ β) :
    after (x >>= k) f = g :=
  after_error (bind_error h k)

end

/-! ### Memory and progress -/

theorem view_of_some {read : Memory → Option α} {f : Frame τ κ} {a : α} (h : read f.memory = some a) :
    view read f = .ok a f := by rw [view, h]

theorem view_of_none {read : Memory → Option α} {f : Frame τ κ} (h : read f.memory = none) :
    view read f = .error (.trap .memoryFault) f := by rw [view, h]

theorem of_view_ok {read : Memory → Option α} {f g : Frame τ κ} {a : α} (h : view read f = .ok a g) :
    read f.memory = some a ∧ g = f := by
  cases hread : read f.memory with
  | none =>
    rw [view_of_none hread] at h
    cases h
  | some b =>
    rw [view_of_some hread] at h
    cases h
    exact ⟨rfl, rfl⟩

theorem edit_of_some {write : Memory → Option Memory} {f : Frame τ κ} {memory : Memory}
    (h : write f.memory = some memory) : edit write f = .ok () { f with memory } := by rw [edit, h]

theorem edit_of_none {write : Memory → Option Memory} {f : Frame τ κ} (h : write f.memory = none) :
    edit write f = .error (.trap .memoryFault) f := by rw [edit, h]

theorem of_edit_ok {write : Memory → Option Memory} {f g : Frame τ κ} {a : Unit} (h : edit write f = .ok a g) :
    write f.memory = some g.memory := by
  cases hwrite : write f.memory with
  | none =>
    rw [edit_of_none hwrite] at h
    cases h
  | some memory =>
    rw [edit_of_some hwrite] at h
    cases h
    rfl

theorem eq_of_edit_ok {write : Memory → Option Memory} {f g : Frame τ κ} {a : Unit} (h : edit write f = .ok a g) :
    g = { f with memory := g.memory } := by
  have hwrite := edit_of_some (of_edit_ok h)
  rw [h] at hwrite
  exact (EStateM.Result.ok.inj hwrite).2

theorem advance_of_ok {step : Progress → Except OperationError Progress} {f : Frame τ κ} {progress : Progress}
    (h : step f.progress = .ok progress) : advance step f = .ok () { f with progress } := by rw [advance, h]

theorem ensureRunning_of_running {f : Frame τ κ} (h : f.progress.status = .running) :
    ensureRunning f = .ok () f := by
  simp only [ensureRunning, Progress.ensureRunning_of_running h]

theorem ensureRunning_of_ne {f : Frame τ κ} (h : f.progress.status ≠ .running) :
    ensureRunning f = .error (.ended f.progress.status) f := by
  simp only [ensureRunning, Progress.ensureRunning_of_ne h]

theorem trapping_ok {x : Host τ κ α} {f g : Frame τ κ} {a : α} (h : x f = .ok a g) :
    trapping x f = .ok a g := by rw [trapping, h]

theorem trapping_trap {x : Host τ κ α} {f g : Frame τ κ} {why : Trap} (h : x f = .error (.trap why) g) :
    trapping x f = .error (.trap why) { g with progress := g.progress.trap why } := by rw [trapping, h]

/-- Any other failure leaves the execution as it is. -/
theorem trapping_error {x : Host τ κ α} {f g : Frame τ κ} {e : OperationError} (h : x f = .error e g)
    (he : e.trap? = none) : trapping x f = .error e g := by
  rw [trapping, h]
  cases e with
  | trap why => cases he
  | ended _ | arity _ _ _ | internal _ => rfl

theorem trapping_congr {x y : Host τ κ α} {f g : Frame τ κ} (h : x f = y g) : trapping x f = trapping y g := by
  rw [trapping, trapping, h]

theorem silently_congr {x y : Host τ κ Unit} {f g : Frame τ κ} (h : x f = y g) : silently x f = silently y g := by
  unfold silently
  cases hy : y g with
  | ok a k => rw [bind_ok (h.trans hy), bind_ok hy]
  | error e k => rw [bind_error (h.trans hy), bind_error hy]

theorem of_trapping_ok {x : Host τ κ α} {f g : Frame τ κ} {a : α} (h : trapping x f = .ok a g) : x f = .ok a g := by
  cases hx : x f with
  | ok a' g' => exact (trapping_ok hx).symm.trans h
  | error e g' =>
    cases e with
    | trap why =>
      rw [trapping_trap hx] at h
      cases h
    | ended _ | arity _ _ _ | internal _ =>
      rw [trapping_error hx rfl] at h
      cases h

theorem of_trapping_error {x : Host τ κ α} {f g : Frame τ κ} {e : OperationError} (h : trapping x f = .error e g)
    (he : e.trap? = none) : x f = .error e g := by
  cases hx : x f with
  | ok a g' =>
    rw [trapping_ok hx] at h
    cases h
  | error e' g' =>
    cases e' with
    | trap why =>
      rw [trapping_trap hx] at h
      cases h
      cases he
    | ended _ | arity _ _ _ | internal _ =>
      rw [trapping_error hx rfl] at h
      exact h

/-! ### The state tree -/

section

variable [Tree τ] {f : Frame τ κ} {p : Path} {value : Bytes} {e : TreeError}

theorem lookupSlot_eq (self : Path) (key : Word) (f : Frame τ κ) :
    lookupSlot self key f = .ok (.slot (Tree.get f.tree (self.slot key)).1) { f with
      tree := (Tree.get f.tree (self.slot key)).2
      effects := f.effects.push (.get (self.slot key)) } := rfl

theorem put_of_ok (h : (Tree.set f.tree p value).1 = .ok ()) :
    put p value f =
      .ok () { f with tree := (Tree.set f.tree p value).2, effects := f.effects.push (.set p value) } := by
  simp only [put, accepted, h]

/-- Whether or not the tree accepts, it was asked. -/
theorem after_put (p : Path) (value : Bytes) (f : Frame τ κ) :
    after (put p value) f =
      { f with tree := (Tree.set f.tree p value).2, effects := f.effects.push (.set p value) } := by
  cases h : (Tree.set f.tree p value).1 <;> simp only [after, put, accepted, h]

theorem after_remove (p : Path) (f : Frame τ κ) :
    after (remove p) f =
      { f with tree := (Tree.delete f.tree p).2, effects := f.effects.push (.delete p) } := by
  cases h : (Tree.delete f.tree p).1 <;> simp only [after, remove, accepted, h]

theorem of_put_error {e : OperationError} {g : Frame τ κ} (h : put p value f = .error e g) :
    ∃ why, (Tree.set f.tree p value).1 = .error why ∧ e = .internal why.message := by
  cases hset : (Tree.set f.tree p value).1 with
  | ok _ => simp [put, accepted, hset] at h
  | error why =>
    simp only [put, accepted, hset, EStateM.Result.error.injEq] at h
    exact ⟨why, rfl, h.1.symm⟩

theorem of_remove_error {e : OperationError} {g : Frame τ κ} (h : remove p f = .error e g) :
    ∃ why, (Tree.delete f.tree p).1 = .error why ∧ e = .internal why.message := by
  cases hdelete : (Tree.delete f.tree p).1 with
  | ok _ => simp [remove, accepted, hdelete] at h
  | error why =>
    simp only [remove, accepted, hdelete, EStateM.Result.error.injEq] at h
    exact ⟨why, rfl, h.1.symm⟩

theorem remove_of_ok (h : (Tree.delete f.tree p).1 = .ok ()) :
    remove p f = .ok () { f with tree := (Tree.delete f.tree p).2, effects := f.effects.push (.delete p) } := by
  simp only [remove, accepted, h]

end

/-! ### Paying -/

theorem charge_of_le {amount : UInt64} {f : Frame τ κ} (h : amount.toNat ≤ f.meter.remaining.toNat) :
    charge amount f = .ok () (f.spend amount.toNat) := by
  have hle : amount ≤ f.meter.remaining := UInt64.le_iff_toNat_le.2 h
  have hlt : ¬ f.meter.remaining < amount := UInt64.not_lt.2 hle
  have hsub : f.meter.remaining - amount = UInt64.ofNat (f.meter.remaining.toNat - amount.toNat) := by
    rw [UInt64.ofNat_sub h, UInt64.ofNat_toNat, UInt64.ofNat_toNat]
  simp only [charge, Gas.Meter.charge?, if_neg hlt, hsub, Frame.spend]

theorem charge_of_lt {amount : UInt64} {f : Frame τ κ} (h : f.meter.remaining.toNat < amount.toNat) :
    charge amount f = .error (.trap .outOfGas) f := by
  rw [charge, Gas.Meter.charge?_eq_none_iff.2 h]

theorem of_charge_ok {amount : UInt64} {f g : Frame τ κ} {a : Unit} (h : charge amount f = .ok a g) :
    amount.toNat ≤ f.meter.remaining.toNat ∧ g = f.spend amount.toNat := by
  rcases Nat.lt_or_ge f.meter.remaining.toNat amount.toNat with hlt | hle
  · rw [charge_of_lt hlt] at h
    cases h
  · rw [charge_of_le hle] at h
    cases h
    exact ⟨hle, rfl⟩

theorem of_charge_error {amount : UInt64} {f g : Frame τ κ} {e : OperationError}
    (h : charge amount f = .error e g) : e = .trap .outOfGas := by
  rcases Nat.lt_or_ge f.meter.remaining.toNat amount.toNat with hlt | hle
  · rw [charge_of_lt hlt] at h
    cases h
    rfl
  · rw [charge_of_le hle] at h
    cases h

theorem after_charge (amount : UInt64) (f : Frame τ κ) :
    after (charge amount) f = f ∨ after (charge amount) f = f.spend amount.toNat := by
  rcases Nat.lt_or_ge f.meter.remaining.toNat amount.toNat with hlt | hle
  · exact .inl (after_error (charge_of_lt hlt))
  · exact .inr (after_ok (charge_of_le hle))

/-- What the caller must have in order to call with a value. -/
private theorem toNat_callValue_add (gas : UInt64) :
    (Gas.add (Gas.callValue - Gas.callStipend) gas).toNat = min (6700 + gas.toNat) Gas.cap := by
  rw [Gas.toNat_add]
  rfl

theorem refund_eq (amount : UInt64) (f : Frame τ κ) :
    refund amount f = .ok () { f with meter := f.meter.refund amount } := rfl

theorem of_refund_ok {amount : UInt64} {f g : Frame τ κ} {a : Unit} (h : refund amount f = .ok a g) :
    g = { f with meter := f.meter.refund amount } := by
  cases h
  rfl

theorem refund_bind (amount : UInt64) (x : Host τ κ α) (f : Frame τ κ) :
    (do refund amount; x) f = x { f with meter := f.meter.refund amount } :=
  bind_ok (refund_eq amount f) _

theorem payCall_of_eq {c : SubCall} (h : c.value = 0) (f : Frame τ κ) : payCall c f = .ok () f := by
  rw [payCall, if_neg (not_not_intro h)]
  rfl

/-- The gas that comes back is the callee's, or what is left of it at the largest amount. -/
theorem payCall_of_le {c : SubCall} {f : Frame τ κ} (hvalue : c.value ≠ 0)
    (h : min (6700 + c.gas.toNat) Gas.cap ≤ f.meter.remaining.toNat) :
    payCall c f = .ok () (f.spend (min (6700 + c.gas.toNat) Gas.cap - c.gas.toNat)) := by
  have hgas := c.gas.toNat_lt
  have hremaining := f.meter.remaining.toNat_lt
  have hcap : Gas.cap = 2 ^ 64 - 1 := rfl
  have hcharge := charge_of_le (f := f) (Nat.le_trans (Nat.le_of_eq (toNat_callValue_add c.gas)) h)
  rw [payCall, if_pos hvalue, bind_ok hcharge, toNat_callValue_add]
  simp only [restore, Gas.Meter.restore, Frame.spend]
  congr 3
  rw [← UInt64.toNat_inj, Gas.toNat_add, toNat_ofNat_sub, toNat_ofNat_sub]
  omega

theorem payCall_of_lt {c : SubCall} {f : Frame τ κ} (hvalue : c.value ≠ 0)
    (h : f.meter.remaining.toNat < min (6700 + c.gas.toNat) Gas.cap) :
    payCall c f = .error (.trap .outOfGas) f := by
  rw [← toNat_callValue_add] at h
  rw [payCall, if_pos hvalue, bind_error (charge_of_lt h)]

end Host

end ContractHost
