import ContractHost.Proofs.Runs

/-!
# What goes unnoticed

`Frame.exchange` changes the gas that is left on a frame and the kernel that it has, and nothing else.  Only steps
that pay can notice the one, and only steps that send a message the other.  So an operation that does neither, or what
is left of it afterwards, does the same on the frame so changed, and leaves it changed in the same way
(`Transacts.unnoticed`).  That follows for every operation from its shape.
-/

namespace ContractHost

variable {τ κ : Type}

namespace Frame

/-- The frame with other gas and another kernel. -/
def exchange (gas : UInt64 → UInt64) (kernel : κ → κ) (f : Frame τ κ) : Frame τ κ :=
  { f with meter := { f.meter with remaining := gas f.meter.remaining }, kernel := kernel f.kernel }

/-- The frame with the kernel `k`. -/
abbrev withKernel (k : κ) : Frame τ κ → Frame τ κ := exchange id fun _ => k

theorem spend_eq (amount : Nat) : (fun f : Frame τ κ => f.spend amount) =
    exchange (fun gas => UInt64.ofNat (gas.toNat - amount)) id := rfl

theorem spend_add (f : Frame τ κ) (a b : Nat) : f.spend (a + b) = (f.spend a).spend b := by
  have hgas := f.toNat_remaining_spend a
  unfold spend at hgas ⊢
  rw [hgas, Nat.sub_sub]

end Frame

namespace Host

variable {α β : Type} {φ : Frame τ κ → Frame τ κ} {f : Frame τ κ}

/-- The same result, with the frame changed by `φ`. -/
def onFrame {ε σ : Type} (φ : σ → σ) : EStateM.Result ε σ α → EStateM.Result ε σ α
  | .ok a g => .ok a (φ g)
  | .error e g => .error e (φ g)

/-- `x` does the same on `f` if it is changed by `φ`, and leaves it changed. -/
def Unnoticed (φ : Frame τ κ → Frame τ κ) (x : Host τ κ α) (f : Frame τ κ) : Prop := x (φ f) = onFrame φ (x f)

theorem Unnoticed.bind {x : Host τ κ α} {k : α → Host τ κ β} (hx : Unnoticed φ x f)
    (hk : ∀ a g, x f = .ok a g → Unnoticed φ (k a) g) : Unnoticed φ (x >>= k) f := by
  unfold Unnoticed at hx ⊢
  cases h : x f with
  | ok a g =>
    rw [h] at hx
    rw [bind_ok hx, bind_ok h]
    exact hk a g h
  | error e g =>
    rw [h] at hx
    rw [bind_error hx, bind_error h]
    rfl

section

variable {gas : UInt64 → UInt64} {kernel : κ → κ}

theorem trapping_onFrame {x : Host τ κ α} {g : Frame τ κ} (h : x g = onFrame (Frame.exchange gas kernel) (x f)) :
    trapping x g = onFrame (Frame.exchange gas kernel) (trapping x f) := by
  unfold Host.trapping
  rw [h]
  cases x f with
  | ok a g => rfl
  | error e g => cases e <;> rfl

theorem Unnoticed.trapping {x : Host τ κ α} (h : Unnoticed (Frame.exchange gas kernel) x f) :
    Unnoticed (Frame.exchange gas kernel) (trapping x) f :=
  trapping_onFrame h

/-! ### Steps -/

theorem unnoticed_charge (amount : UInt64) (f : Frame τ κ) :
    Unnoticed (Frame.exchange id kernel) (charge amount) f := by
  simp only [Unnoticed, charge, Frame.exchange, id]
  cases f.meter.charge? amount <;> rfl

theorem unnoticed_restore (amount : UInt64) (f : Frame τ κ) :
    Unnoticed (Frame.exchange id kernel) (restore amount) f := rfl

theorem unnoticed_payCall (c : SubCall) (f : Frame τ κ) : Unnoticed (Frame.exchange id kernel) (payCall c) f := by
  unfold payCall
  split
  · exact (unnoticed_charge _ f).bind fun _ g _ => unnoticed_restore _ g
  · rfl

theorem unnoticed_view (read : Memory → Option α) (f : Frame τ κ) :
    Unnoticed (Frame.exchange gas kernel) (view read) f := by
  simp only [Unnoticed, view, Frame.exchange]
  cases read f.memory <;> rfl

theorem unnoticed_edit (write : Memory → Option Memory) (f : Frame τ κ) :
    Unnoticed (Frame.exchange gas kernel) (edit write) f := by
  simp only [Unnoticed, edit, Frame.exchange]
  cases write f.memory <;> rfl

theorem unnoticed_advance (step : Progress → Except OperationError Progress) (f : Frame τ κ) :
    Unnoticed (Frame.exchange gas kernel) (advance step) f := by
  simp only [Unnoticed, advance, Frame.exchange]
  cases step f.progress <;> rfl

theorem unnoticed_refund (amount : UInt64) (f : Frame τ κ) :
    Unnoticed (Frame.exchange gas kernel) (refund amount) f := rfl

section

variable [Tree τ]

theorem unnoticed_put (p : Path) (value : Bytes) (f : Frame τ κ) :
    Unnoticed (Frame.exchange gas kernel) (put p value) f := by
  simp only [Unnoticed, put, Frame.exchange]
  cases (Tree.set f.tree p value).1 <;> rfl

theorem unnoticed_remove (p : Path) (f : Frame τ κ) : Unnoticed (Frame.exchange gas kernel) (remove p) f := by
  simp only [Unnoticed, remove, Frame.exchange]
  cases (Tree.delete f.tree p).1 <;> rfl

/-- No act pays or sends anything. -/
theorem unnoticed_run (c : Commit) (f : Frame τ κ) : Unnoticed (Frame.exchange gas kernel) c.run f := by
  cases c with
  | write offset b => exact unnoticed_edit (·.write? offset b) f
  | fill offset length b => exact unnoticed_edit (·.writePadded? offset length b) f
  | log entry => exact unnoticed_advance (·.log entry) f
  | halt output => exact unnoticed_advance (·.halt output) f
  | destroy beneficiary =>
    exact (unnoticed_refund Gas.selfDestruct f).bind fun _ g _ => unnoticed_advance (·.selfDestruct beneficiary) g
  | put p value => exact unnoticed_put p value f
  | remove p => exact unnoticed_remove p f
  | clear p => exact (unnoticed_refund Gas.slotClearing f).bind fun _ g _ => unnoticed_remove p g

end

/-! ### Operations -/

variable [Tree τ] [Kernel κ] {M : Memory} {pays : Prop} {P : Effect → Prop} {C : Commit → Prop} {n : Nat}

theorem Prepares.unnoticed {x : Host τ κ α} (h : Prepares M pays P n x) (hpays : pays → gas = id)
    (hP : ∀ message, ¬ P (.send message)) (hM : f.memory = M) : Unnoticed (Frame.exchange gas kernel) x f := by
  induction h generalizing f with
  | pure _ | invalid => rfl
  | charge amount h =>
    obtain rfl := hpays h
    exact unnoticed_charge amount f
  | payCall c h =>
    obtain rfl := hpays h
    exact unnoticed_payCall c f
  | view read => exact unnoticed_view read f
  | fetch _ | fetchHash _ => rfl
  | send h => exact absurd h (hP _)
  | bind hx _ _ ihx ihg =>
    refine (ihx hM).bind fun a g hok => ?_
    -- Preparing leaves the memory as it was, so what follows is prepared on the same memory.
    exact ihg a ⟨f, g, hM, hok⟩ ((hx.asked hM hok).memory.trans hM)
  | mono _ _ ih => exact ih hM

/-- What pays nothing, unless the gas stays the same, and sends nothing does not notice the exchange. -/
theorem Transacts.unnoticed {x : Host τ κ α} (h : Transacts M pays P C n x) (hpays : pays → gas = id)
    (hP : ∀ message, ¬ P (.send message)) (hM : f.memory = M) : Unnoticed (Frame.exchange gas kernel) x f := by
  induction h generalizing f with
  | prepares hx => exact hx.unnoticed hpays hP hM
  | commit c _ => exact unnoticed_run c f
  | bind hx _ _ ihg =>
    refine (hx.unnoticed hpays hP hM).bind fun a g hok => ?_
    exact ihg a ⟨f, g, hM, hok⟩ ((hx.asked hM hok).memory.trans hM)
  | report _ _ ih => exact (ih hM).bind fun _ _ _ => rfl
  | mono _ _ ih => exact ih hM

end

end Host

end ContractHost
