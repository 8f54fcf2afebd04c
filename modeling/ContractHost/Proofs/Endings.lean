import ContractHost.Proofs.Inquiry

/-!
# How an operation ends

After an operation has prepared it is over, or one of its acts decides how it ends (`Ending`).  An act of a running
execution takes no gas; only a range outside the memory stops it before it has done anything, and only a tree that
refuses to be changed makes it fail.  `invoke_ending` says this of a whole invocation: all that it may leave is
known from the frame that the preparation leaves and from the act.
-/

namespace ContractHost

variable {τ κ : Type}

/-- Whether the act changes the state tree. -/
def Commit.Alters : Commit → Prop
  | put .. | remove _ | clear _ => True
  | _ => False

/-- Only stores alter the tree. -/
theorem Request.eq_store_of_alters {m : Message} {M : Memory} {r : Request} {c : Commit} (hc : r.Commits m M c)
    (halters : c.Alters) : ∃ (key value : UInt32) (k v : Word), r = .storageStore key value ∧
      M.readVector? 32 key = some k ∧ M.readVector? 32 value = some v := by
  cases r with
  | storageStore key value =>
    obtain ⟨k, v, hk, hv, -⟩ := hc
    exact ⟨key, value, k, v, rfl, hk, hv⟩
  | _ => cases c <;> simp [Request.Commits, Commit.Alters] at hc halters

theorem Request.not_alters_of_commits {m : Message} {M : Memory} {r : Request} {c : Commit} (hc : r.Commits m M c)
    (hstore : r.operation ≠ .storageStore) : ¬ c.Alters := by
  intro halters
  obtain ⟨key, value, _, _, rfl, -⟩ := eq_store_of_alters hc halters
  exact hstore rfl

namespace Frame

/-- `g` has all the gas of `f` and no refund less, and the same tree unless it was altered. -/
structure Spared (alters : Prop) (f g : Frame τ κ) : Prop where
  remaining : g.meter.remaining = f.meter.remaining
  limit : g.meter.limit = f.meter.limit
  refunded : f.meter.refunded ≤ g.meter.refunded
  tree : alters ∨ g.tree = f.tree

variable {alters : Prop} {f g h : Frame τ κ}

theorem Spared.of_meter_eq (hmeter : g.meter = f.meter) (htree : alters ∨ g.tree = f.tree) : f.Spared alters g where
  remaining := by rw [hmeter]
  limit := by rw [hmeter]
  refunded := by
    rw [hmeter]
    exact UInt64.le_refl _
  tree := htree

theorem Spared.of_refund {amount : UInt64} (hg : Spared alters { f with meter := f.meter.refund amount } g) :
    f.Spared alters g where
  remaining := hg.remaining
  limit := hg.limit
  refunded := by
    have hadd : f.meter.refunded ≤ Gas.add f.meter.refunded amount := by
      have hlt := f.meter.refunded.toNat_lt
      rw [UInt64.le_iff_toNat_le, Gas.toNat_add, show Gas.cap = 2 ^ 64 - 1 from rfl]
      omega
    exact UInt64.le_trans hadd hg.refunded
  tree := hg.tree

/-- The frame in which a trap has aborted the execution. -/
def trapped (why : Trap) (f : Frame τ κ) : Frame τ κ := { f with progress := f.progress.trap why }

end Frame

namespace Host

variable [Tree τ] {α β : Type} {M : Memory} {pays : Prop} {P : Effect → Prop} {C : Commit → Prop} {n : Nat}
variable {mark : Trap → Frame τ κ → Frame τ κ} {f f' g : Frame τ κ}

/-- The ways in which `x` may end on `f` if the preparation leaves `g`: done without an act, stopped by a trap,
which is marked by `mark`, or as an act in `C` ends. -/
inductive Ending (mark : Trap → Frame τ κ → Frame τ κ) (pays : Prop) (C : Commit → Prop) (x : Host τ κ α)
    (f g : Frame τ κ) : Prop
  | done (a : α) (h : x f = .ok a g)
  | trap (why : Trap) (h : x f = .error (.trap why) (mark why g)) (hpays : why = .outOfGas → pays)
  | commit (c : Commit) (a : α) (k : Frame τ κ) (hc : C c) (hrun : c.run g = .ok () k) (h : x f = .ok a k)
      (hspared : g.Spared c.Alters k)
  | refuse (c : Commit) (text : String) (k : Frame τ κ) (hc : C c) (halters : c.Alters)
      (hrun : c.run g = .error (.internal text) k) (h : x f = .error (.internal text) k)
      (hspared : g.Spared c.Alters k)

theorem EndsAt.ending {x : Host τ κ α} (h : EndsAt pays x f g) : Ending (fun _ g => g) pays C x f g := by
  cases h with
  | ok a h => exact .done a h
  | trap why h hpays => exact .trap why h hpays

/-- A computation that ends as `x` does, whatever it makes of the value and however it marks traps. -/
theorem Ending.map {mark' : Trap → Frame τ κ → Frame τ κ} {pays' : Prop} {x : Host τ κ α} {y : Host τ κ β}
    (h : Ending mark pays C x f' g) (hpays : pays → pays') (hok : ∀ a k, x f' = .ok a k → ∃ b, y f = .ok b k)
    (htrap : ∀ why, x f' = .error (.trap why) (mark why g) → y f = .error (.trap why) (mark' why g))
    (hinternal : ∀ text k, x f' = .error (.internal text) k → y f = .error (.internal text) k) :
    Ending mark' pays' C y f g := by
  cases h with
  | done a h =>
    obtain ⟨b, hb⟩ := hok a g h
    exact .done b hb
  | trap why h hp => exact .trap why (htrap why h) fun hwhy => hpays (hp hwhy)
  | commit c a k hc hrun h hspared =>
    obtain ⟨b, hb⟩ := hok a k h
    exact .commit c b k hc hrun hb hspared
  | refuse c text k hc halters hrun h hspared => exact .refuse c text k hc halters hrun (hinternal text k h) hspared

theorem Ending.of_eq {x y : Host τ κ α} (h : Ending mark pays C y f' g) (heq : x f = y f') :
    Ending mark pays C x f g :=
  h.map id (fun a _ hy => ⟨a, heq.trans hy⟩) (fun _ hy => heq.trans hy) fun _ _ hy => heq.trans hy

theorem Ending.weaken {x : Host τ κ α} (h : Ending mark pays C x f g) : Ending mark True C x f g :=
  h.map (fun _ => trivial) (fun a _ hx => ⟨a, hx⟩) (fun _ hx => hx) fun _ _ hx => hx

theorem Ending.report {x : Host τ κ α} (h : Ending (fun _ g => g) pays C x f g) (b : α → β) :
    Ending (fun _ g => g) pays C (x >>= fun a => pure (b a)) f g :=
  h.map id (fun a _ hx => ⟨b a, bind_ok hx _⟩) (fun _ hx => bind_error hx _) fun _ _ hx => bind_error hx _

theorem Ending.trapping {x : Host τ κ α} (h : Ending (fun _ g => g) pays C x f g) :
    Ending Frame.trapped pays C (trapping x) f g :=
  h.map id (fun a _ hx => ⟨a, trapping_ok hx⟩) (fun _ hx => trapping_trap hx) fun _ _ hx => trapping_error hx rfl

/-! ### The acts -/

private theorem ending_of_ok {c : Commit} {k : Frame τ κ} (hc : C c) (hrun : c.run f = .ok () k)
    (hspared : f.Spared c.Alters k) : Ending mark pays C c.run f f :=
  .commit c () k hc hrun hrun hspared

private theorem ending_of_edit {c : Commit} {write : Memory → Option Memory} (hc : C c)
    (hedit : c.run f = edit write f) : Ending (fun _ g => g) pays C c.run f f := by
  cases h : write f.memory with
  | none => exact .trap .memoryFault (hedit.trans (edit_of_none h)) (by simp)
  | some memory => exact ending_of_ok hc (hedit.trans (edit_of_some h)) (.of_meter_eq rfl (.inr rfl))

private theorem ending_of_accepted {c : Commit} {answer : Except TreeError Unit} {k : Frame τ κ} (hc : C c)
    (halters : c.Alters) (haccepted : c.run f = accepted answer k) (hspared : f.Spared c.Alters k) :
    Ending mark pays C c.run f f := by
  cases answer with
  | ok _ => exact ending_of_ok hc haccepted hspared
  | error e => exact .refuse c e.message k hc halters haccepted haccepted hspared

/-- An act of a running execution is carried out, or stopped before it has done anything, or refused by the tree. -/
theorem Commit.ending {c : Commit} (hc : C c) (hrun : f.progress.status = .running) :
    Ending (fun _ g => g) pays C c.run f f := by
  cases c with
  | write offset b =>
    have hedit : (Commit.write offset b).run f = edit (·.write? offset b) f := rfl
    exact ending_of_edit hc hedit
  | fill offset length b =>
    have hedit : (Commit.fill offset length b).run f = edit (·.writePadded? offset length b) f := rfl
    exact ending_of_edit hc hedit
  | log entry =>
    have hlog : advance (·.log entry) f = .ok () _ := advance_of_ok (Progress.log_of_running hrun entry)
    exact ending_of_ok hc hlog (.of_meter_eq rfl (.inr rfl))
  | halt output =>
    have hhalt : advance (·.halt output) f = .ok () _ := advance_of_ok (Progress.halt_of_running hrun output)
    exact ending_of_ok hc hhalt (.of_meter_eq rfl (.inr rfl))
  | destroy beneficiary =>
    have hdestroy : advance (·.selfDestruct beneficiary) { f with meter := f.meter.refund Gas.selfDestruct } =
        .ok () _ := advance_of_ok (Progress.selfDestruct_of_running hrun beneficiary)
    exact ending_of_ok hc ((refund_bind ..).trans hdestroy) (.of_refund (.of_meter_eq rfl (.inr rfl)))
  | put p value => exact ending_of_accepted hc trivial rfl (.of_meter_eq rfl (.inl trivial))
  | remove p => exact ending_of_accepted hc trivial rfl (.of_meter_eq rfl (.inl trivial))
  | clear p => exact ending_of_accepted hc trivial (refund_bind ..) (.of_refund (.of_meter_eq rfl (.inl trivial)))

/-! ### The operation as a whole -/

variable [Kernel κ]

/-- A computation of this shape prepares, and then it is over or ends as one of its acts does. -/
theorem Transacts.ending {x : Host τ κ α} (h : Transacts M pays P C n x) (hM : f.memory = M)
    (hrun : f.progress.status = .running) :
    ∃ g, f.Asked pays P n g ∧ Ending (fun _ g => g) pays C x f g := by
  induction h generalizing f with
  | prepares hx =>
    obtain ⟨g, hfg, hend⟩ := hx.inquiry hM
    exact ⟨g, hfg, hend.ending⟩
  | commit c hc => exact ⟨f, .refl f, Commit.ending hc hrun⟩
  | bind hx hg hn ihg =>
    rename_i n k l α β x next
    subst hn
    obtain ⟨g, hfg, hend⟩ := hx.inquiry hM
    cases hend with
    | ok a hxf =>
      obtain ⟨h, hgh, hend⟩ := ihg a ⟨f, g, hM, hxf⟩ (hfg.memory.trans hM) (hfg.progress ▸ hrun)
      exact ⟨h, hfg.trans hgh, hend.of_eq (bind_ok hxf next)⟩
    | trap why hxf hpays => exact ⟨g, hfg.mono (Nat.le_add_right ..), .trap why (bind_error hxf next) hpays⟩
  | report hx b ih =>
    obtain ⟨g, hfg, hend⟩ := ih hM hrun
    exact ⟨g, hfg, hend.report b⟩
  | mono _ hn ih =>
    obtain ⟨g, hfg, hend⟩ := ih hM hrun
    exact ⟨g, hfg.mono hn, hend⟩

section

variable {m : Message} {op : Operation} {args : List UInt64} {r : Request}

/-- An execution that has ended refuses every operation. -/
theorem invoke_of_terminal (h : f.progress.status ≠ .running) :
    invoke m op args f = .error (.ended f.progress.status) f := by
  rw [invoke, bind_error (ensureRunning_of_ne h)]

theorem invoke_of_arity (hrun : f.progress.status = .running) (hr : Request.ofArgs? op args = none) :
    invoke m op args f = .error (.arity op op.params.length args.length) f := by
  rw [invoke, bind_ok (ensureRunning_of_running hrun)]
  simp only [hr]
  rfl

theorem invoke_eq (hrun : f.progress.status = .running) (hr : Request.ofArgs? op args = some r) :
    invoke m op args f = trapping (do charge op.cost; serve m r) f := by
  rw [invoke, bind_ok (ensureRunning_of_running hrun)]
  simp only [hr]

theorem invoke_of_lt (hrun : f.progress.status = .running) (hr : Request.ofArgs? op args = some r)
    (hlt : f.meter.remaining.toNat < op.cost.toNat) :
    invoke m op args f = .error (.trap .outOfGas) (f.trapped .outOfGas) :=
  (invoke_eq hrun hr).trans (trapping_trap (bind_error (charge_of_lt hlt) _))

theorem invoke_of_le (hrun : f.progress.status = .running) (hr : Request.ofArgs? op args = some r)
    (hle : op.cost.toNat ≤ f.meter.remaining.toNat) :
    invoke m op args f = trapping (serve m r) (f.spend op.cost.toNat) :=
  (invoke_eq hrun hr).trans (trapping_congr (bind_ok (charge_of_le hle) _))

/-- An invocation lacks gas, or it prepares what the request asks for and ends as the request may. -/
theorem invoke_ending (hrun : f.progress.status = .running) (hr : Request.ofArgs? op args = some r) :
    ∃ g, f.Asked True (r.Asks m f.memory) 1 g ∧
      Ending Frame.trapped True (r.Commits m f.memory) (invoke m op args) f g ∧
      (failure? (invoke m op args) f = some (.trap .outOfGas) ∨
        op.cost.toNat + g.meter.remaining.toNat ≤ f.meter.remaining.toNat) := by
  rcases Nat.lt_or_ge f.meter.remaining.toNat op.cost.toNat with hlt | hle
  · have htrap := invoke_of_lt (m := m) hrun hr hlt
    exact ⟨f, .mono (.refl f) (Nat.zero_le 1), .trap _ htrap fun _ => trivial, .inl (failure?_error htrap)⟩
  · have hshape := transacts_serve (τ := τ) (κ := κ) m f.memory r
    obtain ⟨g, hasked, hend⟩ := hshape.ending (f := f.spend op.cost.toNat) rfl hrun
    -- The base price is one more payment before what the request itself prepares.
    have hall : f.Asked True (r.Asks m f.memory) 1 g := (Frame.Asked.spend trivial f _).trans hasked.weaken
    refine ⟨g, hall, (hend.weaken.trapping).of_eq (invoke_of_le hrun hr hle), .inr ?_⟩
    have hspent := UInt64.le_iff_toNat_le.1 hasked.remaining
    rw [Frame.toNat_remaining_spend] at hspent
    omega

end

end Host

end ContractHost
