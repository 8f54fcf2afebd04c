import ContractHost.Proofs.Price
import ContractHost.Proofs.Runs

/-!
# Where the gas goes

No turn gives gas back or takes a refund away (`turn_later`).  One that finds the execution running and the right
number of arguments, and does not trap, uses up at least two units (`drop_of_untrapped`).  So in every run what is left
and what was used make up what the message brought, as the final report says, and at most half as many turns as there
is gas are carried out (`gas_conserved`).
-/

namespace ContractHost

variable {τ κ : Type}

/-- `g` may come after `f` on the same meter. -/
structure Frame.Later (f g : Frame τ κ) : Prop where
  limit : g.meter.limit = f.meter.limit
  remaining : g.meter.remaining ≤ f.meter.remaining
  refunded : f.meter.refunded ≤ g.meter.refunded

namespace Frame

variable {f g h : Frame τ κ}

theorem Later.of_meter_eq (hmeter : g.meter = f.meter) : f.Later g := by
  constructor <;> rw [hmeter] <;> exact UInt64.le_refl _

theorem Later.trans (hfg : f.Later g) (hgh : g.Later h) : f.Later h where
  limit := hgh.limit.trans hfg.limit
  remaining := UInt64.le_trans hgh.remaining hfg.remaining
  refunded := UInt64.le_trans hfg.refunded hgh.refunded

theorem Spared.later {alters : Prop} (hfg : f.Spared alters g) : f.Later g where
  limit := hfg.limit
  remaining := UInt64.le_of_eq hfg.remaining
  refunded := hfg.refunded

variable [Tree τ] [Kernel κ]

theorem Asked.later {pays : Prop} {P : Effect → Prop} {n : Nat} (hfg : f.Asked pays P n g) : f.Later g where
  limit := hfg.limit
  remaining := hfg.remaining
  refunded := UInt64.le_of_eq hfg.refunded.symm

end Frame

namespace Host

variable [Tree τ] [Kernel κ] {m : Message} {op : Operation} {args : List UInt64} {f : Frame τ κ}

theorem invoke_later (m : Message) (op : Operation) (args : List UInt64) (f : Frame τ κ) :
    f.Later (after (invoke m op args) f) := by
  rcases invoke_cases m op args f with ⟨e, hinvoke⟩ | ⟨hrun, r, hr⟩
  · rw [after_error hinvoke]
    exact .of_meter_eq rfl
  · obtain ⟨g, hasked, hend, -⟩ := invoke_ending (m := m) hrun hr
    cases hend with
    | done a h =>
      rw [after_ok h]
      exact hasked.later
    | trap why h _ =>
      rw [after_error h]
      exact hasked.later.trans (.of_meter_eq rfl)
    | commit c a k _ _ h hspared =>
      rw [after_ok h]
      exact hasked.later.trans hspared.later
    | refuse c text k _ _ _ h hspared =>
      rw [after_error h]
      exact hasked.later.trans hspared.later

theorem turn_later (m : Message) (f : Frame τ κ) (t : Turn) : f.Later (turn m f t).2 := by
  have hmemory : f.Later { f with memory := t.memory } := .of_meter_eq rfl
  rw [turn_snd]
  exact hmemory.trans (invoke_later ..)

/-! ### Progress -/

/-- Whatever has no base price has a surcharge. -/
theorem two_le_price (m : Message) (f : Frame τ κ) (r : Request) :
    2 ≤ r.operation.cost.toNat + r.surcharge m f := by
  cases r with
  | callDataCopy _ _ _ | codeCopy _ _ _ | externalCodeCopy _ _ _ _ | log _ _ _ _ _ _ _ =>
    simp only [Request.surcharge]
    omega
  | _ => exact Nat.le_add_right_of_le (Nat.le_of_ble_eq_true rfl)

/-- Of what is carried out, or fails in the host only, the price is gone. -/
theorem drop_of_untrapped {r : Request} (hrun : f.progress.status = .running)
    (hr : Request.ofArgs? op args = some r) (htrap : ∀ why, failure? (invoke m op args) f ≠ some (.trap why)) :
    (after (invoke m op args) f).meter.remaining.toNat + 2 ≤ f.meter.remaining.toNat := by
  obtain ⟨g, -, hend, hpaid⟩ := invoke_ending (m := m) hrun hr
  cases h : invoke m op args f with
  | ok a k =>
    have hprice := ((priced_invoke hrun hr).ok a k h).2
    have hle := two_le_price m f r
    rw [Request.operation_of_ofArgs? hr] at hle
    rw [after_ok h]
    omega
  | error e k =>
    cases hend with
    | done _ h' | commit _ _ _ _ _ h' _ =>
      rw [h'] at h
      cases h
    | trap why h' _ => exact absurd (failure?_error h') (htrap why)
    | refuse c text k' hc halters _ h' hspared =>
      obtain ⟨key, value, _, _, rfl, -⟩ := Request.eq_store_of_alters hc halters
      obtain rfl := Request.operation_of_ofArgs? hr
      have hbase : (Request.storageStore key value).operation.cost.toNat = 5000 := rfl
      have hle := hpaid.resolve_left (htrap .outOfGas)
      rw [after_error h', hspared.remaining]
      omega

theorem drop_of_isOk {t : Turn} (h : (turn m f t).1.isOk = true) :
    (turn m f t).2.meter.remaining.toNat + 2 ≤ f.meter.remaining.toNat := by
  have hfail (e : OperationError) : failure? (invoke m t.op t.args) { f with memory := t.memory } ≠ some e := by
    intro he
    rw [turn_fst_eq_error_iff.2 he] at h
    cases h
  rw [turn_snd]
  rcases invoke_cases m t.op t.args { f with memory := t.memory } with ⟨e, hinvoke⟩ | ⟨hrun, r, hr⟩
  · exact absurd (failure?_error hinvoke) (hfail e)
  · exact drop_of_untrapped hrun hr fun why => hfail _

/-- Two units of gas for each answer without a failure, and what is left, make up no more than what was there. -/
theorem two_mul_count_le (m : Message) (f : Frame τ κ) (turns : List Turn) :
    2 * (play m f turns).1.countP (·.2.isOk) + (play m f turns).2.meter.remaining.toNat ≤
      f.meter.remaining.toNat := by
  induction turns generalizing f with
  | nil => exact Nat.le_of_eq (Nat.zero_add _)
  | cons t turns ih =>
    have hrest := ih (turn m f t).2
    have hcount : (play m f (t :: turns)).1.countP (·.2.isOk) =
        (play m (turn m f t).2 turns).1.countP (·.2.isOk) + if (turn m f t).1.isOk then 1 else 0 := by
      rw [play, List.countP_cons]
    have hframe : (play m f (t :: turns)).2 = (play m (turn m f t).2 turns).2 := rfl
    rw [hcount, hframe]
    -- A turn counts only if it has used up its two units, and none gives any back.
    split
    · rename_i hok
      have hdrop := drop_of_isOk hok
      omega
    · have hlater := UInt64.le_iff_toNat_le.1 (turn_later m f t).remaining
      omega

/-- In every run what is left and what was used make up the gas of the message, and every turn that is carried out
takes some. -/
theorem gas_conserved (m : Message) (tree : τ) (kernel : κ) (memory : Memory) (turns : List Turn) :
    let run := play m (.start m tree kernel memory) turns
    run.2.meter.remaining ≤ m.gas ∧
    run.2.meter.remaining.toNat + run.2.meter.used.toNat = m.gas.toNat ∧
    run.2.finish.gasLeft = run.2.meter.remaining ∧
    run.2.finish.gasUsed = run.2.meter.used ∧
    (∀ t, (turn m run.2 t).2.meter.remaining ≤ run.2.meter.remaining ∧
      run.2.meter.refunded ≤ (turn m run.2 t).2.meter.refunded) ∧
    (∀ t, run.2.progress.status = .running → t.args.length = t.op.params.length →
      (∀ why, (turn m run.2 t).1 ≠ .error (.trap why)) →
      (turn m run.2 t).2.meter.remaining.toNat + 2 ≤ run.2.meter.remaining.toNat) ∧
    run.1.countP (·.2.isOk) ≤ m.gas.toNat / 2 := by
  intro run
  have hlater : (Frame.start m tree kernel memory).Later run.2 :=
    play_invariant (fun f t hf => hf.trans (turn_later m f t)) turns (.of_meter_eq rfl)
  have hcount : 2 * run.1.countP (·.2.isOk) + run.2.meter.remaining.toNat ≤ m.gas.toNat :=
    two_mul_count_le m (.start m tree kernel memory) turns
  refine ⟨hlater.remaining, ?_, rfl, rfl, fun t => ?_, fun t hrun hargs htrap => ?_, ?_⟩
  · have hlimit : run.2.meter.limit = m.gas := hlater.limit
    rw [← hlimit]
    exact Gas.Meter.toNat_remaining_add_used (hlimit ▸ hlater.remaining)
  · exact ⟨(turn_later m run.2 t).remaining, (turn_later m run.2 t).refunded⟩
  · obtain ⟨r, hr⟩ := Request.exists_ofArgs? hargs
    rw [turn_snd]
    exact drop_of_untrapped hrun hr fun why hfail => htrap why (turn_fst_eq_error_iff.2 hfail)
  · omega

end Host

end ContractHost
