import ContractHost.Proofs.Extent
import ContractHost.Proofs.Price

/-!
# What a transfer of value costs

A call with a value must be able to lay out 6700 and the gas of the callee together, and gets the latter back; who
cannot is stopped before anything is sent.  So it costs 6700, and 25000 more if it fails (`Transfers`).  The sum stops
at the largest amount of gas, though, and who has just that amount can always pay it: then what exceeds it is given
away, so less than 6700 may be gone afterwards, and in the end nothing at all (`call_transfer`, `call_transfer_free`).
-/

namespace ContractHost

variable {τ κ : Type} [Kernel κ]

/-- What the caller is told of the answer. -/
def Verdict.of (answer : Except DeliveryError Response) : Verdict := if CallFails answer then .failure else .success

/-- The frame once the message is with the kernel. -/
def Frame.handOver (message : Message) (f : Frame τ κ) : Frame τ κ :=
  { f with kernel := (Kernel.send f.kernel message).2, effects := f.effects.push (.send message) }

namespace Host

theorem send_eq (message : Message) (f : Frame τ κ) :
    send message f = .ok (Kernel.send f.kernel message).1 (f.handOver message) := rfl

end Host

/-! ### What is made of an answer -/

namespace Errand

open Host

/-- What is made of the answer to the errand: the failure of a call has its price, that of a delegated call has
none. -/
def conclude {τ κ : Type} (e : Errand) (answer : Except DeliveryError Response) : Host τ κ (Verdict × Bytes) := do
  if e.kind = .call ∧ CallFails answer then
    charge Gas.callException
  return (.of answer, e.output answer)

theorem output_of_callFails {c : SubCall} {answer : Except DeliveryError Response} (h : CallFails answer) :
    (Errand.mk .call c).output answer = [] := by
  match answer with
  | .ok ⟨true, _⟩ => rfl
  | .error _ => rfl

variable {τ κ : Type} {e : Errand} {answer : Except DeliveryError Response} {f : Frame τ κ}

theorem conclude_of_free (h : ¬ (e.kind = .call ∧ CallFails answer)) :
    e.conclude answer f = .ok (.of answer, e.output answer) f := by
  rw [conclude, if_neg h]
  rfl

theorem conclude_of_le (h : e.kind = .call ∧ CallFails answer) (hle : 25000 ≤ f.meter.remaining.toNat) :
    e.conclude answer f = .ok (.of answer, e.output answer) (f.spend 25000) := by
  have hcharge : charge Gas.callException f = .ok () (f.spend 25000) := charge_of_le hle
  rw [conclude, if_pos h, bind_ok hcharge]
  rfl

theorem conclude_of_lt (h : e.kind = .call ∧ CallFails answer) (hlt : f.meter.remaining.toNat < 25000) :
    e.conclude answer f = .error (.trap .outOfGas) f := by
  have hcharge : charge Gas.callException f = .error (.trap .outOfGas) f := charge_of_lt hlt
  rw [conclude, if_pos h, bind_error hcharge]

end Errand

namespace Host

theorem call_eq (m : Message) (c : SubCall) :
    (call m c : Host τ κ (Verdict × Bytes)) =
      payCall c >>= fun _ => send (c.message m) >>= (Errand.mk .call c).conclude := by
  unfold call
  refine bind_congr fun _ => bind_congr fun answer => ?_
  match answer with
  | .ok ⟨false, _⟩ => rfl
  | .ok ⟨true, _⟩ => rfl
  | .error _ => rfl

theorem callDelegate_eq (m : Message) (c : SubCall) :
    (callDelegate m c : Host τ κ (Verdict × Bytes)) =
      send (c.delegateMessage m) >>= (Errand.mk .delegate c).conclude := by
  unfold callDelegate
  refine bind_congr fun answer => ?_
  match answer with
  | .ok ⟨false, _⟩ => rfl
  | .ok ⟨true, _⟩ => rfl
  | .error _ => rfl

/-! ### Transfers -/

/-- The call takes `price` for the value.  On what is left then the message is sent, and of that a call that fails
pays the penalty, or is stopped for want of it. -/
structure Transfers (m : Message) (c : SubCall) (f : Frame τ κ) (price : Nat) : Prop where
  affordable : price ≤ f.meter.remaining.toNat
  paid : payCall c f = .ok () (f.spend price)
  delivered : ∀ output, (Kernel.send f.kernel (c.message m)).1 = .ok ⟨false, output⟩ →
    call m c f = .ok (.success, output) ((f.spend price).handOver (c.message m))
  failed : CallFails (Kernel.send f.kernel (c.message m)).1 → price + 25000 ≤ f.meter.remaining.toNat →
    call m c f = .ok (.failure, []) (((f.spend price).handOver (c.message m)).spend 25000)
  stopped : CallFails (Kernel.send f.kernel (c.message m)).1 → f.meter.remaining.toNat < price + 25000 →
    call m c f = .error (.trap .outOfGas) ((f.spend price).handOver (c.message m))

variable {m : Message} {c : SubCall} {f : Frame τ κ} {price : Nat}

/-- What is paid decides all that follows. -/
theorem Transfers.of_payCall (haffordable : price ≤ f.meter.remaining.toNat)
    (hpay : payCall c f = .ok () (f.spend price)) : Transfers m c f price := by
  have hcall : call m c f = (Errand.mk .call c).conclude (Kernel.send f.kernel (c.message m)).1
      ((f.spend price).handOver (c.message m)) := by
    rw [call_eq, bind_ok hpay, bind_ok (send_eq _ _)]
    rfl
  have hremaining : ((f.spend price).handOver (c.message m)).meter.remaining.toNat =
      f.meter.remaining.toNat - price := f.toNat_remaining_spend price
  refine ⟨haffordable, hpay, fun output hanswer => ?_, fun hfails hle => ?_, fun hfails hlt => ?_⟩
  · rw [hcall, hanswer]
    rfl
  · rw [hcall, Errand.conclude_of_le ⟨rfl, hfails⟩ (by omega), Errand.output_of_callFails hfails, Verdict.of,
      if_pos hfails]
  · rw [hcall, Errand.conclude_of_lt ⟨rfl, hfails⟩ (by omega)]

/-- What a call with a value costs whoever has the gas that it must lay out, whoever has less, and whoever has the
largest amount. -/
theorem call_transfer (m : Message) (hvalue : c.value ≠ 0) (f : Frame τ κ) :
    let held := f.meter.remaining.toNat
    let needed := 6700 + c.gas.toNat
    (c.message m).gas = c.gas ∧
    (needed ≤ held → Transfers m c f 6700) ∧
    (held < needed → held < Gas.cap → call m c f = .error (.trap .outOfGas) f) ∧
    (held < needed → held = Gas.cap → Transfers m c f (Gas.cap - c.gas.toNat)) := by
  intro held needed
  have hcap : held ≤ Gas.cap := Nat.le_pred_of_lt f.meter.remaining.toNat_lt
  refine ⟨rfl, fun hle => ?_, fun hlt hbelow => ?_, fun hlt hall => ?_⟩
  · have hsum : min needed Gas.cap = needed := Nat.min_eq_left (Nat.le_trans hle hcap)
    have hprice : min needed Gas.cap - c.gas.toNat = 6700 := by omega
    have hpay := payCall_of_le (f := f) hvalue (Nat.le_trans (Nat.le_of_eq hsum) hle)
    rw [hprice] at hpay
    exact .of_payCall (by omega) hpay
  · have hpay : payCall c f = .error (.trap .outOfGas) f := payCall_of_lt hvalue (Nat.lt_min.2 ⟨hlt, hbelow⟩)
    rw [call, bind_error hpay]
  · -- The sum stops at the largest amount, which is all there.
    have hsum : min needed Gas.cap = Gas.cap := Nat.min_eq_right (by omega)
    have hpay := payCall_of_le (f := f) hvalue (Nat.le_of_eq (hsum.trans hall.symm))
    rw [hsum] at hpay
    exact .of_payCall (by omega) hpay

private def patron : Message where
  callee := .accountField .zero "code"
  sender := .root
  origin := .root
  gas := 18446744073709551615

private def patronage (gas : UInt64) : SubCall := { gas, target := .zero, value := 1, data := [] }

private def patronStart (script : Script) : Frame NodeTree Script := .start patron {} script (.zeros 0)

/-- Of the largest amount, all but 100 units are lent: the value costs these 100, and the failure its full price. -/
theorem call_transfer_discount :
    ∃ g, call patron (patronage 18446744073709551515) (patronStart { strict := true }) = .ok (.failure, []) g ∧
      g.meter.remaining.toNat + 25100 = Gas.cap := by
  have hvalue : (patronage 18446744073709551515).value ≠ 0 := by decide
  obtain ⟨-, -, -, htransfer⟩ := call_transfer patron hvalue (patronStart { strict := true })
  have hfails : CallFails (Kernel.send (patronStart { strict := true }).kernel
      ((patronage 18446744073709551515).message patron)).1 := by decide +kernel
  exact ⟨_, (htransfer (by decide +kernel) (by decide +kernel)).failed hfails (by decide +kernel), by decide +kernel⟩

/-- Who lends all of the largest amount has less than it must lay out, and transfers the value for nothing. -/
theorem call_transfer_free :
    let c := patronage 18446744073709551615
    let f := patronStart {}
    f.meter.remaining.toNat < 6700 + c.gas.toNat ∧ failure? (call patron c) f = none ∧
    (after (call patron c) f).sent = [c.message patron] ∧
    (after (call patron c) f).meter.remaining = f.meter.remaining := by
  decide +kernel

end Host

end ContractHost
