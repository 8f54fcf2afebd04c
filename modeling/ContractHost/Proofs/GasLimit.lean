import ContractHost.Proofs.Conservation
import ContractHost.Tree.NodeTree

/-!
# The gas limit

A limit on gas decides where a run stops and nothing else.  `Frame.endow` gives a frame more gas; a step does on the
endowed frame what it does on the frame itself, unless gas is what it lacks there (`Steady`).  This holds of each step
that an operation takes, since what is charged never depends on what is left, and so of operations, by the shape that
they have (`steady_invoke`), of turns (`turn_endow`) and of runs (`perform_endow`).

`gas_limit_stops_only` compares the runs of one contract under two limits.  Up to the first turn that lacks gas under
the lower one, both have given the same answers, and their frames are the same but for the gas left, of which the one
has more by as much as its limit is higher; as much has been used.
-/

namespace ContractHost

variable {τ κ : Type} {extra : Nat}

namespace Frame

/-- The frame with `extra` more gas, in the limit of its meter as in what is left. -/
def endow (extra : Nat) (f : Frame τ κ) : Frame τ κ :=
  { f with meter := { f.meter with
      limit := UInt64.ofNat (f.meter.limit.toNat + extra)
      remaining := UInt64.ofNat (f.meter.remaining.toNat + extra) } }

/-- Whether the meter can hold `extra` more gas. -/
def Room (extra : Nat) (f : Frame τ κ) : Prop := f.meter.remaining.toNat + extra ≤ Gas.cap

/-- `g` is `f` with `extra` more gas left: as much was used, and all that is no gas is the same. -/
structure Richer (extra : Nat) (f g : Frame τ κ) : Prop where
  rest : g = { f with meter := g.meter }
  refunded : g.meter.refunded = f.meter.refunded
  used : g.meter.used = f.meter.used
  remaining : g.meter.remaining.toNat = f.meter.remaining.toNat + extra

variable {f g : Frame τ κ}

theorem toNat_ofNat_of_le_cap {n : Nat} (h : n ≤ Gas.cap) : (UInt64.ofNat n).toNat = n := by
  have hcap : Gas.cap < UInt64.size := by decide
  exact UInt64.toNat_ofNat_of_lt (by omega)

theorem Room.remaining_endow (h : f.Room extra) :
    (f.endow extra).meter.remaining.toNat = f.meter.remaining.toNat + extra :=
  toNat_ofNat_of_le_cap h

theorem Room.mono (h : f.Room extra) (hle : g.meter.remaining ≤ f.meter.remaining) : g.Room extra := by
  have hnat := UInt64.le_iff_toNat_le.1 hle
  unfold Room at h ⊢
  omega

/-- Spending first and being endowed afterwards comes to the same. -/
theorem Room.spend_endow (h : f.Room extra) {amount : Nat} (hle : amount ≤ f.meter.remaining.toNat) :
    (f.endow extra).spend amount = (f.spend amount).endow extra := by
  have hendow := h.remaining_endow
  have hspend := f.toNat_remaining_spend amount
  have hremaining : UInt64.ofNat ((f.endow extra).meter.remaining.toNat - amount) =
      UInt64.ofNat ((f.spend amount).meter.remaining.toNat + extra) := by
    rw [hendow, hspend]
    congr 1
    omega
  unfold spend endow at hremaining ⊢
  rw [hremaining]

theorem richer_endow (hle : f.meter.remaining ≤ f.meter.limit) (hcap : f.meter.limit.toNat + extra ≤ Gas.cap) :
    f.Richer extra (f.endow extra) := by
  have hnat := UInt64.le_iff_toNat_le.1 hle
  have hroom : f.Room extra := by
    unfold Room
    omega
  have hremaining := hroom.remaining_endow
  have hlimit : (f.endow extra).meter.limit.toNat = f.meter.limit.toNat + extra := toNat_ofNat_of_le_cap hcap
  have hle' : (f.endow extra).meter.remaining ≤ (f.endow extra).meter.limit := by
    rw [UInt64.le_iff_toNat_le]
    omega
  have hused := Gas.Meter.toNat_remaining_add_used hle
  have hused' := Gas.Meter.toNat_remaining_add_used hle'
  refine ⟨rfl, rfl, ?_, hremaining⟩
  rw [← UInt64.toNat_inj]
  omega

end Frame

/-- Whether a lack of gas is among the answers. -/
def Starved (history : List (Turn × Answer)) : Prop := ∃ p ∈ history, p.2 = .error (.trap .outOfGas)

instance (history : List (Turn × Answer)) : Decidable (Starved history) :=
  inferInstanceAs (Decidable (∃ p ∈ history, p.2 = _))

theorem starved_cons {t : Turn} {answer : Answer} {history : List (Turn × Answer)} :
    Starved ((t, answer) :: history) ↔ answer = .error (.trap .outOfGas) ∨ Starved history := by
  simp [Starved]

theorem not_starved_of_subset {history history' : List (Turn × Answer)} (h : history' ⊆ history)
    (hnot : ¬ Starved history) : ¬ Starved history' := by
  rintro ⟨p, hp, hanswer⟩
  exact hnot ⟨p, h hp, hanswer⟩

namespace Host

variable {α β : Type} {f : Frame τ κ}

/-- On `f` endowed with more gas `x` does the same as on `f`, unless gas is what it lacks there. -/
inductive Steady (extra : Nat) (x : Host τ κ α) (f : Frame τ κ) : Prop
  | ok (a : α) (g : Frame τ κ) (h : x f = .ok a g) (h' : x (f.endow extra) = .ok a (g.endow extra))
  | error (e : OperationError) (g : Frame τ κ) (h : x f = .error e g)
      (h' : x (f.endow extra) = .error e (g.endow extra))
  | starved (g : Frame τ κ) (h : x f = .error (.trap .outOfGas) g)

theorem Steady.bind {x : Host τ κ α} {k : α → Host τ κ β} (hx : Steady extra x f)
    (hk : ∀ a g, x f = .ok a g → Steady extra (k a) g) : Steady extra (x >>= k) f := by
  cases hx with
  | ok a g h h' =>
    cases hk a g h with
    | ok b l hb hb' => exact .ok b l ((bind_ok h k).trans hb) ((bind_ok h' k).trans hb')
    | error e l he he' => exact .error e l ((bind_ok h k).trans he) ((bind_ok h' k).trans he')
    | starved l hl => exact .starved l ((bind_ok h k).trans hl)
  | error e g h h' => exact .error e g (bind_error h k) (bind_error h' k)
  | starved g h => exact .starved g (bind_error h k)

theorem Steady.of_eq {x y : Host τ κ α} (hf : x f = y f) (hg : x (f.endow extra) = y (f.endow extra))
    (h : Steady extra y f) : Steady extra x f := by
  cases h with
  | ok a g h h' => exact .ok a g (hf.trans h) (hg.trans h')
  | error e g h h' => exact .error e g (hf.trans h) (hg.trans h')
  | starved g h => exact .starved g (hf.trans h)

theorem Steady.trapping {x : Host τ κ α} (h : Steady extra x f) : Steady extra (trapping x) f := by
  cases h with
  | ok a g h h' => exact .ok a g (trapping_ok h) (trapping_ok h')
  | error e g h h' =>
    cases e with
    | trap why => exact .error (.trap why) (g.trapped why) (trapping_trap h) (trapping_trap h')
    | ended _ | arity _ _ _ | internal _ => exact .error _ g (trapping_error h rfl) (trapping_error h' rfl)
  | starved g h => exact .starved (g.trapped .outOfGas) (trapping_trap h)

/-! ### Steps -/

theorem steady_charge (amount : UInt64) (hroom : f.Room extra) : Steady extra (charge amount) f := by
  rcases Nat.lt_or_ge f.meter.remaining.toNat amount.toNat with hlt | hle
  · exact .starved f (charge_of_lt hlt)
  · have hendow := hroom.remaining_endow
    have hcharge : charge amount (f.endow extra) = .ok () _ := charge_of_le (by omega)
    rw [hroom.spend_endow hle] at hcharge
    exact .ok () (f.spend amount.toNat) (charge_of_le hle) hcharge

theorem steady_payCall (c : SubCall) (hroom : f.Room extra) : Steady extra (payCall c) f := by
  by_cases hvalue : c.value = 0
  · exact .ok () f (payCall_of_eq hvalue f) (payCall_of_eq hvalue _)
  · rcases Nat.lt_or_ge f.meter.remaining.toNat (min (6700 + c.gas.toNat) Gas.cap) with hlt | hle
    · exact .starved f (payCall_of_lt hvalue hlt)
    · -- What is kept of the payment is the same, also if the sum stops at the largest amount.
      have hendow := hroom.remaining_endow
      have hpay : payCall c (f.endow extra) = .ok () _ := payCall_of_le hvalue (by omega)
      rw [hroom.spend_endow (by omega)] at hpay
      exact .ok () _ (payCall_of_le hvalue hle) hpay

theorem steady_view (read : Memory → Option α) (f : Frame τ κ) : Steady extra (view read) f := by
  cases h : read f.memory with
  | none => exact .error _ f (view_of_none h) (view_of_none h)
  | some a => exact .ok a f (view_of_some h) (view_of_some h)

theorem steady_edit (write : Memory → Option Memory) (f : Frame τ κ) : Steady extra (edit write) f := by
  cases h : write f.memory with
  | none => exact .error _ f (edit_of_none h) (edit_of_none h)
  | some memory => exact .ok () _ (edit_of_some h) (edit_of_some h)

theorem steady_advance (step : Progress → Except OperationError Progress) (f : Frame τ κ) :
    Steady extra (advance step) f := by
  cases h : step f.progress with
  | ok progress => exact .ok () _ (advance_of_ok h) (advance_of_ok h)
  | error e =>
    have hadvance (g : Frame τ κ) (hg : g.progress = f.progress) : advance step g = .error e g := by
      rw [advance, hg, h]
    exact .error e f (hadvance f rfl) (hadvance _ rfl)

theorem steady_refund (amount : UInt64) (f : Frame τ κ) : Steady extra (refund amount) f :=
  .ok () _ (refund_eq amount f) (refund_eq amount _)

variable [Tree τ] [Kernel κ] {M : Memory} {pays : Prop} {P : Effect → Prop} {C : Commit → Prop} {n : Nat} {m : Message}

omit [Tree τ] [Kernel κ] in
/-- What the tree says about a write does not depend on the gas. -/
theorem steady_of_accepted {x : Host τ κ Unit} {answer : Except TreeError Unit} {g : Frame τ κ}
    (h : x f = accepted answer g) (h' : x (f.endow extra) = accepted answer (g.endow extra)) : Steady extra x f := by
  cases answer with
  | ok _ => exact .ok () g h h'
  | error why => exact .error (.internal why.message) g h h'

omit [Kernel κ] in
theorem steady_put (p : Path) (value : Bytes) (f : Frame τ κ) : Steady extra (put p value) f :=
  steady_of_accepted rfl rfl

omit [Kernel κ] in
theorem steady_remove (p : Path) (f : Frame τ κ) : Steady extra (remove p) f :=
  steady_of_accepted rfl rfl

/-! ### Operations -/

theorem Prepares.steady {x : Host τ κ α} (h : Prepares M pays P n x) (hM : f.memory = M) (hroom : f.Room extra) :
    Steady extra x f := by
  induction h generalizing f with
  | pure a => exact .ok a f rfl rfl
  | invalid => exact .error _ f rfl rfl
  | charge amount _ => exact steady_charge amount hroom
  | payCall c _ => exact steady_payCall c hroom
  | view read => exact steady_view read f
  | fetch _ | fetchHash _ | send _ => exact .ok _ _ rfl rfl
  | bind hx _ _ ihx ihg =>
    refine (ihx hM hroom).bind fun a g hok => ?_
    -- Preparing leaves the memory as it was and gives no gas, so there is still room for more.
    have hasked := hx.asked hM hok
    exact ihg a ⟨f, g, hM, hok⟩ (hasked.memory.trans hM) (hroom.mono hasked.remaining)
  | mono _ _ ih => exact ih hM hroom

omit [Kernel κ] in
theorem steady_run (c : Commit) (f : Frame τ κ) : Steady extra c.run f := by
  cases c with
  | write offset b => exact steady_edit (·.write? offset b) f
  | fill offset length b => exact steady_edit (·.writePadded? offset length b) f
  | log entry => exact steady_advance (·.log entry) f
  | halt output => exact steady_advance (·.halt output) f
  | destroy beneficiary =>
    exact (steady_refund Gas.selfDestruct f).bind fun _ g _ => steady_advance (·.selfDestruct beneficiary) g
  | put p value => exact steady_put p value f
  | remove p => exact steady_remove p f
  | clear p => exact (steady_refund Gas.slotClearing f).bind fun _ g _ => steady_remove p g

theorem Transacts.steady {x : Host τ κ α} (h : Transacts M pays P C n x) (hM : f.memory = M)
    (hroom : f.Room extra) : Steady extra x f := by
  induction h generalizing f with
  | prepares hx => exact hx.steady hM hroom
  | commit c _ => exact steady_run c f
  | bind hx _ _ ihg =>
    refine (hx.steady hM hroom).bind fun a g hok => ?_
    have hasked := hx.asked hM hok
    exact ihg a ⟨f, g, hM, hok⟩ (hasked.memory.trans hM) (hroom.mono hasked.remaining)
  | report _ b ih => exact (ih hM hroom).bind fun a g _ => .ok (b a) g rfl rfl
  | mono _ _ ih => exact ih hM hroom

theorem steady_invoke (m : Message) (op : Operation) (args : List UInt64) (hroom : f.Room extra) :
    Steady extra (invoke m op args) f := by
  by_cases hrun : f.progress.status = .running
  · cases hr : Request.ofArgs? op args with
    | none =>
      exact .error _ f (invoke_of_arity hrun hr) (invoke_of_arity (f := f.endow extra) hrun hr)
    | some r =>
      have hpaid : Steady extra (do charge op.cost; serve m r) f := by
        refine (steady_charge op.cost hroom).bind fun _ g hcharge => ?_
        obtain ⟨-, rfl⟩ := of_charge_ok hcharge
        exact (transacts_serve m f.memory r).steady rfl (hroom.mono (f.remaining_spend_le _))
      exact .of_eq (invoke_eq hrun hr) (invoke_eq (f := f.endow extra) hrun hr) hpaid.trapping
  · exact .error _ f (invoke_of_terminal hrun) (invoke_of_terminal (f := f.endow extra) hrun)

/-! ### Turns and runs -/

theorem turn_endow {t : Turn} (hroom : f.Room extra) (hanswer : (turn m f t).1 ≠ .error (.trap .outOfGas)) :
    turn m (f.endow extra) t = ((turn m f t).1, (turn m f t).2.endow extra) := by
  have hstart : Frame.Room extra { f with memory := t.memory } := hroom
  cases steady_invoke m t.op t.args hstart with
  | ok a g h h' =>
    rw [turn_of_ok h]
    exact turn_of_ok h'
  | error e g h h' =>
    rw [turn_of_error h]
    exact turn_of_error h'
  | starved g h =>
    rw [turn_of_error h] at hanswer
    exact absurd rfl hanswer

/-- A run that is nowhere stopped by a lack of gas goes the same way with more of it. -/
theorem perform_endow (hroom : f.Room extra) (plans : List Plan) (h : ¬ Starved (perform m f plans).1) :
    perform m (f.endow extra) plans = ((perform m f plans).1, (perform m f plans).2.endow extra) := by
  induction plans generalizing f with
  | nil => rfl
  | cons plan plans ih =>
    have hmemory : (f.endow extra).memory = f.memory := rfl
    have hhistory : (perform m f (plan :: plans)).1 =
        (plan f.memory, (turn m f (plan f.memory)).1) :: (perform m (turn m f (plan f.memory)).2 plans).1 := rfl
    rw [hhistory, starved_cons, not_or] at h
    have hturn := turn_endow hroom h.1
    have hroom' := hroom.mono (turn_later m f (plan f.memory)).remaining
    simp only [perform, hmemory, hturn, ih hroom' h.2]

/-! ### The gas of the message -/

/-- What is served never depends on the gas that the message came with. -/
theorem serve_withGas (m : Message) (gas : UInt64) (r : Request) :
    (serve { m with gas } r : Host τ κ (Option UInt64)) = serve m r := by
  cases r <;> rfl

theorem perform_withGas (m : Message) (gas : UInt64) (f : Frame τ κ) (plans : List Plan) :
    perform { m with gas } f plans = perform m f plans := by
  have hinvoke (op : Operation) (args : List UInt64) :
      (invoke { m with gas } op args : Host τ κ (Option UInt64)) = invoke m op args := by
    simp only [invoke, serve_withGas]
  have hturn (g : Frame τ κ) (t : Turn) : turn { m with gas } g t = turn m g t := by
    rw [turn, turn, hinvoke]
  induction plans generalizing f with
  | nil => rfl
  | cons plan plans ih => simp only [perform, hturn, ih]

omit [Tree τ] [Kernel κ] in
theorem start_withGas {m : Message} {gas : UInt64} (hle : m.gas ≤ gas) (tree : τ) (kernel : κ) (memory : Memory) :
    Frame.start { m with gas } tree kernel memory =
      (Frame.start m tree kernel memory).endow (gas.toNat - m.gas.toNat) := by
  have hnat := UInt64.le_iff_toNat_le.1 hle
  have hgas : UInt64.ofNat (m.gas.toNat + (gas.toNat - m.gas.toNat)) = gas := by
    rw [Nat.add_sub_cancel' hnat, UInt64.ofNat_toNat]
  simp only [Frame.start, Frame.endow, Gas.Meter.ofLimit, hgas]

/-- Unless it lacks gas, a run on `m.gas` shows how the same run on a higher limit goes. -/
theorem perform_of_le {m : Message} {gas : UInt64} (hle : m.gas ≤ gas) (tree : τ) (kernel : κ) (memory : Memory)
    (plans : List Plan) (h : ¬ Starved (perform m (.start m tree kernel memory) plans).1) :
    let poor := perform m (.start m tree kernel memory) plans
    let rich := perform { m with gas } (.start { m with gas } tree kernel memory) plans
    rich.1 = poor.1 ∧ poor.2.Richer (gas.toNat - m.gas.toNat) rich.2 := by
  intro poor rich
  have hnat := UInt64.le_iff_toNat_le.1 hle
  have hcap : m.gas.toNat + (gas.toNat - m.gas.toNat) ≤ Gas.cap := by
    have hlt := gas.toNat_lt
    have hmax : Gas.cap = 2 ^ 64 - 1 := rfl
    omega
  have hrich : rich = (poor.1, poor.2.endow (gas.toNat - m.gas.toNat)) := by
    have hendow := perform_endow (m := m) (f := .start m tree kernel memory) hcap plans h
    rw [← start_withGas hle, ← perform_withGas m gas] at hendow
    exact hendow
  have hlater : (Frame.start m tree kernel memory).Later poor.2 :=
    perform_invariant (fun f t hf => hf.trans (turn_later m f t)) plans (.of_meter_eq rfl)
  have hlimit : poor.2.meter.limit = m.gas := hlater.limit
  rw [hrich]
  refine ⟨rfl, Frame.richer_endow ?_ ?_⟩
  · rw [hlimit]
    exact hlater.remaining
  · rw [hlimit]
    exact hcap

/-- Up to the first turn that lacks gas, a contract goes the same way under the gas limit of `m` as under one no lower.
-/
theorem gas_limit_stops_only (m : Message) (gas : UInt64) (hle : m.gas ≤ gas) (tree : τ) (kernel : κ)
    (memory : Memory) (plans : List Plan) :
    let poor (k : Nat) := perform m (.start m tree kernel memory) (plans.take k)
    let rich (k : Nat) := perform { m with gas } (.start { m with gas } tree kernel memory) (plans.take k)
    let Agree (k : Nat) := (rich k).1 = (poor k).1 ∧ (poor k).2.Richer (gas.toNat - m.gas.toNat) (rich k).2
    let history := (perform m (.start m tree kernel memory) plans).1
    (¬ Starved history → ∀ k, Agree k) ∧
    ∀ (k : Nat) (t : Turn), history[k]? = some (t, .error (.trap .outOfGas)) → ¬ Starved (history.take k) →
      ∀ j ≤ k, Agree j := by
  intro poor rich Agree history
  have hagree (k : Nat) (h : ¬ Starved (history.take k)) : Agree k := by
    rw [← perform_take] at h
    exact perform_of_le hle tree kernel memory (plans.take k) h
  constructor
  · intro h k
    exact hagree k (not_starved_of_subset (List.take_subset k history) h)
  · intro k t _ h j hj
    have hsubset : history.take j ⊆ history.take k := List.take_subset_take_left history hj
    exact hagree j (not_starved_of_subset hsubset h)

private def frugal : Message := { callee := .root, sender := .root, origin := .root, gas := 20000 }

/-- Stores the word at 32 under the key at 0. -/
private def keep : Plan := fun M => ⟨M, .storageStore, [0, 32]⟩

/-- The price of one new slot is not enough for two, which does not change how the first is stored. -/
theorem gas_limit_stops_only_keep :
    let memory := Memory.ofBytes (List.replicate 64 1)
    let poor := perform frugal (.start frugal ({} : NodeTree) ({} : Script) memory)
    let rich := perform { frugal with gas := 90000 } (.start { frugal with gas := 90000 } ({} : NodeTree)
      ({} : Script) memory)
    Starved (poor [keep, keep]).1 ∧ (rich [keep]).1 = (poor [keep]).1 ∧
      (poor [keep]).2.Richer 70000 (rich [keep]).2 := by
  intro memory poor rich
  have hle : frugal.gas ≤ 90000 := by decide
  obtain ⟨-, hbefore⟩ := gas_limit_stops_only frugal 90000 hle ({} : NodeTree) ({} : Script) memory [keep, keep]
  have hsecond : (poor [keep, keep]).1[1]?.map Prod.snd = some (.error (.trap .outOfGas)) := by decide +kernel
  obtain ⟨⟨t, answer⟩, hstarved, rfl⟩ := Option.map_eq_some_iff.1 hsecond
  have hfirst : ¬ Starved ((poor [keep, keep]).1.take 1) := by decide +kernel
  obtain ⟨hhistory, hricher⟩ := hbefore 1 t hstarved hfirst 1 (Nat.le_refl 1)
  exact ⟨⟨_, List.mem_of_getElem? hstarved, rfl⟩, hhistory, hricher⟩

end Host

end ContractHost
