import ContractHost.Proofs.Atomicity
import ContractHost.Proofs.Stores

/-!
# What is paid back

Refunds are granted for slots given up and for the destruction of the contract, and for nothing else.  A slot is paid
for when its old word has been read, before the tree is asked to delete it; so a tree that refuses leaves the refund
where it is, and every further attempt adds another (`refund_without_deletion`).

The counter is settled turn by turn (`settled_turn`).  In any run on any tree it comes to 15000 for each slot in use
that was given up, and as much again for each that the tree refused to delete, and 24000 if the contract was
destroyed, up to the largest amount; no other turn that fails changes it (`refund_counter`).
-/

namespace ContractHost

variable {τ κ : Type}

theorem Gas.add_zero (a : UInt64) : Gas.add a 0 = a := by
  have hlt := a.toNat_lt
  rw [← UInt64.toNat_inj, toNat_add, show (0 : UInt64).toNat = 0 from rfl, show cap = 2 ^ 64 - 1 from rfl]
  omega

/-- What is paid back for a write of the class. -/
def SlotWrite.refund : SlotWrite → UInt64
  | clear => Gas.slotClearing
  | create | update | noop => 0

/-- The key of the slot that the turn asks to write and the class of the write, as `tree` has the slot; nothing if
the turn asks for something else or the words are not in its memory. -/
def Turn.slotWrite? [Tree τ] (m : Message) (tree : τ) (t : Turn) : Option (Word × SlotWrite) :=
  match Request.ofArgs? t.op t.args with
  | some (.storageStore key value) => do
    let k ← t.memory.readVector? 32 key
    let v ← t.memory.readVector? 32 value
    return (k, .classify (.slot (Tree.get tree (m.callee.slot k)).1) v)
  | _ => none

/-- Whether the turn asks to give up a slot that is in use. -/
def Turn.clears [Tree τ] (m : Message) (tree : τ) (t : Turn) : Bool :=
  (t.slotWrite? m tree).any fun w => w.2 = .clear

namespace Passage

variable [Tree τ]

/-- Whether the turn gave up a slot in use. -/
def cleared (m : Message) (p : Passage τ κ) : Bool := p.turn.clears m p.found.tree && p.answer.isOk

/-- Whether the turn would have given up a slot in use, but the tree refused. -/
def refusedClear (m : Message) (p : Passage τ κ) : Bool :=
  p.turn.clears m p.found.tree &&
    match p.answer with
    | .error (.internal _) => true
    | _ => false

end Passage

/-- What the destruction of the contract is worth, if it was destroyed. -/
def Frame.destructionRefund (f : Frame τ κ) : Nat :=
  if f.progress.status = .halted .selfDestructed then 24000 else 0

/-- The turn put 15000 on the counter if it gave up a slot in use, also if the tree refused then, and what the
destruction of the contract is worth, if it destroyed the contract, which a failure does not. -/
def Passage.Settled [Tree τ] (m : Message) (p : Passage τ κ) : Prop :=
  ∃ n, (p.answer.isOk = false → n = 0) ∧ p.left.destructionRefund = p.found.destructionRefund + n ∧
    p.left.meter.refunded.toNat =
      min (p.found.meter.refunded.toNat + 15000 * ((p.cleared m).toNat + (p.refusedClear m).toNat) + n) Gas.cap

theorem Turn.slotWrite?_eq_some_iff [Tree τ] {m : Message} {tree : τ} {t : Turn} {k : Word} {w : SlotWrite} :
    t.slotWrite? m tree = some (k, w) ↔ ∃ key value v,
      Request.ofArgs? t.op t.args = some (.storageStore key value) ∧
      t.memory.readVector? 32 key = some k ∧ t.memory.readVector? 32 value = some v ∧
      w = .classify (.slot (Tree.get tree (m.callee.slot k)).1) v := by
  cases hr : Request.ofArgs? t.op t.args with
  | none => simp [slotWrite?, hr]
  | some r =>
    cases r with
    | storageStore key value =>
      simp only [slotWrite?, hr, Option.bind_eq_bind, Option.bind_eq_some_iff, Option.pure_def, Option.some.injEq,
        Prod.mk.injEq, Request.storageStore.injEq]
      constructor
      · rintro ⟨_, hk, v, hv, rfl, rfl⟩
        exact ⟨key, value, v, ⟨rfl, rfl⟩, hk, hv, rfl⟩
      · rintro ⟨_, _, v, ⟨rfl, rfl⟩, hk, hv, rfl⟩
        exact ⟨k, hk, v, hv, rfl, rfl⟩
    | _ => simp [slotWrite?, hr]

namespace Host

/-! ### Stores -/

/-- Paying, or failing to pay, is not paid back. -/
theorem refunded_charge (amount : UInt64) (f : Frame τ κ) :
    (after (charge amount) f).meter.refunded = f.meter.refunded ∧
      (after (charge amount) f).progress = f.progress := by
  rcases after_charge amount f with hafter | hafter
  · rw [hafter]
    exact ⟨rfl, rfl⟩
  · rw [hafter]
    exact ⟨rfl, rfl⟩

theorem refunded_settle (write : SlotWrite) (f : Frame τ κ) :
    (after (settle write) f).meter.refunded = Gas.add f.meter.refunded write.refund ∧
      (after (settle write) f).progress = f.progress := by
  cases write with
  | create =>
    rw [SlotWrite.refund, Gas.add_zero]
    exact refunded_charge Gas.slotCreation f
  | clear =>
    rw [SlotWrite.refund, settle, after_ok (refund_eq Gas.slotClearing f)]
    simp only [Gas.Meter.refund, and_self]
  | update | noop =>
    rw [SlotWrite.refund, Gas.add_zero]
    exact ⟨rfl, rfl⟩

section

variable [Tree τ]

theorem meter_applyWrite (self : Path) (k v : Word) (write : SlotWrite) (f : Frame τ κ) :
    (after (applyWrite self k v write) f).meter = f.meter ∧
      (after (applyWrite self k v write) f).progress = f.progress := by
  cases write with
  | create | update =>
    have hput := after_put (self.slot k) v.toList f
    rw [applyWrite, hput]
    exact ⟨rfl, rfl⟩
  | clear | noop =>
    have hremove := after_remove (self.slot k) f
    rw [applyWrite, hremove]
    exact ⟨rfl, rfl⟩

/-- The class of the write alone decides what is paid back, not what becomes of the write. -/
theorem refunded_storeSlot (self : Path) (k v : Word) (f : Frame τ κ) :
    (after (storeSlot self k v) f).meter.refunded =
      Gas.add f.meter.refunded (SlotWrite.classify (.slot (Tree.get f.tree (self.slot k)).1) v).refund ∧
      (after (storeSlot self k v) f).progress = f.progress := by
  rw [storeSlot, after_bind_ok (lookupSlot_eq self k f)]
  have hsettled := refunded_settle (SlotWrite.classify (.slot (Tree.get f.tree (self.slot k)).1) v) { f with
    tree := (Tree.get f.tree (self.slot k)).2, effects := f.effects.push (.get (self.slot k)) }
  dsimp only at hsettled ⊢
  generalize SlotWrite.classify (.slot (Tree.get f.tree (self.slot k)).1) v = write at hsettled ⊢
  cases hsettle : settle write { f with
      tree := (Tree.get f.tree (self.slot k)).2, effects := f.effects.push (.get (self.slot k)) } with
  | ok a g =>
    have happly := meter_applyWrite self k v write g
    rw [after_ok hsettle] at hsettled
    rw [after_bind_ok hsettle, happly.1, happly.2]
    exact hsettled
  | error e g =>
    rw [after_error hsettle] at hsettled
    rw [after_bind_error hsettle]
    exact hsettled

end

variable [Tree τ] [Kernel κ] {m : Message} {f g : Frame τ κ} {t : Turn}

/-- What a store that is not stopped by a trap leaves on the counter: its words were in the memory, and the class of
the write decides. -/
theorem refunded_store {op : Operation} {args : List UInt64} {key value : UInt32}
    (hrun : f.progress.status = .running) (hr : Request.ofArgs? op args = some (.storageStore key value))
    (htrap : ∀ why, failure? (invoke m op args) f ≠ some (.trap why)) :
    ∃ k v, f.memory.readVector? 32 key = some k ∧ f.memory.readVector? 32 value = some v ∧
      (after (invoke m op args) f).meter.refunded =
        Gas.add f.meter.refunded (SlotWrite.classify (.slot (Tree.get f.tree (m.callee.slot k)).1) v).refund ∧
      (after (invoke m op args) f).progress = f.progress := by
  rcases invoke_store (m := m) hrun hr with ⟨why, amount, hinvoke⟩ | ⟨k, v, hk, hv, hinvoke⟩
  · exact absurd (failure?_error hinvoke) (htrap why)
  have hstore := refunded_storeSlot m.callee k v (f.spend op.cost.toNat)
  have hafter : after (invoke m op args) f = after (storeSlot m.callee k v) (f.spend op.cost.toNat) := by
    cases hresult : storeSlot m.callee k v (f.spend op.cost.toNat) with
    | ok a g =>
      have hok : silently (storeSlot m.callee k v) (f.spend op.cost.toNat) = .ok none g := bind_ok hresult _
      rw [after_ok hresult, after_ok (hinvoke.trans (trapping_ok hok))]
    | error e g =>
      have herror : silently (storeSlot m.callee k v) (f.spend op.cost.toNat) = .error e g := bind_error hresult _
      cases he : e.trap? with
      | none => rw [after_error hresult, after_error (hinvoke.trans (trapping_error herror he))]
      | some why =>
        cases e with
        | trap why => exact absurd (failure?_error (hinvoke.trans (trapping_trap herror))) (htrap why)
        | ended _ | arity _ _ _ | internal _ => cases he
  rw [← hafter] at hstore
  exact ⟨k, v, hk, hv, hstore⟩

/-! ### Turns and runs -/

omit [Tree τ] [Kernel κ] in
theorem toNat_refunded_le (f : Frame τ κ) : f.meter.refunded.toNat ≤ Gas.cap := by
  have hlt := f.meter.refunded.toNat_lt
  rw [show Gas.cap = 2 ^ 64 - 1 from rfl]
  omega

omit [Kernel κ] in
/-- What an act that leaves the tree alone puts on the counter: what the destruction of the contract is worth, if it
is that. -/
theorem refunded_commit {c : Commit} (halters : ¬ c.Alters) (hrun : f.progress.status = .running)
    (h : c.run f = .ok () g) :
    g.meter.refunded.toNat = min (f.meter.refunded.toNat + g.destructionRefund) Gas.cap := by
  have hcap := toNat_refunded_le f
  have hsame (hmeter : g.meter = f.meter) (hstatus : g.progress.status ≠ .halted .selfDestructed) :
      g.meter.refunded.toNat = min (f.meter.refunded.toNat + g.destructionRefund) Gas.cap := by
    rw [Frame.destructionRefund, if_neg hstatus, hmeter]
    omega
  have hedit {write : Memory → Option Memory} (hwrite : edit write f = .ok () g) :
      g.meter.refunded.toNat = min (f.meter.refunded.toNat + g.destructionRefund) Gas.cap := by
    have hg := eq_of_edit_ok hwrite
    have hprogress : g.progress = f.progress := by rw [hg]
    exact hsame (by rw [hg]) (by simp [hprogress, hrun])
  cases c with
  | write offset b =>
    have hwrite : edit (·.write? offset b) f = .ok () g := h
    exact hedit hwrite
  | fill offset length b =>
    have hwrite : edit (·.writePadded? offset length b) f = .ok () g := h
    exact hedit hwrite
  | log entry =>
    have hlog : advance (·.log entry) f = .ok () _ := advance_of_ok (Progress.log_of_running hrun entry)
    cases hlog.symm.trans h
    exact hsame rfl (by simp [hrun])
  | halt output =>
    have hhalt : advance (·.halt output) f = .ok () _ := advance_of_ok (Progress.halt_of_running hrun output)
    cases hhalt.symm.trans h
    exact hsame rfl (by simp)
  | destroy beneficiary =>
    have hdestroy : advance (·.selfDestruct beneficiary) { f with meter := f.meter.refund Gas.selfDestruct } =
        .ok () _ := advance_of_ok (Progress.selfDestruct_of_running hrun beneficiary)
    cases ((refund_bind ..).trans hdestroy).symm.trans h
    simp only [Gas.Meter.refund, Frame.destructionRefund, if_true, Gas.toNat_add]
    rfl
  | put _ _ | remove _ | clear _ => exact absurd trivial halters

private theorem clears_count_ok {a : Option UInt64} (h : (turn m f t).1 = .ok a) :
    ((passage m f t).cleared m).toNat + ((passage m f t).refusedClear m).toNat = (t.clears m f.tree).toNat := by
  simp [Passage.cleared, Passage.refusedClear, passage, h, Except.isOk, Except.toBool]

private theorem clears_count_internal {text : String} (h : (turn m f t).1 = .error (.internal text)) :
    ((passage m f t).cleared m).toNat + ((passage m f t).refusedClear m).toNat = (t.clears m f.tree).toNat := by
  simp [Passage.cleared, Passage.refusedClear, passage, h, Except.isOk, Except.toBool]

private theorem clears_count_error {e : OperationError} (h : (turn m f t).1 = .error e)
    (he : ∀ text, e ≠ .internal text) :
    ((passage m f t).cleared m).toNat + ((passage m f t).refusedClear m).toNat = 0 := by
  cases e with
  | internal text => exact absurd rfl (he text)
  | trap _ | ended _ | arity _ _ _ =>
    simp [Passage.cleared, Passage.refusedClear, passage, h, Except.isOk, Except.toBool]

theorem clears_of_store {key value : UInt32} {k v : Word}
    (hr : Request.ofArgs? t.op t.args = some (.storageStore key value))
    (hk : t.memory.readVector? 32 key = some k) (hv : t.memory.readVector? 32 value = some v) (tree : τ) :
    15000 * (t.clears m tree).toNat =
      (SlotWrite.classify (.slot (Tree.get tree (m.callee.slot k)).1) v).refund.toNat := by
  have hwrite : t.slotWrite? m tree =
      some (k, .classify (.slot (Tree.get tree (m.callee.slot k)).1) v) :=
    Turn.slotWrite?_eq_some_iff.2 ⟨key, value, v, hr, hk, hv, rfl⟩
  rw [Turn.clears, hwrite]
  cases SlotWrite.classify (.slot (Tree.get tree (m.callee.slot k)).1) v <;> rfl

theorem clears_of_ne_store {r : Request} (hr : Request.ofArgs? t.op t.args = some r)
    (hstore : r.operation ≠ .storageStore) (tree : τ) : t.clears m tree = false := by
  cases r with
  | storageStore key value => exact absurd rfl hstore
  | _ => simp [Turn.clears, Turn.slotWrite?, hr]

private theorem settled_of_eq (hrefunded : (turn m f t).2.meter.refunded = f.meter.refunded)
    (hdestroyed : (turn m f t).2.destructionRefund = f.destructionRefund)
    (hcount : ((passage m f t).cleared m).toNat + ((passage m f t).refusedClear m).toNat = 0) :
    (passage m f t).Settled m := by
  have hcap := toNat_refunded_le f
  refine ⟨0, fun _ => rfl, hdestroyed, ?_⟩
  rw [hcount]
  change (turn m f t).2.meter.refunded.toNat = min (f.meter.refunded.toNat + 15000 * 0 + 0) Gas.cap
  rw [hrefunded]
  omega

private theorem settled_of_refused {e : OperationError}
    (h : invoke m t.op t.args { f with memory := t.memory } = .error e { f with memory := t.memory })
    (he : ∀ text, e ≠ .internal text) : (passage m f t).Settled m := by
  have hturn := turn_of_error h
  have hanswer : (turn m f t).1 = .error e := by rw [hturn]
  refine settled_of_eq ?_ ?_ (clears_count_error hanswer he)
  · rw [hturn]
  · rw [hturn]
    rfl

private theorem settled_trap {why : Trap} (hrun : f.progress.status = .running)
    (h : invoke m t.op t.args { f with memory := t.memory } = .error (.trap why) g) :
    (passage m f t).Settled m := by
  have haborted := invoke_trap (f := { f with memory := t.memory }) hrun h
  have hanswer : (turn m f t).1 = .error (.trap why) := by rw [turn_of_error h]
  refine settled_of_eq ?_ ?_ (clears_count_error hanswer (by simp))
  · rw [turn_of_error h]
    exact haborted.refunded
  · rw [turn_of_error h, Frame.destructionRefund, Frame.destructionRefund, haborted.progress, hrun]
    rfl

private theorem settled_store {key value : UInt32} (hrun : f.progress.status = .running)
    (hr : Request.ofArgs? t.op t.args = some (.storageStore key value)) : (passage m f t).Settled m := by
  have huntrapped (htrap : ∀ why, failure? (invoke m t.op t.args) { f with memory := t.memory } ≠ some (.trap why))
      (hcount : ((passage m f t).cleared m).toNat + ((passage m f t).refusedClear m).toNat =
        (t.clears m f.tree).toNat) : (passage m f t).Settled m := by
    obtain ⟨k, v, hk, hv, hrefunded, hprogress⟩ :=
      refunded_store (m := m) (f := { f with memory := t.memory }) hrun hr htrap
    rw [← turn_snd] at hrefunded hprogress
    refine ⟨0, fun _ => rfl, ?_, ?_⟩
    · rw [passage, Frame.destructionRefund, hprogress]
      rfl
    · rw [hcount, clears_of_store hr hk hv, passage, hrefunded, Gas.toNat_add]
      rfl
  obtain ⟨k, -, hend, -⟩ := invoke_ending (m := m) (f := { f with memory := t.memory }) hrun hr
  cases hend with
  | done a h | commit c a k' _ _ h _ =>
    exact huntrapped (by simp [failure?_ok h]) (clears_count_ok (by rw [turn_of_ok h]))
  | trap why h _ => exact settled_trap hrun h
  | refuse c text k' _ _ _ h _ =>
    exact huntrapped (by simp [failure?_error h]) (clears_count_internal (by rw [turn_of_error h]))

private theorem settled_of_ne_store {r : Request} (hrun : f.progress.status = .running)
    (hr : Request.ofArgs? t.op t.args = some r) (hstore : r.operation ≠ .storageStore) :
    (passage m f t).Settled m := by
  have hclears : (t.clears m f.tree).toNat = 0 := by rw [clears_of_ne_store hr hstore, Bool.toNat_false]
  obtain ⟨k, hasked, hend, -⟩ := invoke_ending (m := m) (f := { f with memory := t.memory }) hrun hr
  have hstart : f.destructionRefund = 0 := by rw [Frame.destructionRefund, if_neg (by simp [hrun])]
  cases hend with
  | done a h =>
    refine settled_of_eq ?_ ?_ ((clears_count_ok (by rw [turn_of_ok h])).trans hclears)
    · rw [turn_of_ok h]
      exact hasked.refunded
    · rw [turn_of_ok h, Frame.destructionRefund, hasked.progress]
      rfl
  | trap why h _ => exact settled_trap hrun h
  | commit c a k' hc hrun' h _ =>
    have hcommit := refunded_commit (Request.not_alters_of_commits hc hstore) (hasked.progress ▸ hrun) hrun'
    have hcount := (clears_count_ok (m := m) (f := f) (by rw [turn_of_ok h])).trans hclears
    have hok : (passage m f t).answer.isOk = true := by
      rw [passage, turn_of_ok h]
      rfl
    refine ⟨k'.destructionRefund, fun hfail => absurd hok (by simp [hfail]), ?_, ?_⟩
    · rw [passage, turn_of_ok h, hstart, Nat.zero_add]
    · rw [hcount, passage, turn_of_ok h, hcommit, hasked.refunded]
      rfl
  | refuse c text k' hc halters _ _ _ => exact absurd halters (Request.not_alters_of_commits hc hstore)

theorem settled_turn (m : Message) (f : Frame τ κ) (t : Turn) : (passage m f t).Settled m := by
  by_cases hrun : f.progress.status = .running
  · cases hr : Request.ofArgs? t.op t.args with
    | none => exact settled_of_refused (invoke_of_arity (f := { f with memory := t.memory }) hrun hr) (by simp)
    | some r =>
      by_cases hstore : r.operation = .storageStore
      · obtain ⟨key, value, rfl⟩ := Request.eq_store_of_operation hstore
        exact settled_store hrun hr
      · exact settled_of_ne_store hrun hr hstore
  · exact settled_of_refused (invoke_of_terminal (f := { f with memory := t.memory }) hrun) (by simp)

/-- A run settles what its turns settle. -/
theorem settled_run (m : Message) (f : Frame τ κ) (turns : List Turn) :
    ∃ n, (play m f turns).2.destructionRefund = f.destructionRefund + n ∧
      (play m f turns).2.meter.refunded.toNat =
        min (f.meter.refunded.toNat + 15000 * ((passages m f turns).countP (·.cleared m) +
          (passages m f turns).countP (·.refusedClear m)) + n) Gas.cap := by
  induction turns generalizing f with
  | nil =>
    have hcap := toNat_refunded_le f
    refine ⟨0, rfl, ?_⟩
    simp only [passages, List.countP_nil]
    change f.meter.refunded.toNat = _
    omega
  | cons t turns ih =>
    obtain ⟨n, -, hdestroyed, hrefunded⟩ := settled_turn m f t
    obtain ⟨n', hdestroyed', hrefunded'⟩ := ih (turn m f t).2
    have hcleared : (passages m f (t :: turns)).countP (·.cleared m) =
        (passages m (turn m f t).2 turns).countP (·.cleared m) + ((passage m f t).cleared m).toNat := by
      rw [passages, List.countP_cons]
      cases (passage m f t).cleared m <;> rfl
    have hrefused : (passages m f (t :: turns)).countP (·.refusedClear m) =
        (passages m (turn m f t).2 turns).countP (·.refusedClear m) + ((passage m f t).refusedClear m).toNat := by
      rw [passages, List.countP_cons]
      cases (passage m f t).refusedClear m <;> rfl
    have hlast : (play m f (t :: turns)).2 = (play m (turn m f t).2 turns).2 := rfl
    have hfound : (passage m f t).found = f := rfl
    have hleft : (passage m f t).left = (turn m f t).2 := rfl
    rw [hfound, hleft] at hdestroyed hrefunded
    rw [hcleared, hrefused, hlast]
    refine ⟨n + n', ?_, ?_⟩
    · rw [hdestroyed', hdestroyed, Nat.add_assoc]
    · -- The counter stops at the largest amount after each turn, and so does the sum.
      rw [hrefunded', hrefunded]
      omega

/-- A failure leaves the counter as it was, unless the tree refused to clear a slot. -/
theorem refunded_of_error {e : OperationError} (h : (turn m f t).1 = .error e) :
    (turn m f t).2.meter.refunded =
      if (passage m f t).refusedClear m then Gas.add f.meter.refunded Gas.slotClearing else f.meter.refunded := by
  obtain ⟨n, hn, -, hrefunded⟩ := settled_turn m f t
  have hfail : (passage m f t).answer.isOk = false := by
    rw [passage, h]
    rfl
  have hcleared : (passage m f t).cleared m = false := by rw [Passage.cleared, hfail, Bool.and_false]
  have hcap := toNat_refunded_le f
  change (turn m f t).2.meter.refunded.toNat = min (f.meter.refunded.toNat + _ + n) Gas.cap at hrefunded
  rw [← UInt64.toNat_inj, hrefunded, hcleared, hn hfail]
  cases (passage m f t).refusedClear m with
  | false =>
    simp only [Bool.toNat_false, Bool.false_eq_true, if_false]
    omega
  | true =>
    rw [if_pos rfl, Gas.toNat_add]
    rfl

/-- In every run on any tree the counter holds what was granted for slots in use and for the destruction, up to the
largest amount. -/
theorem refund_counter (m : Message) (tree : τ) (kernel : κ) (memory : Memory) (turns : List Turn) :
    let start := Frame.start m tree kernel memory
    let last := (play m start turns).2
    let history := passages m start turns
    last.meter.refunded.toNat =
      min (15000 * (history.countP (·.cleared m) + history.countP (·.refusedClear m)) +
        if last.progress.status = .halted .selfDestructed then 24000 else 0) Gas.cap ∧
    ∀ t e, (turn m last t).1 = .error e →
      (turn m last t).2.meter.refunded =
        if (passage m last t).refusedClear m then Gas.add last.meter.refunded 15000 else last.meter.refunded := by
  intro start last history
  obtain ⟨n, hdestroyed, hrefunded⟩ := settled_run m start turns
  have hstart : start.destructionRefund = 0 := rfl
  have hzero : start.meter.refunded.toNat = 0 := rfl
  refine ⟨?_, fun t e h => refunded_of_error h⟩
  rw [hstart, Nat.zero_add] at hdestroyed
  rw [hzero, Nat.zero_add, ← hdestroyed] at hrefunded
  exact hrefunded

private def zeroing : Message where
  callee := .accountField .zero "code"
  sender := .root
  origin := .root
  gas := 100000

private def zeroingStart : Frame GatedTree Script :=
  let nodes : NodeMap := .ofList [(zeroing.callee.slot .zero, List.replicate 31 0 ++ [1])]
  .start zeroing { tree := { nodes }, gate := .reads } {} (.zeros 64)

/-- A tree that refuses to be changed: the same slot is given up twice, each time in vain, and paid for twice. -/
theorem refund_without_deletion :
    let clear : Turn := ⟨.zeros 64, .storageStore, [0, 0]⟩
    let first := turn zeroing zeroingStart clear
    let second := turn zeroing first.2 clear
    first.1 = .error (.internal "state tree unavailable: readonly") ∧ first.2.meter.refunded = 15000 ∧
    second.1 = .error (.internal "state tree unavailable: readonly") ∧ second.2.meter.refunded = 30000 ∧
    (passages zeroing zeroingStart [clear, clear]).countP (·.cleared zeroing) = 0 :=
  ⟨turn_fst_eq_error_iff.2 (by decide +kernel), by decide +kernel, turn_fst_eq_error_iff.2 (by decide +kernel),
    by decide +kernel, by decide +kernel⟩

end Host

end ContractHost
