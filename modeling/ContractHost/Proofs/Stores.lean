import ContractHost.Proofs.Runs
import ContractHost.Proofs.Slots

/-!
# Stores

A store reads its key and its word from the memory and is then a matter between the host and one slot
(`serve_store`).  What is left of an invocation that has paid the base price and found its words is `storeSlot`; any
other is stopped before it has asked anything (`invoke_store`).
-/

namespace ContractHost

theorem Request.eq_store_of_operation {r : Request} (h : r.operation = .storageStore) :
    ∃ key value, r = .storageStore key value := by
  cases r with
  | storageStore key value => exact ⟨key, value, rfl⟩
  | _ => cases h

namespace Host

variable {τ κ : Type}

theorem after_silently (x : Host τ κ Unit) (f : Frame τ κ) : after (silently x) f = after x f := by
  cases h : x f with
  | ok a g =>
    rw [silently, after_bind_ok h, after_ok h]
    rfl
  | error e g => rw [silently, after_bind_error h, after_error h]

/-! ### The parts of a store -/

theorem tree_settle {write : SlotWrite} {f g : Frame τ κ} {a : Unit} (h : settle write f = .ok a g) :
    g.tree = f.tree := by
  cases write with
  | create => rw [(of_charge_ok h).2, Frame.spend]
  | clear => rw [of_refund_ok h]
  | update | noop =>
    cases h
    rfl

theorem of_settle_error {write : SlotWrite} {f g : Frame τ κ} {e : OperationError}
    (h : settle write f = .error e g) : e = .trap .outOfGas := by
  cases write with
  | create => exact of_charge_error h
  | clear | update | noop => cases h

section

variable [Tree τ] {f g : Frame τ κ}

/-- Whatever the slot was used for, zero is written by removing its node. -/
theorem applyWrite_classify (self : Path) (k v : Word) (answer : Except TreeError Bytes) :
    (applyWrite self k v (.classify (.slot answer) v) : Host τ κ Unit) =
      if v = Word.zero then remove (self.slot k) else put (self.slot k) v.toList := by
  rw [classify_slot]
  by_cases hv : v = Word.zero <;> by_cases hused : SlotInUse answer <;> simp only [hv, hused, if_true, if_false] <;>
    rfl

/-- A store that fails in the host was refused by the tree after it had answered what the slot holds. -/
theorem refused_of_storeSlot {self : Path} {k v : Word} {text : String}
    (h : storeSlot self k v f = .error (.internal text) g) :
    let read := (Tree.get f.tree (self.slot k)).2
    ∃ why, (if v = Word.zero then (Tree.delete read (self.slot k)).1 else (Tree.set read (self.slot k) v.toList).1) =
      .error why ∧ text = why.message := by
  intro read
  rw [storeSlot, bind_ok (lookupSlot_eq self k f)] at h
  rcases of_bind_error h with hsettle | ⟨_, f', hsettle, happly⟩
  · cases of_settle_error hsettle
  · have htree : f'.tree = read := tree_settle hsettle
    rw [applyWrite_classify] at happly
    by_cases hv : v = Word.zero
    · rw [if_pos hv] at happly ⊢
      obtain ⟨why, hwhy, htext⟩ := of_remove_error happly
      rw [htree] at hwhy
      exact ⟨why, hwhy, OperationError.internal.inj htext⟩
    · rw [if_neg hv] at happly ⊢
      obtain ⟨why, hwhy, htext⟩ := of_put_error happly
      rw [htree] at hwhy
      exact ⟨why, hwhy, OperationError.internal.inj htext⟩

end

/-! ### Requests that store -/

variable [Tree τ] [Kernel κ] {m : Message} {f : Frame τ κ}

theorem serve_store {key value : UInt32} {k v : Word} (hk : f.memory.readVector? 32 key = some k)
    (hv : f.memory.readVector? 32 value = some v) :
    serve m (.storageStore key value) f = silently (storeSlot m.callee k v) f := by
  have hkey : readWord key f = .ok k f := view_of_some hk
  have hvalue : readWord value f = .ok v f := view_of_some hv
  have hwords : (do
      let key ← readWord key
      let value ← readWord value
      storeSlot m.callee key value : Host τ κ Unit) f = storeSlot m.callee k v f := by
    rw [bind_ok hkey, bind_ok hvalue]
  simp only [serve, silently]
  cases hstore : storeSlot m.callee k v f with
  | ok a g => rw [bind_ok (hwords.trans hstore), bind_ok hstore]
  | error e g => rw [bind_error (hwords.trans hstore), bind_error hstore]

/-- A store whose words are not both in the memory is a fault. -/
theorem serve_store_of_none {key value : UInt32}
    (h : f.memory.readVector? 32 key = none ∨ f.memory.readVector? 32 value = none) :
    serve m (.storageStore key value) f = .error (.trap .memoryFault) f := by
  cases hk : f.memory.readVector? 32 key with
  | none =>
    have hkey : readWord key f = .error (.trap .memoryFault) f := view_of_none hk
    exact bind_error (bind_error hkey _) _
  | some k =>
    have hkey : readWord key f = .ok k f := view_of_some hk
    have hvalue : readWord value f = .error (.trap .memoryFault) f := view_of_none (by simpa [hk] using h)
    have hwords : (do
        let key ← readWord key
        let value ← readWord value
        storeSlot m.callee key value : Host τ κ Unit) f = .error (.trap .memoryFault) f := by
      rw [bind_ok hkey, bind_error hvalue]
    exact bind_error hwords _

/-- An invocation that asks for a store is stopped by a trap when it has at most paid, or the store is served. -/
theorem invoke_store {op : Operation} {args : List UInt64} {key value : UInt32}
    (hrun : f.progress.status = .running) (hr : Request.ofArgs? op args = some (.storageStore key value)) :
    (∃ why amount, invoke m op args f = .error (.trap why) ((f.spend amount).trapped why)) ∨
      ∃ k v, f.memory.readVector? 32 key = some k ∧ f.memory.readVector? 32 value = some v ∧
        invoke m op args f = trapping (silently (storeSlot m.callee k v)) (f.spend op.cost.toNat) := by
  rcases Nat.lt_or_ge f.meter.remaining.toNat op.cost.toNat with hlt | hle
  · have hinvoke := invoke_of_lt (m := m) hrun hr hlt
    exact .inl ⟨.outOfGas, 0, by rw [Frame.spend_zero, hinvoke]⟩
  have hinvoke := invoke_of_le (m := m) hrun hr hle
  by_cases hfault : f.memory.readVector? 32 key = none ∨ f.memory.readVector? 32 value = none
  · have hserve := serve_store_of_none (m := m) (f := f.spend op.cost.toNat) hfault
    exact .inl ⟨.memoryFault, op.cost.toNat, hinvoke.trans (trapping_trap hserve)⟩
  · rw [not_or] at hfault
    obtain ⟨k, hk⟩ := Option.ne_none_iff_exists'.1 hfault.1
    obtain ⟨v, hv⟩ := Option.ne_none_iff_exists'.1 hfault.2
    have hserve := serve_store (m := m) (f := f.spend op.cost.toNat) hk hv
    exact .inr ⟨k, v, hk, hv, hinvoke.trans (trapping_congr hserve)⟩

end Host

end ContractHost
