import Mathlib.Data.List.Infix
import ContractHost.Proofs.Locations
import ContractHost.Proofs.Stores
import ContractHost.Tree.NodeTree

/-!
# What an execution touches

`Request.Footprint` lists, for every request, what it may ask of the state tree and in which order, with the paths
spelled out, the keys of slots with sixty-four lowercase digits.  `invoke_footprint` shows that an invocation asks a
beginning of this and nothing else: at most one read, or a message, and then at most one write, which only a store
makes.  An execution that has ended, a wrong number of arguments, too little gas and an operation that need not wait
ask nothing at all.  Hence no run writes anywhere but to the slots of its own account (`within_play`).
-/

namespace ContractHost

/-! ### What requests ask -/

/-- What storing the word at `p` asks of the state tree. -/
def Effect.store (p : Path) (v : Word) : Effect := if v = Word.zero then delete p else set p v.toList

/-- What code in the account of `a` may ask at all: balances, codes and hashes of blocks wherever they are, its own
slots, and no write but to these. -/
def Effect.Within (a : Address) : Effect → Prop
  | get p =>
    (∃ t : Address, p = .ofKeys ["accounts", t.key, "balance"] ∨ p = .ofKeys ["accounts", t.key, "code"]) ∨
      p.IsSlotOf a
  | hash p => ∃ n : Int, p = .ofKeys ["blockchain", toString n]
  | set p _ | delete p => p.IsSlotOf a
  | send _ => True

theorem Effect.within_store {a : Address} (k v : Word) :
    (store (.ofKeys ["accounts", a.key, "storage", k.key]) v).Within a := by
  unfold store
  split <;> exact ⟨k, rfl⟩

/-- What the act asks of the state tree. -/
def Commit.effects : Commit → List Effect
  | put p value => [.set p value]
  | remove p | clear p => [.delete p]
  | write .. | fill .. | log _ | halt _ | destroy _ => []

namespace Request

/-- What the request asks of the state tree and of the kernel, in this order, if the code of the account of `a` makes
it with the memory `M` and nothing stops it. -/
def Footprint (a : Address) (M : Memory) : Request → List Effect → Prop
  | getBalance address _, l =>
    ∃ t : Address, M.readVector? 20 address = some t ∧ l = [.get (.ofKeys ["accounts", t.key, "balance"])]
  | getCodeSize, l | codeCopy .., l => l = [.get (.ofKeys ["accounts", a.key, "code"])]
  | getExternalCodeSize address, l | externalCodeCopy address .., l | callCode _ address .., l =>
    ∃ t : Address, M.readVector? 20 address = some t ∧ l = [.get (.ofKeys ["accounts", t.key, "code"])]
  | getBlockHash number _, l =>
    0 ≤ number.toInt ∧ l = [.hash (.ofKeys ["blockchain", toString number.toInt])]
  | storageLoad key _, l =>
    ∃ k : Word, M.readVector? 32 key = some k ∧ l = [.get (.ofKeys ["accounts", a.key, "storage", k.key])]
  | storageStore key value, l =>
    ∃ k v : Word, M.readVector? 32 key = some k ∧ M.readVector? 32 value = some v ∧
      l = [.get (.ofKeys ["accounts", a.key, "storage", k.key]),
        .store (.ofKeys ["accounts", a.key, "storage", k.key]) v]
  | call .., l | callDelegate .., l => ∃ message, l = [.send message]
  | _, l => l = []

variable {a : Address} {m : Message} {M : Memory} {r : Request} {e : Effect} {l footprint : List Effect}

/-- A read, or a message, comes first, and only a store goes on to write. -/
theorem Footprint.take_drop (h : r.Footprint a M footprint) :
    footprint.length ≤ 2 ∧ (∀ e ∈ footprint.take 1, e.isWrite = false) ∧
      ∀ e ∈ footprint.drop 1, e.isWrite = true ∧ r.operation = .storageStore := by
  have hwrite (p : Path) (v : Word) : (Effect.store p v).isWrite = true := by
    unfold Effect.store
    split <;> rfl
  cases r with
  | getBalance _ _ | getExternalCodeSize _ | externalCodeCopy _ _ _ _ | callCode _ _ _ _ _ _ _ | storageLoad _ _ =>
    obtain ⟨t, -, rfl⟩ := h
    simp [Effect.isWrite]
  | getBlockHash _ _ =>
    obtain ⟨-, rfl⟩ := h
    simp [Effect.isWrite]
  | storageStore _ _ =>
    obtain ⟨k, v, -, -, rfl⟩ := h
    simp only [List.take_succ_cons, List.take_zero, List.drop_succ_cons, List.drop_zero, List.mem_singleton,
      forall_eq, hwrite, operation]
    exact ⟨Nat.le_refl 2, rfl, trivial, trivial⟩
  | call _ _ _ _ _ _ _ | callDelegate _ _ _ _ _ _ =>
    obtain ⟨message, rfl⟩ := h
    simp [Effect.isWrite]
  | getCodeSize | codeCopy _ _ _ =>
    obtain rfl := h
    simp [Effect.isWrite]
  | _ =>
    obtain rfl := h
    simp

theorem Footprint.reads_writes (h : r.Footprint a M footprint) (hl : l <+: footprint) :
    ∃ reads writes, l = reads ++ writes ∧ reads.length ≤ 1 ∧ writes.length ≤ 1 ∧
      (∀ e ∈ reads, e.isWrite = false) ∧ ∀ e ∈ writes, e.isWrite = true ∧ r.operation = .storageStore := by
  obtain ⟨hlength, hreads, hwrites⟩ := h.take_drop
  have htotal := hl.length_le
  refine ⟨l.take 1, l.drop 1, (List.take_append_drop 1 l).symm, List.length_take_le .., ?_, ?_, ?_⟩
  · rw [List.length_drop]
    omega
  · intro e he
    exact hreads e ((hl.take 1).subset he)
  · intro e he
    exact hwrites e ((hl.drop 1).subset he)

theorem Footprint.within (h : r.Footprint a M footprint) : ∀ e ∈ footprint, e.Within a := by
  cases r with
  | getBalance _ _ =>
    obtain ⟨t, -, rfl⟩ := h
    simp only [List.mem_singleton, forall_eq]
    exact .inl ⟨t, .inl rfl⟩
  | getCodeSize | codeCopy _ _ _ =>
    obtain rfl := h
    simp only [List.mem_singleton, forall_eq]
    exact .inl ⟨a, .inr rfl⟩
  | getExternalCodeSize _ | externalCodeCopy _ _ _ _ | callCode _ _ _ _ _ _ _ =>
    obtain ⟨t, -, rfl⟩ := h
    simp only [List.mem_singleton, forall_eq]
    exact .inl ⟨t, .inr rfl⟩
  | getBlockHash number _ =>
    obtain ⟨-, rfl⟩ := h
    simp only [List.mem_singleton, forall_eq]
    exact ⟨number.toInt, rfl⟩
  | storageLoad _ _ =>
    obtain ⟨k, -, rfl⟩ := h
    simp only [List.mem_singleton, forall_eq]
    exact .inr ⟨k, rfl⟩
  | storageStore _ _ =>
    obtain ⟨k, v, -, -, rfl⟩ := h
    intro e he
    rcases List.mem_pair.1 he with rfl | rfl
    · exact .inr ⟨k, rfl⟩
    · exact Effect.within_store k v
  | call _ _ _ _ _ _ _ | callDelegate _ _ _ _ _ _ =>
    obtain ⟨message, rfl⟩ := h
    simp only [List.mem_singleton, forall_eq]
    exact trivial
  | _ =>
    obtain rfl := h
    simp

/-- What a request asks in preparation, if it is no store, is all that it asks. -/
theorem footprint_of_asks (hcallee : m.callee = .ofKeys ["accounts", a.key, "code"]) (h : r.Asks m M e)
    (hstore : r.operation ≠ .storageStore) : r.Footprint a M [e] := by
  cases r with
  | getBalance _ _ | getExternalCodeSize _ | externalCodeCopy _ _ _ _ =>
    obtain ⟨t, ht, rfl⟩ := h
    rw [hcallee, Path.sibling_code]
    exact ⟨t, ht, rfl⟩
  | getCodeSize | codeCopy _ _ _ =>
    obtain rfl := h
    rw [hcallee]
    rfl
  | callCode gas address value data length _ _ =>
    obtain ⟨c, hc, rfl⟩ := h
    rw [hcallee, Path.sibling_code]
    exact ⟨c.target, Memory.target_of_subCall? hc, rfl⟩
  | getBlockHash number _ =>
    obtain ⟨hwindow, rfl⟩ := h
    rw [Path.block_toUInt64 hwindow.1]
    exact ⟨hwindow.1, rfl⟩
  | storageLoad key _ =>
    obtain ⟨k, hk, rfl⟩ := h
    rw [hcallee, Path.slot_code]
    exact ⟨k, hk, rfl⟩
  | call _ _ _ _ _ _ _ | callDelegate _ _ _ _ _ _ =>
    obtain ⟨c, -, rfl⟩ := h
    exact ⟨_, rfl⟩
  | storageStore _ _ => exact absurd rfl hstore
  | _ => exact h.elim

theorem within_of_asks (hcallee : m.callee = .ofKeys ["accounts", a.key, "code"]) (h : r.Asks m M e) : e.Within a := by
  by_cases hstore : r.operation = .storageStore
  · obtain ⟨key, value, rfl⟩ := eq_store_of_operation hstore
    obtain ⟨k, -, rfl⟩ := h
    rw [hcallee, Path.slot_code]
    exact .inr ⟨k, rfl⟩
  · exact (footprint_of_asks hcallee h hstore).within e (List.mem_singleton_self e)

theorem within_of_commits (hcallee : m.callee = .ofKeys ["accounts", a.key, "code"]) {c : Commit}
    (h : r.Commits m M c) : ∀ e ∈ c.effects, e.Within a := by
  intro e he
  by_cases halters : c.Alters
  · obtain ⟨key, value, -, -, rfl, -⟩ := eq_store_of_alters h halters
    obtain ⟨k, v, -, -, hc⟩ := h
    have hslot : (m.callee.slot k).IsSlotOf a := by
      rw [hcallee, Path.slot_code]
      exact ⟨k, rfl⟩
    split at hc
    · rcases hc with rfl | rfl
      · obtain rfl := List.mem_singleton.1 he
        exact hslot
      · obtain rfl := List.mem_singleton.1 he
        exact hslot
    · subst hc
      obtain rfl := List.mem_singleton.1 he
      exact hslot
  · cases c with
    | put _ _ | remove _ | clear _ => exact absurd trivial halters
    | write _ _ | fill _ _ _ | log _ | halt _ | destroy _ => cases he

/-- Who asks has to wait. -/
theorem suspends_of_asks (h : r.Asks m M e) : r.operation.suspends = true := by
  cases r with
  | getBalance _ _ | getCodeSize | codeCopy _ _ _ | getExternalCodeSize _ | externalCodeCopy _ _ _ _
  | getBlockHash _ _ | call _ _ _ _ _ _ _ | callCode _ _ _ _ _ _ _ | callDelegate _ _ _ _ _ _
  | storageStore _ _ | storageLoad _ _ => rfl
  | _ => exact h.elim

end Request

/-! ### What is on record -/

namespace Frame

variable {τ κ : Type} [Tree τ] [Kernel κ] {f g h : Frame τ κ} {l l' : List Effect}

/-- `g` is reached from `f` by asking `l`: it is on record, and the state tree and the kernel are as it leaves
them. -/
structure Recorded (l : List Effect) (f g : Frame τ κ) : Prop where
  effects : g.effects.toList = f.effects.toList ++ l
  world : g.world = l.foldl Effect.carry f.world

namespace Recorded

theorem of_eq (heffects : g.effects = f.effects) (hworld : g.world = f.world) : Recorded [] f g where
  effects := by rw [heffects, List.append_nil]
  world := hworld

protected theorem trans (hfg : Recorded l f g) (hgh : Recorded l' g h) : Recorded (l ++ l') f h where
  effects := by rw [hgh.effects, hfg.effects, List.append_assoc]
  world := by rw [hgh.world, hfg.world, List.foldl_append]

theorem ask (e : Effect) (hg : g = { f with
    tree := (Effect.carry f.world e).1, kernel := (Effect.carry f.world e).2, effects := f.effects.push e }) :
    Recorded [e] f g where
  effects := by rw [hg, Array.toList_push]
  world := by rw [hg]; rfl

end Recorded

end Frame

namespace Host

variable {τ κ : Type} [Tree τ] [Kernel κ] {α : Type} {m : Message} {f g : Frame τ κ}

open ContractHost.Frame (Recorded)

theorem recorded_edit (write : Memory → Option Memory) (f : Frame τ κ) : Recorded [] f (after (edit write) f) := by
  cases h : write f.memory with
  | none =>
    rw [after_error (edit_of_none h)]
    exact .of_eq rfl rfl
  | some memory =>
    rw [after_ok (edit_of_some h)]
    exact .of_eq rfl rfl

theorem recorded_advance (step : Progress → Except OperationError Progress) (f : Frame τ κ) :
    Recorded [] f (after (advance step) f) := by
  unfold after advance
  cases step f.progress <;> exact .of_eq rfl rfl

theorem recorded_charge (amount : UInt64) (f : Frame τ κ) : Recorded [] f (after (charge amount) f) := by
  rcases after_charge amount f with hafter | hafter
  · rw [hafter]
    exact .of_eq rfl rfl
  · rw [hafter]
    exact .of_eq rfl rfl

theorem recorded_refund (amount : UInt64) (f : Frame τ κ) : Recorded [] f (after (refund amount) f) := by
  rw [after_ok (refund_eq amount f)]
  exact .of_eq rfl rfl

theorem recorded_settle (write : SlotWrite) (f : Frame τ κ) : Recorded [] f (after (settle write) f) := by
  cases write with
  | create => exact recorded_charge Gas.slotCreation f
  | clear => exact recorded_refund Gas.slotClearing f
  | update | noop => exact .of_eq rfl rfl

/-- An act that does not alter the tree asks nothing. -/
theorem recorded_run {c : Commit} (h : ¬ c.Alters) (f : Frame τ κ) : Recorded [] f (after c.run f) := by
  cases c with
  | write offset b => exact recorded_edit (·.write? offset b) f
  | fill offset length b => exact recorded_edit (·.writePadded? offset length b) f
  | log entry => exact recorded_advance (·.log entry) f
  | halt output => exact recorded_advance (·.halt output) f
  | destroy beneficiary =>
    have hrefund := recorded_refund Gas.selfDestruct f
    have hadvance := recorded_advance (·.selfDestruct beneficiary) (after (refund Gas.selfDestruct) f)
    have hrun : after (Commit.destroy beneficiary).run f =
        after (advance (·.selfDestruct beneficiary)) (after (refund Gas.selfDestruct) f) :=
      after_bind_ok (refund_eq Gas.selfDestruct f) _
    rw [hrun]
    exact hrefund.trans hadvance
  | put _ _ | remove _ | clear _ => exact absurd trivial h

theorem recorded_applyWrite (self : Path) (k v : Word) (answer : Except TreeError Bytes) (f : Frame τ κ) :
    Recorded [.store (self.slot k) v] f (after (applyWrite self k v (.classify (.slot answer) v)) f) := by
  rw [applyWrite_classify]
  unfold Effect.store
  by_cases hv : v = Word.zero
  · rw [if_pos hv, if_pos hv, after_remove]
    exact .ask _ rfl
  · rw [if_neg hv, if_neg hv, after_put]
    exact .ask _ rfl

/-- A slot is read before it is written, and only written if it could be paid for. -/
theorem recorded_storeSlot (self : Path) (k v : Word) (f : Frame τ κ) :
    ∃ l, l <+: [.get (self.slot k), .store (self.slot k) v] ∧ Recorded l f (after (storeSlot self k v) f) := by
  rw [storeSlot, after_bind_ok (lookupSlot_eq self k f)]
  have hlookup : Recorded [.get (self.slot k)] f { f with
      tree := (Tree.get f.tree (self.slot k)).2, effects := f.effects.push (.get (self.slot k)) } := .ask _ rfl
  dsimp only at hlookup ⊢
  generalize { f with
    tree := (Tree.get f.tree (self.slot k)).2, effects := f.effects.push (.get (self.slot k)) } = f' at hlookup ⊢
  have hsettled := recorded_settle (SlotWrite.classify (.slot (Tree.get f.tree (self.slot k)).1) v) f'
  cases hsettle : settle (SlotWrite.classify (.slot (Tree.get f.tree (self.slot k)).1) v) f' with
  | ok a g =>
    rw [after_ok hsettle] at hsettled
    rw [after_bind_ok hsettle]
    have happly := recorded_applyWrite self k v (Tree.get f.tree (self.slot k)).1 g
    exact ⟨_, List.prefix_refl _, (hlookup.trans hsettled).trans happly⟩
  | error e g =>
    -- What cannot be paid for has been looked up all the same.
    rw [after_error hsettle] at hsettled
    rw [after_bind_error hsettle]
    exact ⟨_, ⟨[.store (self.slot k) v], rfl⟩, hlookup.trans hsettled⟩

theorem recorded_trapping (x : Host τ κ α) (f : Frame τ κ) : Recorded [] (after x f) (after (trapping x) f) := by
  cases h : x f with
  | ok a g =>
    rw [after_ok h, after_ok (trapping_ok h)]
    exact .of_eq rfl rfl
  | error e g =>
    cases e with
    | trap why =>
      rw [after_error h, after_error (trapping_trap h)]
      exact .of_eq rfl rfl
    | ended _ | arity _ _ _ | internal _ =>
      rw [after_error h, after_error (trapping_error h rfl)]
      exact .of_eq rfl rfl

section

variable {op : Operation} {args : List UInt64} {r : Request} {a : Address}

/-- An invocation that asks for a store may be stopped before it asks for anything else. -/
theorem recorded_store {key value : UInt32} (hrun : f.progress.status = .running)
    (hr : Request.ofArgs? op args = some (.storageStore key value)) :
    ∃ l, Recorded l f (after (invoke m op args) f) ∧ (l = [] ∨ ∃ k v, f.memory.readVector? 32 key = some k ∧
      f.memory.readVector? 32 value = some v ∧ l <+: [.get (m.callee.slot k), .store (m.callee.slot k) v]) := by
  rcases invoke_store (m := m) hrun hr with ⟨why, amount, hinvoke⟩ | ⟨k, v, hk, hv, hinvoke⟩
  · rw [after_error hinvoke]
    exact ⟨[], .of_eq rfl rfl, .inl rfl⟩
  · have hspend : Recorded [] f (f.spend op.cost.toNat) := .of_eq rfl rfl
    obtain ⟨l, hl, hrecorded⟩ := recorded_storeSlot m.callee k v (f.spend op.cost.toNat)
    have htrapping := recorded_trapping (silently (storeSlot m.callee k v)) (f.spend op.cost.toNat)
    rw [after_silently] at htrapping
    have hall := (hspend.trans hrecorded).trans htrapping
    have hafter : after (invoke m op args) f =
        after (trapping (silently (storeSlot m.callee k v))) (f.spend op.cost.toNat) := by
      rw [after, after, hinvoke]
    rw [List.nil_append, List.append_nil] at hall
    rw [hafter]
    exact ⟨l, hall, .inr ⟨k, v, hk, hv, hl⟩⟩

/-- A request other than a store asks only in preparation. -/
theorem recorded_of_ne_store (hrun : f.progress.status = .running) (hr : Request.ofArgs? op args = some r)
    (hstore : r.operation ≠ .storageStore) :
    ∃ l, Recorded l f (after (invoke m op args) f) ∧ l.length ≤ 1 ∧ ∀ e ∈ l, r.Asks m f.memory e := by
  obtain ⟨g, hasked, hend, -⟩ := invoke_ending (m := m) hrun hr
  obtain ⟨l, hlength, hl, heffects, hworld⟩ := hasked.asked
  have hprepared : Recorded l f g := ⟨heffects, hworld⟩
  refine ⟨l, ?_, hlength, fun e he => (hl e he).1⟩
  cases hend with
  | done a h =>
    rw [after_ok h]
    exact hprepared
  | trap why h _ =>
    rw [after_error h]
    exact ⟨heffects, hworld⟩
  | commit c a k hc hcommit h _ =>
    have hrecorded := recorded_run (Request.not_alters_of_commits hc hstore) g
    rw [after_ok hcommit] at hrecorded
    have hall := hprepared.trans hrecorded
    rw [List.append_nil] at hall
    rw [after_ok h]
    exact hall
  | refuse c text k hc halters _ _ _ => exact absurd halters (Request.not_alters_of_commits hc hstore)

/-- Whatever an invocation asks is asked by a request of a running execution that could pay for it, and is a
beginning of what the request asks. -/
theorem recorded_invoke (hcallee : m.callee = .ofKeys ["accounts", a.key, "code"]) (op : Operation)
    (args : List UInt64) (f : Frame τ κ) :
    ∃ l, Recorded l f (after (invoke m op args) f) ∧ (l = [] ∨ f.progress.status = .running ∧
      op.cost.toNat ≤ f.meter.remaining.toNat ∧ op.suspends = true ∧ ∃ r footprint,
        Request.ofArgs? op args = some r ∧ r.Footprint a f.memory footprint ∧ l <+: footprint) := by
  rcases invoke_cases m op args f with ⟨e, hinvoke⟩ | ⟨hrun, r, hr⟩
  · rw [after_error hinvoke]
    exact ⟨[], .of_eq rfl rfl, .inl rfl⟩
  have hop := Request.operation_of_ofArgs? hr
  rcases Nat.lt_or_ge f.meter.remaining.toNat op.cost.toNat with hlt | hle
  · rw [after_error (invoke_of_lt hrun hr hlt)]
    exact ⟨[], .of_eq rfl rfl, .inl rfl⟩
  by_cases hstore : r.operation = .storageStore
  · obtain ⟨key, value, rfl⟩ := Request.eq_store_of_operation hstore
    obtain ⟨l, hrecorded, rfl | ⟨k, v, hk, hv, hl⟩⟩ := recorded_store (m := m) hrun hr
    · exact ⟨[], hrecorded, .inl rfl⟩
    · rw [hcallee, Path.slot_code] at hl
      subst hop
      exact ⟨l, hrecorded, .inr ⟨hrun, hle, rfl, _, _, hr, ⟨k, v, hk, hv, rfl⟩, hl⟩⟩
  · obtain ⟨l, hrecorded, hlength, hl⟩ := recorded_of_ne_store (m := m) hrun hr hstore
    rcases l with _ | ⟨e, _ | ⟨e', l⟩⟩
    · exact ⟨[], hrecorded, .inl rfl⟩
    · have hasks := hl e (List.mem_singleton_self e)
      have hsuspends := Request.suspends_of_asks hasks
      rw [hop] at hsuspends
      exact ⟨[e], hrecorded, .inr ⟨hrun, hle, hsuspends, r, [e], hr,
        Request.footprint_of_asks hcallee hasks hstore, List.prefix_refl _⟩⟩
    · simp only [List.length_cons] at hlength
      omega

/-- What an invocation by code in the account of `a` asks is a beginning of what its request asks, and only a store
writes. -/
theorem invoke_footprint (hcallee : m.callee = .ofKeys ["accounts", a.key, "code"]) (op : Operation)
    (args : List UInt64) (f : Frame τ κ) :
    ∃ l, Recorded l f (after (invoke m op args) f) ∧
      (l = [] ∨ ∃ r footprint, Request.ofArgs? op args = some r ∧ r.Footprint a f.memory footprint ∧
        l <+: footprint) ∧
      (∃ reads writes, l = reads ++ writes ∧ reads.length ≤ 1 ∧ writes.length ≤ 1 ∧
        (∀ e ∈ reads, e.isWrite = false) ∧ ∀ e ∈ writes, e.isWrite = true ∧ op = .storageStore) ∧
      (f.progress.status ≠ .running ∨ args.length ≠ op.params.length ∨
        f.meter.remaining.toNat < op.cost.toNat ∨ op.suspends = false → l = []) ∧
      ∀ k : Word, k.key.toList.length = 64 ∧ (∀ c ∈ k.key.toList, '0' ≤ c ∧ c ≤ '9' ∨ 'a' ≤ c ∧ c ≤ 'f') ∧
        Hex.decode? k.key.toList = some k.toList := by
  obtain ⟨l, hrecorded, rfl | ⟨hrun, hle, hsuspends, r, footprint, hr, hfootprint, hl⟩⟩ :=
    recorded_invoke hcallee op args f
  · exact ⟨[], hrecorded, .inl rfl, ⟨[], [], rfl, by simp⟩, fun _ => rfl, Word.key_digits⟩
  · have hop := Request.operation_of_ofArgs? hr
    have harity : args.length = op.params.length := by
      by_contra hne
      rw [Request.ofArgs?_eq_none_iff.2 hne] at hr
      cases hr
    have hsplit := hfootprint.reads_writes hl
    rw [hop] at hsplit
    refine ⟨l, hrecorded, .inr ⟨r, footprint, hr, hfootprint, hl⟩, hsplit, ?_, Word.key_digits⟩
    rintro (hnot | hnot | hnot | hnot)
    · exact absurd hrun hnot
    · exact absurd harity hnot
    · exact absurd hle (Nat.not_le.2 hnot)
    · rw [hsuspends] at hnot
      cases hnot

private def keeping : Message where
  callee := .accountField .zero "code"
  sender := .root
  origin := .root
  gas := 20000

private def keepingStart : Frame NodeTree Script := .start keeping {} {} (.ofBytes (List.replicate 64 1))

/-- A store that is carried out asks for all that it may. -/
theorem invoke_footprint_store :
    ∃ l, Recorded l keepingStart (after (invoke keeping .storageStore [0, 32]) keepingStart) ∧ l.length = 2 ∧
      ∃ r footprint, Request.ofArgs? .storageStore [0, 32] = some r ∧
        r.Footprint .zero keepingStart.memory footprint ∧ l <+: footprint := by
  have hsize : (after (invoke keeping .storageStore [0, 32]) keepingStart).effects.size = 2 := by decide +kernel
  have hcallee : keeping.callee = .ofKeys ["accounts", Address.zero.key, "code"] := rfl
  obtain ⟨l, hrecorded, hfootprint, -⟩ := invoke_footprint hcallee .storageStore [0, 32] keepingStart
  have hlength : l.length = 2 := by
    have heffects := congrArg List.length hrecorded.effects
    have hstart : keepingStart.effects.toList.length = 0 := rfl
    rw [Array.length_toList, hsize, List.length_append] at heffects
    omega
  rcases hfootprint with rfl | hfootprint
  · cases hlength
  · exact ⟨l, hrecorded, hlength, hfootprint⟩

end

/-! ### Runs -/

theorem within_turn {a : Address} (hcallee : m.callee = .ofKeys ["accounts", a.key, "code"]) (f : Frame τ κ)
    (t : Turn) (h : ∀ e ∈ f.effects.toList, e.Within a) : ∀ e ∈ (turn m f t).2.effects.toList, e.Within a := by
  obtain ⟨l, hrecorded, hl⟩ := recorded_invoke hcallee t.op t.args { f with memory := t.memory }
  rw [turn_snd, hrecorded.effects]
  intro e he
  rcases List.mem_append.1 he with he | he
  · exact h e he
  · rcases hl with rfl | ⟨-, -, -, r, footprint, -, hfootprint, hl⟩
    · cases he
    · exact hfootprint.within e (hl.subset he)

/-- Whatever code in the account of `a` asks in the course of a run is within what it may ask. -/
theorem within_play {a : Address} (hcallee : m.callee = .ofKeys ["accounts", a.key, "code"]) (tree : τ) (kernel : κ)
    (memory : Memory) (turns : List Turn) :
    ∀ e ∈ (play m (.start m tree kernel memory) turns).2.effects.toList, e.Within a :=
  play_invariant (within_turn hcallee) turns (by simp [Frame.start])

end Host

end ContractHost
