import ContractHost.Proofs.Dispatch

/-!
# Nested calls

A message that an execution sends makes another execution, which may send messages in turn.  In a chain of such calls
(`CallChain`) every message is addressed to the code of the account that was called, which is the account that its
execution reports, and all belong to one transaction: they have the origin, the gas price and the block of the first
(`CallChain.callee_eq`, `CallChain.transaction_eq`).

A call is made in the name of the account whose code makes it, with the value and the gas that were asked for.  A
delegate call is marked as such, and waited for; it passes on the sender and the value of the message that it is made
under, so these are those of the nearest message above that was not sent by a delegate call
(`CallChain.exists_principal`).  `identity_along_calls` is all of this together.
-/

namespace ContractHost

/-- Some execution of `m` sends `m'` for the errand `e`: there are a state tree and a kernel, a memory to start with
and a run of turns in one passage of which the contract asks for `e` and `m'` is sent. -/
def Message.Begets (m : Message) (e : Errand) (m' : Message) : Prop :=
  ∃ (τ κ : Type) (_ : Tree τ) (_ : Kernel κ) (tree : τ) (kernel : κ) (memory : Memory) (turns : List Turn)
    (p : Passage τ κ), p ∈ Host.passages m (.start m tree kernel memory) turns ∧ p.turn.errand? = some e ∧
      p.left.sent = p.found.sent ++ [m']

/-- A chain of nested calls, of which the first message runs the code of `account`: message `i + 1` is sent for
errand `i` by an execution of message `i`. -/
structure CallChain where
  length : Nat
  account : Address
  message : Nat → Message
  errand : Nat → Errand
  callee_zero : (message 0).callee = .ofKeys ["accounts", account.key, "code"]
  begets : ∀ i < length, (message i).Begets (errand i) (message (i + 1))

/-- The account that message `i` calls. -/
def CallChain.target (c : CallChain) : Nat → Address
  | 0 => c.account
  | i + 1 => (c.errand i).call.target

/-! ### One call -/

namespace Message

variable {m m' : Message} {e : Errand} {a : Address}

/-- Whatever is sent for an errand is the message of the errand. -/
theorem Begets.eq (h : m.Begets e m') : m' = e.message m := by
  obtain ⟨τ, κ, _, _, tree, kernel, memory, turns, p, hp, hturn, hsent⟩ := h
  have hpassage := Host.eq_passage_of_mem hp
  obtain ⟨l, hrecorded, hl⟩ := Host.recorded_turn m p.found p.turn
  have hleft : p.left = (Host.turn m p.found p.turn).2 := congrArg Passage.left hpassage
  rw [← hpassage] at hl
  rw [hleft, hrecorded.sent_eq, hl, List.append_cancel_left_eq] at hsent
  cases herrand : p.errand? with
  | none => simp [herrand] at hsent
  | some e' =>
    have hsame := (Passage.errand?_eq_some_iff.1 herrand).1
    rw [hturn] at hsame
    obtain rfl := Option.some.inj hsame
    simpa [herrand] using hsent.symm

/-- A message that is sent in the first turn of an execution. -/
theorem begets_of_turn {τ κ : Type} [Tree τ] [Kernel κ] (tree : τ) (kernel : κ) (memory : Memory) {t : Turn}
    (hturn : t.errand? = some e) (hsent : (Host.turn m (.start m tree kernel memory) t).2.sent = [m']) :
    m.Begets e m' := by
  have hmem : Host.passage m (.start m tree kernel memory) t ∈ Host.passages m (.start m tree kernel memory) [t] :=
    List.mem_singleton_self _
  exact ⟨τ, κ, inferInstance, inferInstance, tree, kernel, memory, [t], _, hmem, hturn, hsent⟩

theorem executor_of_callee (h : m.callee = .ofKeys ["accounts", a.key, "code"]) : m.executor = a := by
  have haddress : m.callee.address? = Address.parse? a.key := by
    rw [h]
    rfl
  rw [executor, haddress, Address.parse?_key]
  rfl

theorem caller_of_sender (h : m.sender = .ofKeys ["accounts", a.key]) : m.caller = a := by
  have haddress : m.sender.address? = Address.parse? a.key := by
    rw [h]
    rfl
  rw [caller, haddress, Address.parse?_key]
  rfl

end Message

namespace Errand

variable {m : Message} {e : Errand} {a : Address}

/-- The message goes to the code of the target, found from the code that sends it. -/
theorem callee_message_eq (m : Message) (e : Errand) :
    (e.message m).callee = .codeOf (m.callee.sibling e.call.target) := by
  unfold message
  cases e.kind <;> rfl

theorem callee_message (h : m.callee = .ofKeys ["accounts", a.key, "code"]) :
    (e.message m).callee = .ofKeys ["accounts", e.call.target.key, "code"] := by
  rw [callee_message_eq, h, Path.sibling_code]
  rfl

theorem transaction_message (m : Message) (e : Errand) :
    (e.message m).origin = m.origin ∧ (e.message m).gasPrice = m.gasPrice ∧ (e.message m).block = m.block := by
  unfold message
  cases e.kind <;> exact ⟨rfl, rfl, rfl⟩

/-- A call comes from the account whose code makes it, with the value and the gas that it asks for. -/
theorem message_of_call (h : m.callee = .ofKeys ["accounts", a.key, "code"]) (hkind : e.kind = .call) :
    (e.message m).sender = .ofKeys ["accounts", a.key] ∧ (e.message m).value = e.call.value ∧
      (e.message m).gas = e.call.gas := by
  rw [message, hkind]
  refine ⟨?_, rfl, rfl⟩
  simp only [SubCall.message]
  rw [h, Path.accountRoot?_code]
  rfl

/-- A delegate call passes sender and value on. -/
theorem message_of_delegate (hkind : e.kind = .delegate) :
    (e.message m).sender = m.sender ∧ (e.message m).value = m.value ∧ (e.message m).gas = e.call.gas ∧
      (e.message m).kind = .delegate ∧ (e.message m).sync = true := by
  rw [message, hkind]
  exact ⟨rfl, rfl, rfl, rfl, rfl⟩

end Errand

/-! ### The chain -/

namespace CallChain

variable (c : CallChain)

theorem message_succ {i : Nat} (hi : i < c.length) : c.message (i + 1) = (c.errand i).message (c.message i) :=
  (c.begets i hi).eq

theorem callee_eq {i : Nat} (hi : i ≤ c.length) :
    (c.message i).callee = .ofKeys ["accounts", (c.target i).key, "code"] := by
  induction i with
  | zero => exact c.callee_zero
  | succ i ih =>
    rw [c.message_succ hi]
    exact Errand.callee_message (ih (Nat.le_of_succ_le hi))

theorem transaction_eq {i : Nat} (hi : i ≤ c.length) :
    (c.message i).origin = (c.message 0).origin ∧ (c.message i).gasPrice = (c.message 0).gasPrice ∧
      (c.message i).block = (c.message 0).block := by
  induction i with
  | zero => exact ⟨rfl, rfl, rfl⟩
  | succ i ih =>
    obtain ⟨horigin, hprice, hblock⟩ := ih (Nat.le_of_succ_le hi)
    obtain ⟨horigin', hprice', hblock'⟩ := Errand.transaction_message (c.message i) (c.errand i)
    rw [c.message_succ hi]
    exact ⟨horigin'.trans horigin, hprice'.trans hprice, hblock'.trans hblock⟩

/-- Sender and value of a message are those of the nearest message above it, or of itself, that is the first of the
chain or was not sent by a delegate call. -/
theorem exists_principal {i : Nat} (hi : i ≤ c.length) :
    ∃ j ≤ i, (j = 0 ∨ (c.errand (j - 1)).kind = .call) ∧ (∀ k, j ≤ k → k < i → (c.errand k).kind = .delegate) ∧
      (c.message i).sender = (c.message j).sender ∧ (c.message i).value = (c.message j).value := by
  induction i with
  | zero => exact ⟨0, Nat.le_refl 0, .inl rfl, by simp, rfl, rfl⟩
  | succ i ih =>
    cases hkind : (c.errand i).kind with
    | call => exact ⟨i + 1, Nat.le_refl _, .inr hkind, fun k hle hlt => absurd hle (Nat.not_le.2 hlt), rfl, rfl⟩
    | delegate =>
      obtain ⟨j, hj, hfirst, hbetween, hsender, hvalue⟩ := ih (Nat.le_of_succ_le hi)
      obtain ⟨hsender', hvalue', -⟩ := Errand.message_of_delegate (m := c.message i) hkind
      rw [c.message_succ hi]
      refine ⟨j, Nat.le_succ_of_le hj, hfirst, fun k hjk hk => ?_, hsender'.trans hsender, hvalue'.trans hvalue⟩
      rcases Nat.lt_succ_iff_lt_or_eq.1 hk with hlt | rfl
      · exact hbetween k hjk hlt
      · exact hkind

/-- Along a chain of nested calls: for whom each message is, to which transaction it belongs, and in whose name it is
sent. -/
theorem identity_along_calls :
    (∀ i ≤ c.length, (c.message i).callee = .ofKeys ["accounts", (c.target i).key, "code"] ∧
      (c.message i).executor = c.target i ∧ (c.message i).origin = (c.message 0).origin ∧
      (c.message i).gasPrice = (c.message 0).gasPrice ∧ (c.message i).block = (c.message 0).block) ∧
    (∀ i < c.length, (c.errand i).kind = .call →
      (c.message (i + 1)).sender = .ofKeys ["accounts", (c.target i).key] ∧
      (c.message (i + 1)).caller = c.target i ∧ (c.message (i + 1)).value = (c.errand i).call.value ∧
      (c.message (i + 1)).gas = (c.errand i).call.gas) ∧
    (∀ i < c.length, (c.errand i).kind = .delegate →
      (c.message (i + 1)).sender = (c.message i).sender ∧ (c.message (i + 1)).value = (c.message i).value ∧
      (c.message (i + 1)).gas = (c.errand i).call.gas ∧ (c.message (i + 1)).kind = .delegate ∧
      (c.message (i + 1)).sync = true) ∧
    ∀ i ≤ c.length, ∃ j ≤ i, (j = 0 ∨ (c.errand (j - 1)).kind = .call) ∧
      (∀ k, j ≤ k → k < i → (c.errand k).kind = .delegate) ∧
      (c.message i).sender = (c.message j).sender ∧ (c.message i).value = (c.message j).value := by
  refine ⟨fun i hi => ?_, fun i hi hkind => ?_, fun i hi hkind => ?_, fun i hi => c.exists_principal hi⟩
  · have hcallee := c.callee_eq hi
    exact ⟨hcallee, Message.executor_of_callee hcallee, c.transaction_eq hi⟩
  · obtain ⟨hsender, hvalue, hgas⟩ := Errand.message_of_call (c.callee_eq (Nat.le_of_lt hi)) hkind
    rw [c.message_succ hi]
    exact ⟨hsender, Message.caller_of_sender hsender, hvalue, hgas⟩
  · rw [c.message_succ hi]
    exact Errand.message_of_delegate hkind

private def outermost : Message :=
  { callee := .accountField .zero "code", sender := .root, origin := .root, gas := 10000 }

/-- A call that carries 5 units of value. -/
private def paid : Errand := ⟨.call, 1000, .replicate 20 1, 5, []⟩

private def delegated : Errand := ⟨.delegate, 100, .replicate 20 2, 0, []⟩

private theorem outermost_begets : outermost.Begets paid (paid.message outermost) := by
  let memory := Memory.ofBytes (List.replicate 20 1 ++ List.replicate 15 0 ++ [5])
  have hturn : (Turn.mk memory .call [1000, 0, 20, 36, 0, 0, 0]).errand? = some paid := by decide +kernel
  exact Message.begets_of_turn ({} : NodeTree) ({} : Script) memory hturn (by decide +kernel)

private theorem paid_begets :
    (paid.message outermost).Begets delegated (delegated.message (paid.message outermost)) := by
  let memory := Memory.ofBytes (List.replicate 20 2)
  have hturn : (Turn.mk memory .callDelegate [100, 0, 0, 0, 0, 0]).errand? = some delegated := by decide +kernel
  exact Message.begets_of_turn ({} : NodeTree) ({} : Script) memory hturn (by decide +kernel)

private def twoCalls : CallChain where
  length := 2
  account := .zero
  message
    | 0 => outermost
    | 1 => paid.message outermost
    | _ => delegated.message (paid.message outermost)
  errand
    | 0 => paid
    | _ => delegated
  callee_zero := rfl
  begets
    | 0, _ => outermost_begets
    | 1, _ => paid_begets

/-- A delegate call under a call that carries value: it runs the code of the second account, but comes from where the
call came from, and the value is still that of the call. -/
theorem identity_along_calls_delegated :
    (twoCalls.message 2).executor = .replicate 20 2 ∧ (twoCalls.message 2).caller = .zero ∧
      (twoCalls.message 2).value = 5 := by
  obtain ⟨hmessage, hcall, hdelegate, -⟩ := identity_along_calls twoCalls
  obtain ⟨-, hexecutor, -⟩ := hmessage 2 (Nat.le_refl 2)
  obtain ⟨hsender, -, hvalue, -⟩ := hcall 0 (by decide) rfl
  obtain ⟨hsender', hvalue', -⟩ := hdelegate 1 (by decide) rfl
  exact ⟨hexecutor, Message.caller_of_sender (hsender'.trans hsender), hvalue'.trans hvalue⟩

end CallChain

end ContractHost
