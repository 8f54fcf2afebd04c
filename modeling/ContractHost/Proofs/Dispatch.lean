import ContractHost.Proofs.Atomicity
import ContractHost.Proofs.Footprint

/-!
# Which calls are sent

An execution has messages sent by two operations, `call` and `callDelegate`.  What they ask for is an errand, read out
of the memory (`Request.errand?`), and whether it is sent is settled before the kernel is asked, and not by how the
invocation ends (`Passage.errand?`).  It is sent exactly if the execution is running, there is the right number of
arguments, the address, the value that a `call` has and the data lie inside the memory, and the gas covers the base
price and, for a call that carries value, 6700 and the gas of the callee.

`sent_in_order` says that the kernel receives the messages of these errands, each once and in the order of the turns,
and no other.
-/

namespace ContractHost

deriving instance DecidableEq for SubCall

/-- A call that is to be sent: in the name of the caller, or in that of the caller's sender. -/
structure Errand where
  kind : MessageKind
  call : SubCall
  deriving DecidableEq

namespace Errand

/-- The message by which the execution of `m` sends the errand. -/
def message (m : Message) (e : Errand) : Message :=
  match e.kind with
  | .call => e.call.message m
  | .delegate => e.call.delegateMessage m

/-- The gas that must be there beyond the base price: a call that carries value has to lay out the price of the value
and the gas of the callee. -/
def outlay (e : Errand) : Nat :=
  match e.kind with
  | .call => if e.call.value = 0 then 0 else 6700 + e.call.gas.toNat
  | .delegate => 0

end Errand

namespace Request

/-- The errand that the request spells with the memory `M`. -/
def errand? (M : Memory) : Request → Option Errand
  | call gas address value data length _ _ => (M.subCall? gas address (some value) data length).map (⟨.call, ·⟩)
  | callDelegate gas address data length _ _ => (M.subCall? gas address none data length).map (⟨.delegate, ·⟩)
  | _ => none

/-- Whether the request spells an errand, all of whose parts lie inside the memory `M`: the address, the value, if it
has one, and the data. -/
def Legible (M : Memory) : Request → Prop
  | call _ address value data length _ _ =>
    M.Fits address.toNat 20 ∧ M.Fits value.toNat 16 ∧ M.Fits data.toNat length.toNat
  | callDelegate _ address data length _ _ => M.Fits address.toNat 20 ∧ M.Fits data.toNat length.toNat
  | _ => False

end Request

/-- The errand that a contract asks for in its turn. -/
def Turn.errand? (t : Turn) : Option Errand := (Request.ofArgs? t.op t.args).bind (·.errand? t.memory)

variable {τ κ : Type}

/-- The errand that is sent in the passage: the execution is running, and its gas covers the base price and the
outlay for the errand. -/
def Passage.errand? (p : Passage τ κ) : Option Errand :=
  p.turn.errand?.filter fun e =>
    p.found.progress.status = .running ∧ p.turn.op.cost.toNat + e.outlay ≤ p.found.meter.remaining.toNat

/-- The message that is sent, if one is. -/
def Effect.message? : Effect → Option Message
  | send m => some m
  | _ => none

/-- The messages sent so far, oldest first. -/
def Frame.sent (f : Frame τ κ) : List Message := f.effects.toList.filterMap Effect.message?

/-- The kernel after it has received the messages, one after the other. -/
def Kernel.receive [Kernel κ] (k : κ) (messages : List Message) : κ :=
  messages.foldl (fun k m => (Kernel.send k m).2) k

/-! ### Reading an errand -/

namespace Memory

variable (M : Memory) (offset : UInt32)

theorem isSome_read? (length : Nat) : (M.read? offset length).isSome = true ↔ M.Fits offset.toNat length := by
  unfold read?
  split
  · rename_i h
    simp [h]
  · rename_i h
    simp [h]

theorem length_of_read? {M : Memory} {offset : UInt32} {length : Nat} {b : Bytes}
    (h : M.read? offset length = some b) : b.length = length := by
  unfold read? at h
  split at h
  · cases h
    simp
  · cases h

theorem isSome_readVector? (n : Nat) : (M.readVector? n offset).isSome = true ↔ M.Fits offset.toNat n := by
  rw [readVector?, ← isSome_read?]
  cases h : M.read? offset n with
  | none => rfl
  | some b => simp [Bytes.toVector?, length_of_read? h]

theorem isSome_readAmount? : (M.readAmount? offset).isSome = true ↔ M.Fits offset.toNat 16 := by
  rw [readAmount?, ← isSome_read?]
  cases h : M.read? offset 16 with
  | none => rfl
  | some b => simp [Amount.ofBytes?, length_of_read? h]

end Memory

/-- An errand is read exactly if its parts lie inside the memory. -/
theorem Request.isSome_errand?_iff {M : Memory} {r : Request} : (r.errand? M).isSome = true ↔ r.Legible M := by
  cases r with
  | call gas address value data length result resultLength =>
    rw [Legible, ← M.isSome_readVector? address, ← M.isSome_readAmount? value, ← M.isSome_read? data, errand?,
      Memory.subCall?]
    dsimp only
    cases M.readVector? 20 address <;> cases M.readAmount? value <;> cases M.read? data length.toNat <;> simp
  | callDelegate gas address data length result resultLength =>
    rw [Legible, ← M.isSome_readVector? address, ← M.isSome_read? data, errand?, Memory.subCall?]
    cases M.readVector? 20 address <;> cases M.read? data length.toNat <;> simp
  | _ => simp [errand?, Legible]

theorem Turn.errand?_eq_some_iff {t : Turn} {e : Errand} :
    t.errand? = some e ↔ ∃ r, Request.ofArgs? t.op t.args = some r ∧ r.errand? t.memory = some e :=
  Option.bind_eq_some_iff

theorem Passage.errand?_eq_some_iff {p : Passage τ κ} {e : Errand} :
    p.errand? = some e ↔ p.turn.errand? = some e ∧ p.found.progress.status = .running ∧
      p.turn.op.cost.toNat + e.outlay ≤ p.found.meter.remaining.toNat := by
  rw [errand?, Option.filter_eq_some_iff, decide_eq_true_iff]

theorem Request.operation_of_legible {M : Memory} {r : Request} (h : r.Legible M) :
    r.operation = .call ∨ r.operation = .callDelegate := by
  cases r with
  | call _ _ _ _ _ _ _ => exact .inl rfl
  | callDelegate _ _ _ _ _ _ => exact .inr rfl
  | _ => exact h.elim

/-! ### What is sent is on record -/

section

variable [Tree τ] [Kernel κ] {f g : Frame τ κ} {l : List Effect}

theorem Effect.kernel_carry (l : List Effect) (w : τ × κ) :
    (l.foldl carry w).2 = Kernel.receive w.2 (l.filterMap message?) := by
  induction l generalizing w with
  | nil => rfl
  | cons e l ih =>
    rw [List.foldl_cons, ih]
    cases e <;> rfl

namespace Frame.Recorded

theorem sent_eq (h : Recorded l f g) : g.sent = f.sent ++ l.filterMap Effect.message? := by
  rw [Frame.sent, h.effects, List.filterMap_append]
  rfl

theorem kernel_eq (h : Recorded l f g) : g.kernel = Kernel.receive f.kernel (l.filterMap Effect.message?) := by
  have hworld := congrArg Prod.snd h.world
  rw [Effect.kernel_carry] at hworld
  exact hworld

end Frame.Recorded

end

namespace Host

variable [Tree τ] [Kernel κ] {α β : Type} {m : Message} {f : Frame τ κ} {l : List Effect}

open ContractHost.Frame (Recorded)

/-- Computations that ask nothing of the state tree or the kernel. -/
def Quiet (x : Host τ κ α) : Prop := ∀ f, Recorded [] f (after x f)

theorem quiet_pure (a : α) : Quiet (pure a : Host τ κ α) := fun _ => .of_eq rfl rfl

/-- If only what comes first asks for something, that is all that is asked. -/
theorem recorded_bind_quiet {x : Host τ κ α} {next : α → Host τ κ β} (hx : Recorded l f (after x f))
    (hnext : ∀ a, Quiet (next a)) : Recorded l f (after (x >>= next) f) := by
  cases h : x f with
  | ok a g =>
    rw [after_ok h] at hx
    have hall := hx.trans (hnext a g)
    rw [List.append_nil] at hall
    rw [after_bind_ok h]
    exact hall
  | error e g =>
    rw [after_error h] at hx
    rw [after_bind_error h]
    exact hx

theorem Quiet.bind {x : Host τ κ α} {next : α → Host τ κ β} (hx : Quiet x) (hnext : ∀ a, Quiet (next a)) :
    Quiet (x >>= next) :=
  fun f => recorded_bind_quiet (hx f) hnext

theorem quiet_writeOutput (offset length : UInt32) (output : Bytes) :
    Quiet (writeOutput offset length output : Host τ κ Unit) := by
  unfold writeOutput
  split
  · exact quiet_pure ()
  · exact recorded_edit _

/-! ### Calls -/

omit [Tree τ] [Kernel κ] in
theorem payCall_of_outlay_le {c : SubCall} (h : (Errand.mk .call c).outlay ≤ f.meter.remaining.toNat) :
    ∃ amount, payCall c f = .ok () (f.spend amount) := by
  by_cases hvalue : c.value = 0
  · refine ⟨0, ?_⟩
    rw [Frame.spend_zero]
    exact payCall_of_eq hvalue f
  · have houtlay : (Errand.mk .call c).outlay = 6700 + c.gas.toNat := if_neg hvalue
    exact ⟨_, payCall_of_le hvalue (by omega)⟩

omit [Tree τ] [Kernel κ] in
theorem payCall_of_lt_outlay {c : SubCall} (hcap : f.meter.remaining.toNat < Gas.cap)
    (h : f.meter.remaining.toNat < (Errand.mk .call c).outlay) : payCall c f = .error (.trap .outOfGas) f := by
  by_cases hvalue : c.value = 0
  · have houtlay : (Errand.mk .call c).outlay = 0 := if_pos hvalue
    omega
  · have houtlay : (Errand.mk .call c).outlay = 6700 + c.gas.toNat := if_neg hvalue
    exact payCall_of_lt hvalue (by omega)

theorem recorded_send (message : Message) (f : Frame τ κ) : Recorded [.send message] f (after (send message) f) :=
  .ask _ rfl

/-- A call whose gas can be laid out is sent, whatever comes back. -/
theorem recorded_call {c : SubCall} (h : (Errand.mk .call c).outlay ≤ f.meter.remaining.toNat) :
    Recorded [.send (c.message m)] f (after (call m c) f) := by
  obtain ⟨amount, hpay⟩ := payCall_of_outlay_le h
  have hspend : Recorded [] f (f.spend amount) := .of_eq rfl rfl
  rw [call, after_bind_ok hpay]
  refine hspend.trans (recorded_bind_quiet (recorded_send _ _) fun answer => ?_)
  split
  · exact quiet_pure _
  · exact Quiet.bind (recorded_charge _) fun _ => quiet_pure _

theorem recorded_call_of_lt {c : SubCall} (hcap : f.meter.remaining.toNat < Gas.cap)
    (h : f.meter.remaining.toNat < (Errand.mk .call c).outlay) : Recorded [] f (after (call m c) f) := by
  rw [call, after_bind_error (payCall_of_lt_outlay hcap h)]
  exact .of_eq rfl rfl

theorem recorded_callDelegate (m : Message) (c : SubCall) (f : Frame τ κ) :
    Recorded [.send (c.delegateMessage m)] f (after (callDelegate m c) f) := by
  refine recorded_bind_quiet (recorded_send _ f) fun answer => ?_
  split <;> exact quiet_pure _

/-- What follows the reading of an errand is asked only if there is one. -/
theorem recorded_readSubCall {gas : UInt64} {address : UInt32} {value : Option UInt32} {data length : UInt32}
    {next : SubCall → Host τ κ α}
    (h : ∀ c, f.memory.subCall? gas address value data length = some c → Recorded l f (after (next c) f))
    (hnone : f.memory.subCall? gas address value data length = none → l = []) :
    Recorded l f (after (readSubCall gas address value data length >>= next) f) := by
  rw [readSubCall_eq]
  cases hc : f.memory.subCall? gas address value data length with
  | none =>
    rw [after_bind_error (view_of_none hc), hnone hc]
    exact .of_eq rfl rfl
  | some c =>
    rw [after_bind_ok (view_of_some hc)]
    exact h c hc

/-- What serving a request for an errand sends. -/
theorem recorded_serve {r : Request} (hop : r.operation = .call ∨ r.operation = .callDelegate)
    (hcap : f.meter.remaining.toNat < Gas.cap) :
    let errand? := (r.errand? f.memory).filter fun e => e.outlay ≤ f.meter.remaining.toNat
    Recorded (errand?.map fun e => .send (e.message m)).toList f (after (serve m r) f) := by
  intro errand?
  have hreport (result resultLength : UInt32) (answer : Verdict × Bytes) :
      Quiet (do
        writeOutput result resultLength answer.2
        return some answer.1.code : Host τ κ (Option UInt64)) :=
    (quiet_writeOutput result resultLength answer.2).bind fun _ => quiet_pure _
  cases r with
  | call gas address value data length result resultLength =>
    refine recorded_readSubCall (fun c hc => recorded_bind_quiet ?_ (hreport result resultLength))
      fun hnone => ?_
    · have herrand : errand? = (some (Errand.mk .call c)).filter fun e => e.outlay ≤ f.meter.remaining.toNat := by
        simp only [errand?, Request.errand?, hc, Option.map_some]
      rcases Nat.lt_or_ge f.meter.remaining.toNat (Errand.mk .call c).outlay with hlt | hle
      · have hnot : ¬ (Errand.mk .call c).outlay ≤ f.meter.remaining.toNat := Nat.not_le.2 hlt
        simp only [herrand, Option.filter_some, hnot, decide_false]
        exact recorded_call_of_lt hcap hlt
      · simp only [herrand, Option.filter_some, hle, decide_true]
        exact recorded_call hle
    · simp [errand?, Request.errand?, hnone]
  | callDelegate gas address data length result resultLength =>
    refine recorded_readSubCall (fun c hc => recorded_bind_quiet ?_ (hreport result resultLength))
      fun hnone => ?_
    · have herrand : errand? = some (Errand.mk .delegate c) := by
        simp [errand?, Request.errand?, hc, Errand.outlay]
      rw [herrand]
      exact recorded_callDelegate m c f
    · simp [errand?, Request.errand?, hnone]
  | _ => simp [Request.operation] at hop

/-- A request that is no call sends nothing. -/
theorem recorded_of_ne_call {op : Operation} {args : List UInt64} {r : Request}
    (hrun : f.progress.status = .running) (hr : Request.ofArgs? op args = some r)
    (hop : ¬ (r.operation = .call ∨ r.operation = .callDelegate)) :
    ∃ l, Recorded l f (after (invoke m op args) f) ∧ l.filterMap Effect.message? = [] := by
  by_cases hstore : r.operation = .storageStore
  · obtain ⟨key, value, rfl⟩ := Request.eq_store_of_operation hstore
    obtain ⟨l, hrecorded, hl⟩ := recorded_store (m := m) hrun hr
    refine ⟨l, hrecorded, List.filterMap_eq_nil_iff.2 fun e he => ?_⟩
    rcases hl with rfl | ⟨k, v, -, -, hl⟩
    · cases he
    · rcases List.mem_pair.1 (hl.subset he) with rfl | rfl
      · rfl
      · unfold Effect.store
        split <;> rfl
  · obtain ⟨l, hrecorded, -, hl⟩ := recorded_of_ne_store (m := m) hrun hr hstore
    refine ⟨l, hrecorded, List.filterMap_eq_nil_iff.2 fun e he => ?_⟩
    cases e with
    | send message => exact absurd (Request.operation_of_asks_send (hl _ he)) hop
    | get _ | hash _ | set _ _ | delete _ => rfl

/-- A call that has paid its base price sends its errand, if it can be read and laid out for. -/
theorem recorded_of_call {op : Operation} {args : List UInt64} {r : Request}
    (hrun : f.progress.status = .running) (hr : Request.ofArgs? op args = some r)
    (hop : r.operation = .call ∨ r.operation = .callDelegate) :
    let errand? := (r.errand? f.memory).filter fun e => op.cost.toNat + e.outlay ≤ f.meter.remaining.toNat
    Recorded (errand?.map fun e => .send (e.message m)).toList f (after (invoke m op args) f) := by
  intro errand?
  rcases Nat.lt_or_ge f.meter.remaining.toNat op.cost.toNat with hlt | hle
  · have hnone : errand? = none := by
      refine Option.filter_eq_none_iff.2 fun e _ => ?_
      simp only [decide_eq_true_eq]
      omega
    rw [hnone, after_error (invoke_of_lt hrun hr hlt)]
    exact .of_eq rfl rfl
  · have hcost : op.cost.toNat = 40 := by
      rw [← Request.operation_of_ofArgs? hr]
      rcases hop with hop | hop <;> rw [hop] <;> rfl
    have hremaining := f.toNat_remaining_spend op.cost.toNat
    have hspend : Recorded [] f (f.spend op.cost.toNat) := .of_eq rfl rfl
    have hserve := recorded_serve (m := m) (f := f.spend op.cost.toNat) hop (by
      have hlt := f.meter.remaining.toNat_lt
      rw [hremaining, hcost, show Gas.cap = 2 ^ 64 - 1 from rfl]
      omega)
    have hall := (hspend.trans hserve).trans (recorded_trapping (serve m r) (f.spend op.cost.toNat))
    have hafter : after (invoke m op args) f = after (trapping (serve m r)) (f.spend op.cost.toNat) := by
      rw [after, after, invoke_of_le hrun hr hle]
    have herrand : errand? = (r.errand? (f.spend op.cost.toNat).memory).filter fun e =>
        e.outlay ≤ (f.spend op.cost.toNat).meter.remaining.toNat := by
      rw [hremaining]
      refine congrArg (Option.filter · (r.errand? f.memory)) (funext fun e => ?_)
      rw [decide_eq_decide]
      omega
    rw [List.nil_append, List.append_nil, ← herrand] at hall
    rw [hafter]
    exact hall

/-- What a turn sends is the message of the errand that is sent in it. -/
theorem recorded_turn (m : Message) (f : Frame τ κ) (t : Turn) :
    ∃ l, Recorded l f (turn m f t).2 ∧
      l.filterMap Effect.message? = ((passage m f t).errand?.map (·.message m)).toList := by
  let f' : Frame τ κ := { f with memory := t.memory }
  have hmemory : Recorded [] f f' := .of_eq rfl rfl
  rw [turn_snd]
  by_cases hrun : f'.progress.status = .running
  · cases hr : Request.ofArgs? t.op t.args with
    | none =>
      have hnone : (passage m f t).errand? = none := by simp [Passage.errand?, passage, Turn.errand?, hr]
      rw [after_error (invoke_of_arity (f := f') hrun hr), hnone]
      exact ⟨[], hmemory, rfl⟩
    | some r =>
      have hfilter : (passage m f t).errand? = (r.errand? f'.memory).filter fun e =>
          t.op.cost.toNat + e.outlay ≤ f'.meter.remaining.toNat := by
        have hstatus : f.progress.status = .running := hrun
        simp only [Passage.errand?, passage, Turn.errand?, hr, hstatus, Option.bind_some, true_and, f']
      by_cases hop : r.operation = .call ∨ r.operation = .callDelegate
      · have hrecorded := recorded_of_call (m := m) hrun hr hop
        rw [← hfilter] at hrecorded
        refine ⟨_, hmemory.trans hrecorded, ?_⟩
        cases (passage m f t).errand? <;> rfl
      · obtain ⟨l, hrecorded, hl⟩ := recorded_of_ne_call (m := m) hrun hr hop
        have hnone : r.errand? f'.memory = none := by
          rw [← Option.not_isSome_iff_eq_none, Request.isSome_errand?_iff]
          exact mt Request.operation_of_legible hop
        rw [hfilter, hnone]
        exact ⟨l, hmemory.trans hrecorded, hl⟩
  · have hstatus : f.progress.status ≠ .running := hrun
    have hnone : (passage m f t).errand? = none := Option.filter_eq_none_iff.2 fun e _ => by simp [passage, hstatus]
    rw [after_error (invoke_of_terminal (f := f') hrun), hnone]
    exact ⟨[], hmemory, rfl⟩

/-- What is sent in a run is sent in its passages. -/
theorem sent_play (m : Message) (f : Frame τ κ) (turns : List Turn) :
    let messages := (passages m f turns).filterMap fun p => p.errand?.map (·.message m)
    (play m f turns).2.sent = f.sent ++ messages ∧
      (play m f turns).2.kernel = Kernel.receive f.kernel messages := by
  induction turns generalizing f with
  | nil => exact ⟨(List.append_nil _).symm, rfl⟩
  | cons t turns ih =>
    obtain ⟨l, hrecorded, hl⟩ := recorded_turn m f t
    obtain ⟨hsent, hkernel⟩ := ih (turn m f t).2
    have hmessages : (passages m f (t :: turns)).filterMap (fun p => p.errand?.map (·.message m)) =
        l.filterMap Effect.message? ++
          (passages m (turn m f t).2 turns).filterMap fun p => p.errand?.map (·.message m) := by
      rw [hl, passages, List.filterMap_cons]
      cases (passage m f t).errand? <;> rfl
    have hplay : (play m f (t :: turns)).2 = (play m (turn m f t).2 turns).2 := rfl
    intro messages
    simp only [messages, hmessages, hplay]
    rw [hsent, hkernel, hrecorded.sent_eq, hrecorded.kernel_eq, List.append_assoc, Kernel.receive, Kernel.receive,
      Kernel.receive, List.foldl_append]
    exact ⟨rfl, rfl⟩

/-- A kernel that keeps what it receives has received just these messages. -/
theorem received_play (m : Message) (tree : τ) (script : Script) (memory : Memory) (turns : List Turn) :
    (play m (.start m tree script memory) turns).2.kernel.received.toList = script.received.toList ++
      (passages m (.start m tree script memory) turns).filterMap fun p => p.errand?.map (·.message m) := by
  have hreceive (s : Script) (messages : List Message) :
      (Kernel.receive s messages).received.toList = s.received.toList ++ messages := by
    induction messages generalizing s with
    | nil => exact (List.append_nil _).symm
    | cons message messages ih =>
      rw [Kernel.receive, List.foldl_cons, ← Kernel.receive, ih]
      simp [Kernel.send]
  rw [(sent_play m (.start m tree script memory) turns).2, hreceive]
  rfl

/-- In every run the kernel receives the messages of the errands that are sent, each once and in order, and nothing
else. -/
theorem sent_in_order (m : Message) (tree : τ) (kernel : κ) (memory : Memory) (turns : List Turn) :
    let run := passages m (.start m tree kernel memory) turns
    let last := (play m (.start m tree kernel memory) turns).2
    let messages := run.filterMap fun p => p.errand?.map (·.message m)
    last.sent = messages ∧ last.kernel = Kernel.receive kernel messages ∧
    (∀ (f : Frame τ κ) (t : Turn),
      (turn m f t).2.sent = f.sent ++ ((passage m f t).errand?.map (·.message m)).toList) ∧
    ∀ (f : Frame τ κ) (t : Turn), (passage m f t).errand?.isSome = true ↔
      f.progress.status = .running ∧ (t.op = .call ∨ t.op = .callDelegate) ∧
        t.args.length = t.op.params.length ∧ ∃ r e, Request.ofArgs? t.op t.args = some r ∧
          r.Legible t.memory ∧ r.errand? t.memory = some e ∧
          t.op.cost.toNat + e.outlay ≤ f.meter.remaining.toNat := by
  intro run last messages
  obtain ⟨hsent, hkernel⟩ := sent_play m (.start m tree kernel memory) turns
  refine ⟨hsent, hkernel, fun f t => ?_, fun f t => ?_⟩
  · obtain ⟨l, hrecorded, hl⟩ := recorded_turn m f t
    rw [hrecorded.sent_eq, hl]
  · rw [Option.isSome_iff_exists]
    constructor
    · rintro ⟨e, he⟩
      obtain ⟨hturn, hrun, hgas⟩ := Passage.errand?_eq_some_iff.1 he
      obtain ⟨r, hr, hread⟩ := Turn.errand?_eq_some_iff.1 hturn
      have hlegible : r.Legible t.memory := Request.isSome_errand?_iff.1 (Option.isSome_of_eq_some hread)
      have hop := Request.operation_of_legible hlegible
      rw [Request.operation_of_ofArgs? hr] at hop
      exact ⟨hrun, hop, Request.length_of_ofArgs? hr, r, e, hr, hlegible, hread, hgas⟩
    · rintro ⟨hrun, -, -, r, e, hr, -, hread, hgas⟩
      exact ⟨e, Passage.errand?_eq_some_iff.2 ⟨Turn.errand?_eq_some_iff.2 ⟨r, hr, hread⟩, hrun, hgas⟩⟩

private def beggar : Message := { callee := .root, sender := .root, origin := .root, gas := 40 }

/-- The penalty for a call that cannot be delivered is more than there is, and stops a call that was sent. -/
example :
    let left := turn beggar (.start beggar ({} : NodeTree) ({ strict := true } : Script) (.zeros 36))
      ⟨.zeros 36, .call, [0, 0, 20, 0, 0, 0, 0]⟩
    left.1 = .error (.trap .outOfGas) ∧ left.2.sent.length = 1 := by
  decide +kernel

end Host

end ContractHost
