import ContractHost.Proofs.Exchange
import ContractHost.Proofs.Transfer

/-!
# What comes back from a call

A call that is sent and not stopped for want of gas tells its caller whether there was a response without exception,
and gives it as much of the output as there is room for, unless something is to be written outside the memory.  The
output of an exception is seen only if the call was delegated.

Apart from that all answers are the same: kernels whose answers differ only in the way in which calls fail, not at all
delivered or with an exception, cannot be told apart, by whatever strategy the caller proceeds (`call_replies`).
-/

namespace ContractHost

/-- An answer by which the caller learns nothing but that the call has failed.  The caller of a delegated call would
see the output of an exception. -/
def MessageKind.Mute : MessageKind → Except DeliveryError Response → Prop
  | _, .error _ => True
  | .call, .ok response => response.exception = true
  | .delegate, .ok response => response = ⟨true, []⟩

/-- Answers that are the same, or mute both. -/
def MessageKind.Indistinct (kind : MessageKind) (a b : Except DeliveryError Response) : Prop :=
  a = b ∨ kind.Mute a ∧ kind.Mute b

/-- The answers of the kernels to any message cannot be told apart. -/
def Kernel.Agree {κ : Type} [Kernel κ] (k k' : κ) : Prop :=
  ∀ message : Message, message.kind.Indistinct (Kernel.send k message).1 (Kernel.send k' message).1

/-- Nor can they be after the kernels have received the same messages. -/
def Kernel.Indistinct {κ : Type} [Kernel κ] (k k' : κ) : Prop :=
  ∀ earlier : List Message, Agree (receive k earlier) (receive k' earlier)

variable {τ κ : Type}

/-! ### Errands -/

namespace Errand

open Host

theorem kind_message (m : Message) (e : Errand) : (e.message m).kind = e.kind := by
  obtain ⟨kind, c⟩ := e
  cases kind <;> rfl

theorem callFails_of_mute {kind : MessageKind} {answer : Except DeliveryError Response} (h : kind.Mute answer) :
    CallFails answer := by
  cases answer with
  | error _ => trivial
  | ok response =>
    cases kind with
    | call => exact h
    | delegate =>
      obtain rfl : response = ⟨true, []⟩ := h
      rfl

theorem output_of_mute {e : Errand} {answer : Except DeliveryError Response} (h : e.kind.Mute answer) :
    e.output answer = [] := by
  obtain ⟨kind, c⟩ := e
  cases kind with
  | call => exact output_of_callFails (callFails_of_mute h)
  | delegate =>
    cases answer with
    | error _ => rfl
    | ok response =>
      obtain rfl : response = ⟨true, []⟩ := h
      rfl

/-- Nothing else is made of indistinct answers. -/
theorem conclude_congr {e : Errand} {a b : Except DeliveryError Response} (h : e.kind.Indistinct a b) :
    (e.conclude a : Host τ κ (Verdict × Bytes)) = e.conclude b := by
  rcases h with rfl | ⟨ha, hb⟩
  · rfl
  · have hfails : CallFails a ↔ CallFails b := iff_of_true (callFails_of_mute ha) (callFails_of_mute hb)
    simp only [conclude, Verdict.of, hfails, output_of_mute ha, output_of_mute hb]

theorem unnoticed_conclude (e : Errand) (answer : Except DeliveryError Response) (k : κ) (f : Frame τ κ) :
    Unnoticed (Frame.withKernel k) (e.conclude answer) f := by
  unfold conclude
  split
  · exact (unnoticed_charge _ f).bind fun _ _ _ => rfl
  · rfl

/-- Only the want of gas for the penalty stands in the way. -/
theorem conclude_cases (e : Errand) (answer : Except DeliveryError Response) (f : Frame τ κ) :
    (∃ amount, e.conclude answer f = .ok (.of answer, e.output answer) (f.spend amount)) ∨
      e.conclude answer f = .error (.trap .outOfGas) f := by
  by_cases h : e.kind = .call ∧ CallFails answer
  · rcases Nat.lt_or_ge f.meter.remaining.toNat 25000 with hlt | hle
    · exact .inr (conclude_of_lt h hlt)
    · exact .inl ⟨25000, conclude_of_le h hle⟩
  · refine .inl ⟨0, ?_⟩
    rw [Frame.spend_zero]
    exact conclude_of_free h

/-- What is paid before the errand is sent. -/
def pay (e : Errand) : Host τ κ Unit :=
  match e.kind with
  | .call => payCall e.call
  | .delegate => pure ()

theorem unnoticed_pay (e : Errand) (k : κ) (f : Frame τ κ) : Unnoticed (Frame.withKernel k) e.pay f := by
  unfold pay
  split
  · exact unnoticed_payCall _ f
  · rfl

theorem pay_of_outlay_le {e : Errand} {f : Frame τ κ} (h : e.outlay ≤ f.meter.remaining.toNat) :
    ∃ amount, e.pay f = .ok () (f.spend amount) := by
  obtain ⟨kind, c⟩ := e
  cases kind with
  | call => exact payCall_of_outlay_le h
  | delegate =>
    refine ⟨0, ?_⟩
    rw [Frame.spend_zero]
    rfl

/-- Who cannot pay keeps what there is. -/
theorem pay_cases (e : Errand) (f : Frame τ κ) :
    (∃ amount, e.pay f = .ok () (f.spend amount)) ∨ e.pay f = .error (.trap .outOfGas) f := by
  obtain ⟨kind, c⟩ := e
  cases kind with
  | delegate => exact .inl (pay_of_outlay_le (Nat.zero_le _))
  | call =>
    by_cases hvalue : c.value = 0
    · refine .inl ⟨0, ?_⟩
      rw [Frame.spend_zero]
      exact payCall_of_eq hvalue f
    · rcases Nat.lt_or_ge f.meter.remaining.toNat (min (6700 + c.gas.toNat) Gas.cap) with hlt | hle
      · exact .inr (payCall_of_lt hvalue hlt)
      · exact .inl ⟨_, payCall_of_le hvalue hle⟩

end Errand

/-! ### What is written -/

namespace Host

variable {f : Frame τ κ}

theorem writeOutput_of_nil {length : UInt32} {output : Bytes} (offset : UInt32)
    (h : output.take length.toNat = []) : (writeOutput offset length output : Host τ κ Unit) = pure () := by
  rw [writeOutput, h]

theorem writeOutput_of_ne_nil {length : UInt32} {output : Bytes} (offset : UInt32)
    (h : output.take length.toNat ≠ []) :
    (writeOutput offset length output : Host τ κ Unit) = writeBytes offset (output.take length.toNat) := by
  unfold writeOutput
  split
  · rename_i hnil
    exact absurd hnil h
  · rfl

/-- What there is room for is written, unless that is something that does not lie inside the memory. -/
theorem writeOutput_cases (offset length : UInt32) (output : Bytes) (f : Frame τ κ) :
    let n := min length.toNat output.length
    (n ≠ 0 ∧ ¬ f.memory.Fits offset.toNat n → writeOutput offset length output f = .error (.trap .memoryFault) f) ∧
    (n = 0 ∨ f.memory.Fits offset.toNat n → ∃ memory, writeOutput offset length output f = .ok () { f with memory } ∧
      f.memory.Overlaid offset.toNat (output.take n) memory) := by
  intro n
  have hlength : (output.take length.toNat).length = n := List.length_take ..
  have htake : output.take n = output.take length.toNat := by
    rw [List.take_eq_take_iff]
    omega
  rw [htake]
  by_cases hnil : output.take length.toNat = []
  · have hzero : n = 0 := by rw [← hlength, hnil]; rfl
    rw [writeOutput_of_nil offset hnil, hnil]
    exact ⟨fun h => absurd hzero h.1, fun _ => ⟨f.memory, rfl, .refl ..⟩⟩
  · have hne : n ≠ 0 := fun hzero => hnil (List.eq_nil_of_length_eq_zero (hlength.trans hzero))
    rw [writeOutput_of_ne_nil offset hnil]
    obtain ⟨hfault, hdone⟩ := writeBytes_cases offset (output.take length.toNat) f
    rw [hlength] at hfault hdone
    exact ⟨fun h => hfault (Nat.not_le.1 h.2), fun h => hdone (h.resolve_left hne)⟩

end Host

/-! ### Requests for an errand -/

namespace Request

open Host

/-- Where the output of a call is to go, and how much of it there is room for. -/
def room : Request → UInt32 × UInt32
  | call _ _ _ _ _ result length | callDelegate _ _ _ _ result length => (result, length)
  | _ => (0, 0)

/-- What a request for an errand does with the outcome: it writes the output and gives the number. -/
def reply (r : Request) (ret : Verdict × Bytes) : Host τ κ (Option UInt64) := do
  writeOutput r.room.1 r.room.2 ret.2
  return some ret.1.code

theorem extent_of_errand? {M : Memory} {r : Request} {e : Errand} (h : r.errand? M = some e) (output : Bytes) :
    r.extent output = ⟨r.room.1.toNat, min r.room.2.toNat output.length⟩ := by
  cases r with
  | call _ _ _ _ _ _ _ | callDelegate _ _ _ _ _ _ => rfl
  | _ => cases h

/-- A reply writes in the extent of its request, or is a fault. -/
theorem reply_cases {M : Memory} {r : Request} {e : Errand} (h : r.errand? M = some e) (ret : Verdict × Bytes)
    (f : Frame τ κ) :
    let extent := r.extent ret.2
    (extent.length ≠ 0 ∧ ¬ f.memory.Fits extent.offset extent.length →
      r.reply ret f = .error (.trap .memoryFault) f) ∧
    (extent.length = 0 ∨ f.memory.Fits extent.offset extent.length →
      ∃ memory, r.reply ret f = .ok (some ret.1.code) { f with memory } ∧
        f.memory.Overlaid extent.offset (ret.2.take extent.length) memory) := by
  intro extent
  obtain ⟨hfault, hwritten⟩ := writeOutput_cases r.room.1 r.room.2 ret.2 f
  rw [show extent = _ from extent_of_errand? h ret.2]
  refine ⟨fun hout => bind_error (hfault hout) _, fun hin => ?_⟩
  obtain ⟨memory, hwrite, hoverlaid⟩ := hwritten hin
  exact ⟨memory, bind_ok hwrite _, hoverlaid⟩

theorem unnoticed_reply (r : Request) (ret : Verdict × Bytes) (k : κ) (f : Frame τ κ) :
    Unnoticed (Frame.withKernel k) (r.reply ret) f := by
  have hwrite : Unnoticed (Frame.withKernel k) (writeOutput r.room.1 r.room.2 ret.2) f := by
    unfold writeOutput
    split
    · rfl
    · exact unnoticed_edit _ f
  exact hwrite.bind fun _ _ _ => rfl

/-- What is asked of the kernel is an errand. -/
theorem errand?_of_asks_send {m : Message} {M : Memory} {r : Request} {message : Message}
    (h : r.Asks m M (.send message)) : r.errand? M ≠ none := by
  cases r with
  | call gas address value data length result resultLength =>
    obtain ⟨c, hc, -⟩ := h
    simp [errand?, hc]
  | callDelegate gas address data length result resultLength =>
    obtain ⟨c, hc, -⟩ := h
    simp [errand?, hc]
  | _ => simp [Asks] at h

variable [Tree τ] [Kernel κ] {m : Message} {r : Request} {e : Errand} {f : Frame τ κ}

/-- A request for an errand is served by paying, sending the message and replying. -/
theorem serve_errand (h : r.errand? f.memory = some e) :
    serve m r f = (e.pay >>= fun _ => send (e.message m) >>= fun answer => e.conclude answer >>= r.reply) f := by
  cases r with
  | call gas address value data length result resultLength =>
    obtain ⟨c, hc, rfl⟩ := Option.map_eq_some_iff.1 h
    rw [serve, readSubCall_eq, bind_ok (view_of_some hc), call_eq]
    simp only [bind_assoc]
    rfl
  | callDelegate gas address data length result resultLength =>
    obtain ⟨c, hc, rfl⟩ := Option.map_eq_some_iff.1 h
    rw [serve, readSubCall_eq, bind_ok (view_of_some hc), callDelegate_eq]
    simp only [bind_assoc]
    rfl
  | _ => cases h

theorem serve_of_paid {g : Frame τ κ} (h : r.errand? f.memory = some e) (hpay : e.pay f = .ok () g) :
    serve m r f = (e.conclude (Kernel.send g.kernel (e.message m)).1 >>= r.reply) (g.handOver (e.message m)) := by
  rw [serve_errand h, bind_ok hpay, bind_ok (send_eq _ _)]

theorem serve_of_unpaid {why : OperationError} (h : r.errand? f.memory = some e) (hpay : e.pay f = .error why f) :
    serve m r f = .error why f := by
  rw [serve_errand h, bind_error hpay]

end Request

namespace Host

variable [Tree τ] [Kernel κ] {m : Message} {f : Frame τ κ} {k k' : κ}

/-! ### Runs with another kernel -/

theorem receive_append (k : κ) (earlier later : List Message) :
    Kernel.receive (Kernel.receive k earlier) later = Kernel.receive k (earlier ++ later) :=
  (List.foldl_append ..).symm

/-- Serving a request hands over the same messages to a kernel with indistinct answers, and comes to the same. -/
theorem serve_indistinct (m : Message) (r : Request) (f : Frame τ κ) :
    ∃ l, ∀ k', Kernel.Agree f.kernel k' →
      serve m r (f.withKernel k') = onFrame (Frame.withKernel (Kernel.receive k' l)) (serve m r f) := by
  cases hread : r.errand? f.memory with
  | none =>
    have hasks (message : Message) : ¬ r.Asks m f.memory (.send message) :=
      fun h => Request.errand?_of_asks_send h hread
    exact ⟨[], fun k' _ => (transacts_serve m f.memory r).unnoticed (fun _ => rfl) hasks rfl⟩
  | some e =>
    rcases e.pay_cases f with ⟨amount, hpay⟩ | hpay
    · refine ⟨[e.message m], fun k' hk => ?_⟩
      have hpay' : e.pay (f.withKernel k') = .ok () ((f.spend amount).withKernel k') :=
        (e.unnoticed_pay k' f).trans (by rw [hpay]; rfl)
      rw [Request.serve_of_paid hread hpay, Request.serve_of_paid (f := f.withKernel k') hread hpay']
      -- The kernels are asked in the same words, and of their answers the same is made.
      have hanswers := hk (e.message m)
      rw [Errand.kind_message] at hanswers
      have hrest := (e.unnoticed_conclude (Kernel.send f.kernel (e.message m)).1 (Kernel.send k' (e.message m)).2
        ((f.spend amount).handOver (e.message m))).bind fun ret g _ => r.unnoticed_reply ret _ g
      rw [Errand.conclude_congr hanswers] at hrest
      calc (e.conclude (Kernel.send k' (e.message m)).1 >>= r.reply)
            (((f.spend amount).handOver (e.message m)).withKernel (Kernel.send k' (e.message m)).2)
        _ = onFrame (Frame.withKernel (Kernel.send k' (e.message m)).2)
            ((e.conclude (Kernel.send k' (e.message m)).1 >>= r.reply) ((f.spend amount).handOver (e.message m))) :=
          hrest
        _ = _ := by rw [← Errand.conclude_congr hanswers]; rfl
    · refine ⟨[], fun k' _ => ?_⟩
      have hpay' : e.pay (f.withKernel k') = .error (.trap .outOfGas) (f.withKernel k') :=
        (e.unnoticed_pay k' f).trans (by rw [hpay]; rfl)
      rw [Request.serve_of_unpaid hread hpay, Request.serve_of_unpaid (f := f.withKernel k') hread hpay']
      rfl

theorem invoke_indistinct (m : Message) (op : Operation) (args : List UInt64) (f : Frame τ κ) :
    ∃ l, ∀ k', Kernel.Agree f.kernel k' →
      invoke m op args (f.withKernel k') = onFrame (Frame.withKernel (Kernel.receive k' l)) (invoke m op args f) := by
  by_cases hrun : f.progress.status = .running
  · cases hr : Request.ofArgs? op args with
    | none =>
      refine ⟨[], fun k' _ => ?_⟩
      rw [invoke_of_arity hrun hr, invoke_of_arity (f := f.withKernel k') hrun hr]
      rfl
    | some r =>
      rcases Nat.lt_or_ge f.meter.remaining.toNat op.cost.toNat with hlt | hle
      · refine ⟨[], fun k' _ => ?_⟩
        rw [invoke_of_lt hrun hr hlt, invoke_of_lt (f := f.withKernel k') hrun hr hlt]
        rfl
      · obtain ⟨l, hserve⟩ := serve_indistinct m r (f.spend op.cost.toNat)
        refine ⟨l, fun k' hk => ?_⟩
        rw [invoke_of_le hrun hr hle, invoke_of_le (f := f.withKernel k') hrun hr hle]
        exact trapping_onFrame (hserve k' hk)
  · refine ⟨[], fun k' _ => ?_⟩
    rw [invoke_of_terminal hrun, invoke_of_terminal (f := f.withKernel k') hrun]
    rfl

/-- A turn takes both kernels on by the same messages, and is answered alike. -/
theorem turn_indistinct (h : Kernel.Indistinct k k') {l : List Message} (hf : f.kernel = Kernel.receive k l)
    (t : Turn) :
    ∃ l', (turn m f t).2.kernel = Kernel.receive k l' ∧
      turn m (f.withKernel (Kernel.receive k' l)) t =
        ((turn m f t).1, (turn m f t).2.withKernel (Kernel.receive k' l')) := by
  obtain ⟨more, hinvoke⟩ := invoke_indistinct m t.op t.args { f with memory := t.memory }
  have hturn (k'' : κ) (hk : Kernel.Agree f.kernel k'') :
      turn m (f.withKernel k'') t = ((turn m f t).1, (turn m f t).2.withKernel (Kernel.receive k'' more)) := by
    have hchanged := hinvoke k'' hk
    unfold turn
    rw [show { f.withKernel k'' with memory := t.memory } =
      Frame.withKernel k'' { f with memory := t.memory } from rfl, hchanged]
    cases invoke m t.op t.args { f with memory := t.memory } <;> rfl
  refine ⟨l ++ more, ?_, ?_⟩
  · -- With its own kernel the frame is the same, so the messages are those that its kernel has received.
    have hown := congrArg (fun result => result.2.kernel) (hturn f.kernel fun _ => .inl rfl)
    rw [← receive_append, ← hf]
    exact hown
  · rw [hturn _ (hf ▸ h l), receive_append]

/-- A strategy takes both kernels on by the same messages, and sees the same. -/
theorem pursue_indistinct (h : Kernel.Indistinct k k') (s : Strategy) (n : Nat) (seen : List (Turn × Answer))
    {l : List Message} (hf : f.kernel = Kernel.receive k l) :
    ∃ l', (pursue m s n seen f).2.kernel = Kernel.receive k l' ∧
      pursue m s n seen (f.withKernel (Kernel.receive k' l)) =
        ((pursue m s n seen f).1, (pursue m s n seen f).2.withKernel (Kernel.receive k' l')) := by
  induction n generalizing seen f l with
  | zero => exact ⟨l, hf, rfl⟩
  | succ n ih =>
    obtain ⟨l', hkernel, hturn⟩ := turn_indistinct (m := m) h hf (s seen f.memory)
    obtain ⟨l'', hlast, hrest⟩ := ih (seen ++ [(s seen f.memory, (turn m f (s seen f.memory)).1)]) hkernel
    refine ⟨l'', hlast, ?_⟩
    rw [pursue, show (f.withKernel (Kernel.receive k' l)).memory = f.memory from rfl, hturn]
    exact hrest

/-! ### Replies -/

/-- A turn whose errand is sent lacks gas for the penalty, or replies on a frame that has still the memory and the
progress that were found. -/
theorem invoke_errand {t : Turn} {e : Errand} (h : (passage m f t).errand? = some e) :
    let found : Frame τ κ := { f with memory := t.memory }
    let answer := (Kernel.send f.kernel (e.message m)).1
    failure? (invoke m t.op t.args) found = some (.trap .outOfGas) ∨
      ∃ r g, Request.ofArgs? t.op t.args = some r ∧ r.errand? t.memory = some e ∧
        g.memory = t.memory ∧ g.progress = f.progress ∧
        invoke m t.op t.args found = trapping (r.reply (.of answer, e.output answer)) g := by
  intro found answer
  obtain ⟨hturn, hrun, hgas⟩ := Passage.errand?_eq_some_iff.1 h
  obtain ⟨r, hr, hread⟩ := Turn.errand?_eq_some_iff.1 hturn
  have hprice : t.op.cost.toNat + e.outlay ≤ found.meter.remaining.toNat := hgas
  have hremaining := found.toNat_remaining_spend t.op.cost.toNat
  have hinvoke : invoke m t.op t.args found = trapping (serve m r) (found.spend t.op.cost.toNat) :=
    invoke_of_le hrun hr (by omega)
  obtain ⟨amount, hpay⟩ := Errand.pay_of_outlay_le (e := e) (f := found.spend t.op.cost.toNat) (by omega)
  have hserve := Request.serve_of_paid (m := m) hread hpay
  rcases e.conclude_cases answer (((found.spend t.op.cost.toNat).spend amount).handOver (e.message m)) with
    ⟨penalty, hconclude⟩ | hconclude
  · refine .inr ⟨r, _, hr, hread, ?_, ?_, hinvoke.trans (trapping_congr (hserve.trans (bind_ok hconclude _)))⟩
    · rfl
    · rfl
  · exact .inl (failure?_error (hinvoke.trans (trapping_trap (hserve.trans (bind_error hconclude _)))))

/-- What a call brings back, and that the caller sees the same of kernels whose calls differ only in the way in which
they fail. -/
theorem call_replies (m : Message) :
    (∀ (f : Frame τ κ) (t : Turn) (e : Errand), (passage m f t).errand? = some e →
      (turn m f t).1 ≠ .error (.trap .outOfGas) →
      let answer := (Kernel.send f.kernel (e.message m)).1
      let ret := e.output answer
      let extent := t.op.extent t.args ret
      let left := (turn m f t).2
      (extent.length ≠ 0 ∧ ¬ t.memory.Fits extent.offset extent.length →
        (turn m f t).1 = .error (.trap .memoryFault)) ∧
      (extent.length = 0 ∨ t.memory.Fits extent.offset extent.length →
        (turn m f t).1 = .ok (some (if CallFails answer then 0 else 1)) ∧
        t.memory.Overlaid extent.offset (ret.take extent.length) left.memory ∧
        left.progress = f.progress ∧ left.progress.status = .running)) ∧
    ∀ k k' : κ, Kernel.Indistinct k k' → ∀ (tree : τ) (memory : Memory) (s : Strategy) (n : Nat),
      let left := pursue m s n [] (.start m tree k memory)
      let right := pursue m s n [] (.start m tree k' memory)
      left.1 = right.1 ∧ left.2 = { right.2 with kernel := left.2.kernel } ∧ left.2.finish = right.2.finish := by
  refine ⟨fun f t e he hgas => ?_, fun k k' hk tree memory s n => ?_⟩
  · intro answer ret extent left
    have hrun := (Passage.errand?_eq_some_iff.1 he).2.1
    rcases invoke_errand he with hfail | ⟨r, g, hr, hread, hmemory, hprogress, hinvoke⟩
    · exact absurd (turn_fst_eq_error_iff.2 hfail) hgas
    · obtain ⟨hfault, hwritten⟩ := Request.reply_cases hread (.of answer, ret) g
      rw [Request.extent_of_ofArgs? hr, hmemory] at hfault hwritten
      refine ⟨fun hout => ?_, fun hin => ?_⟩
      · rw [turn_of_error (hinvoke.trans (trapping_trap (hfault hout)))]
      · obtain ⟨M, hreply, hoverlaid⟩ := hwritten hin
        have hturn := turn_of_ok (hinvoke.trans (trapping_ok hreply))
        have hcode : (Verdict.of answer).code = if CallFails answer then 0 else 1 := by
          unfold Verdict.of
          split <;> rfl
        simp only [left, hturn, hcode]
        exact ⟨trivial, hoverlaid, hprogress, hprogress ▸ hrun⟩
  · intro left right
    obtain ⟨l, -, hright⟩ := pursue_indistinct (m := m) (f := .start m tree k memory) hk s n [] (l := []) rfl
    have hright : right = (left.1, left.2.withKernel (Kernel.receive k' l)) := hright
    rw [hright]
    exact ⟨rfl, rfl, rfl⟩

/-- A kernel that gives every message the same answer; an exception has an output only for a call. -/
private inductive Respondent
  | lost
  | raised (output : Bytes)
  | gives (output : Bytes)

private instance : Kernel Respondent where
  send k m :=
    (match k, m.kind with
      | .lost, _ => .error (.transport "down")
      | .raised output, .call => .ok ⟨true, output⟩
      | .raised _, .delegate => .ok ⟨true, []⟩
      | .gives output, _ => .ok ⟨false, output⟩, k)

private def asker : Message := { callee := .root, sender := .root, origin := .root, gas := 60000 }

/-- Calls, and then makes a delegated call, with the number that came back as the length of the data. -/
private def asking : Strategy
  | (_, .ok (some n)) :: _, M => ⟨M, .callDelegate, [0, 0, 0, n, 0, 9]⟩
  | _, M => ⟨M, .call, [0, 0, 20, 0, 0, 0, 9]⟩

/-- Of three bytes two are written if there is room for two, and a kernel that loses all messages cannot be told from
one that answers with exceptions. -/
theorem call_replies_respondent :
    let answered := turn asker (.start asker ({} : NodeTree) (Respondent.gives [7, 8, 9]) (.zeros 36))
      ⟨.zeros 36, .call, [0, 0, 20, 0, 0, 34, 2]⟩
    let lost := pursue asker asking 2 [] (.start asker ({} : NodeTree) Respondent.lost (.zeros 36))
    let raised := pursue asker asking 2 [] (.start asker ({} : NodeTree) (Respondent.raised [7, 8, 9]) (.zeros 36))
    answered.1 = .ok (some 1) ∧ answered.2.memory.get 34 = 7 ∧ answered.2.memory.get 35 = 8 ∧
      lost.1 = raised.1 ∧ lost.2.finish = raised.2.finish := by
  intro answered lost raised
  obtain ⟨hturn, hrun⟩ := call_replies (τ := NodeTree) (κ := Respondent) asker
  have hanswered := hturn (.start asker {} (.gives [7, 8, 9]) (.zeros 36))
    ⟨.zeros 36, .call, [0, 0, 20, 0, 0, 34, 2]⟩ ⟨.call, ⟨0, .zero, 0, []⟩⟩ (by decide +kernel)
    (by decide +kernel)
  obtain ⟨hok, hoverlaid, -⟩ := hanswered.2 (.inr (by decide +kernel))
  have hreceive (k : Respondent) (earlier : List Message) : Kernel.receive k earlier = k := by
    induction earlier with
    | nil => rfl
    | cons message earlier ih => exact ih
  have hindistinct : Kernel.Indistinct Respondent.lost (.raised [7, 8, 9]) := by
    intro earlier message
    rw [hreceive, hreceive]
    right
    obtain ⟨_, _, _, _, _, _, _, _, _, kind, _⟩ := message
    cases kind with
    | call => exact ⟨trivial, rfl⟩
    | delegate => exact ⟨trivial, rfl⟩
  obtain ⟨hseen, -, hfinish⟩ := hrun .lost (.raised [7, 8, 9]) hindistinct {} (.zeros 36) asking 2
  exact ⟨hok, hoverlaid.bytes 0 (by decide +kernel), hoverlaid.bytes 1 (by decide +kernel), hseen, hfinish⟩

end Host

end ContractHost
