import ContractHost.Proofs.Dispatch
import ContractHost.Proofs.Lifecycle

/-!
# Where an operation writes

Every operation has one stretch of memory for its result, or none (`Operation.extent`): where it lies is told by the
arguments, and how long it is by the operation, by an argument, or by what a call brings back.  This is what its caller
gets to see of it: nothing after an exception, if it is no delegated call.

An operation that is carried out changes nothing outside this stretch, which then lies inside the memory, and one that
fails, in whatever way, changes nothing at all; the size of the memory stays as it is (`invoke_memory`).
-/

namespace ContractHost

/-- A stretch of memory. -/
structure Extent where
  offset : Nat
  length : Nat

/-- No memory at all. -/
def Extent.none : Extent := ⟨0, 0⟩

/-- The output that a caller gets to see: that of a call only if there was no exception. -/
def Errand.output (e : Errand) (answer : Except DeliveryError Response) : Bytes :=
  match e.kind, answer with
  | .call, .ok ⟨false, output⟩ => output
  | .call, _ => []
  | .delegate, .ok response => response.output
  | .delegate, .error _ => []

/-- Where the operation writes its result, by the lower halves of its arguments; `output` is what a call brings
back. -/
def Operation.extent (op : Operation) (args : List UInt64) (output : Bytes) : Extent :=
  let arg (i : Nat) : Nat := (args.getD i 0).toUInt32.toNat
  match op with
  | getAddress | getTxOrigin | getCaller | getBlockCoinbase => ⟨arg 0, 20⟩
  | create => ⟨arg 3, 20⟩
  | getCallValue => ⟨arg 0, 16⟩
  | getBalance => ⟨arg 1, 16⟩
  | callDataCopy256 | getBlockDifficulty => ⟨arg 0, 32⟩
  | getBlockHash | storageLoad => ⟨arg 1, 32⟩
  | callDataCopy | codeCopy => ⟨arg 0, arg 2⟩
  | externalCodeCopy => ⟨arg 1, arg 3⟩
  | call => ⟨arg 5, min (arg 6) output.length⟩
  | callDelegate => ⟨arg 4, min (arg 5) output.length⟩
  | getCallDataSize | getCodeSize | getExternalCodeSize | getTxGasPrice | getBlockTimestamp | getBlockNumber
  | getBlockGasLimit | log | callCode | storageStore | returnData | selfDestruct => .none

namespace Request

/-- Where the request writes its result. -/
def extent (output : Bytes) : Request → Extent
  | getAddress result | getTxOrigin result | getCaller result | getBlockCoinbase result | create _ _ _ result =>
    ⟨result.toNat, 20⟩
  | getCallValue result | getBalance _ result => ⟨result.toNat, 16⟩
  | callDataCopy256 result _ | getBlockDifficulty result | getBlockHash _ result | storageLoad _ result =>
    ⟨result.toNat, 32⟩
  | callDataCopy result _ length | codeCopy result _ length | externalCodeCopy _ result _ length =>
    ⟨result.toNat, length.toNat⟩
  | call _ _ _ _ _ result length | callDelegate _ _ _ _ result length =>
    ⟨result.toNat, min length.toNat output.length⟩
  | _ => .none

theorem extent_of_ofArgs? {op : Operation} {args : List UInt64} {r : Request} (h : ofArgs? op args = some r)
    (output : Bytes) : r.extent output = op.extent args output := by
  cases op
  all_goals
    simp only [ofArgs?] at h
    split at h
    · cases h
      rfl
    · cases h

/-- What the request brings back from another account, if it is served on `f` and gets that far. -/
def output {τ κ : Type} [Kernel κ] (m : Message) (f : Frame τ κ) (r : Request) : Bytes :=
  match r.errand? f.memory with
  | some e => e.output (Kernel.send f.kernel (e.message m)).1
  | none => []

end Request

/-! ### Changes of the memory -/

/-- `M'` is `M` with bytes changed only in the extent, which lies inside the memory. -/
structure Memory.Changed (e : Extent) (M M' : Memory) : Prop where
  size : M'.size = M.size
  outside : ∀ i, i < e.offset ∨ e.offset + e.length ≤ i → M'.get i = M.get i
  inside : e.length ≠ 0 → M.Fits e.offset e.length

namespace Memory.Changed

variable {M M' : Memory} {offset length : UInt32} {b : Bytes}

protected theorem refl (M : Memory) {e : Extent} (he : e.length = 0) : M.Changed e M where
  size := rfl
  outside _ _ := rfl
  inside h := absurd he h

theorem of_write? (h : M.write? offset b = some M') : M.Changed ⟨offset.toNat, b.length⟩ M' := by
  unfold write? at h
  split at h
  · rename_i hfits
    cases h
    refine ⟨size_splice .., fun i hi => ?_, fun _ => hfits⟩
    dsimp only at hi
    rw [get_splice, if_neg (by omega)]
  · cases h

theorem of_writePadded? (h : M.writePadded? offset length b = some M') :
    M.Changed ⟨offset.toNat, length.toNat⟩ M' := by
  unfold writePadded? at h
  split at h
  · rename_i hfits
    cases h
    refine ⟨?_, fun i hi => ?_, fun _ => hfits⟩
    · rw [fill, size_splice, size_clear]
    · have htake : (b.take length.toNat).length ≤ length.toNat := List.length_take_le ..
      dsimp only at hi
      rw [fill, get_splice, get_clear, if_neg (by omega), if_neg (by omega)]
  · cases h

end Memory.Changed

/-- `M'` is `M` with the bytes `b` from `offset` on, and otherwise unchanged. -/
structure Memory.Overlaid (offset : Nat) (b : Bytes) (M M' : Memory) : Prop
    extends M.Changed ⟨offset, b.length⟩ M' where
  bytes : ∀ (i : Nat) (h : i < b.length), M'.get (offset + i) = b[i]

namespace Memory.Overlaid

variable {M M' : Memory} {offset length : UInt32} {b : Bytes}

protected theorem refl (M : Memory) (offset : Nat) : M.Overlaid offset [] M where
  toChanged := .refl M rfl
  bytes i h := by cases h

theorem of_write? (h : M.write? offset b = some M') : M.Overlaid offset.toNat b M' where
  toChanged := .of_write? h
  bytes i hi := by
    unfold write? at h
    split at h
    · rename_i hfits
      unfold Fits at hfits
      cases h
      rw [get_splice, if_pos ⟨by omega, by omega, by omega⟩, Nat.add_sub_cancel_left,
        List.getD_eq_getElem?_getD, List.getElem?_eq_getElem hi, Option.getD_some]
    · cases h

theorem of_writePadded? (h : M.writePadded? offset length b = some M') :
    M.Overlaid offset.toNat (Bytes.padTo length.toNat b) M' where
  toChanged := by
    rw [Bytes.length_padTo]
    exact .of_writePadded? h
  bytes i hi := by
    unfold writePadded? at h
    split at h
    · rename_i hfits
      have hlength : i < length.toNat := by rwa [Bytes.length_padTo] at hi
      cases h
      unfold Fits at hfits
      have htake : (b.take length.toNat).length = min length.toNat b.length := List.length_take ..
      simp only [fill, get_splice, get_clear, size_clear, Bytes.padTo, List.getElem_append, List.getElem_replicate]
      by_cases hb : i < b.length
      · rw [if_pos (by omega), dif_pos (by omega), Nat.add_sub_cancel_left, List.getD_eq_getElem?_getD,
          List.getElem?_eq_getElem (by omega), Option.getD_some]
      · rw [if_neg (by omega), if_pos (by omega), dif_neg (by omega)]
    · cases h

end Memory.Overlaid

/-- Whether the act changes the memory. -/
def Commit.Overwrites : Commit → Prop
  | write .. | fill .. => True
  | _ => False

namespace Host

variable {τ κ : Type} {α β : Type} {e : Extent} {f g : Frame τ κ}

/-- If `x` is carried out on `f`, it changes the memory only in the extent. -/
def Writes (e : Extent) (x : Host τ κ α) (f : Frame τ κ) : Prop := ∀ a g, x f = .ok a g → f.memory.Changed e g.memory

theorem Writes.report {x : Host τ κ α} (h : Writes e x f) (b : α → β) : Writes e (x >>= fun a => pure (b a)) f := by
  intro _ _ hg
  obtain ⟨a, k, hx, hpure⟩ := of_bind_ok hg
  cases hpure
  exact h a _ hx

theorem Writes.silently {x : Host τ κ Unit} (h : Writes e x f) : Writes e (silently x) f := h.report _

/-- Reading comes before what is written. -/
theorem Writes.view {read : Memory → Option α} {next : α → Host τ κ β}
    (h : ∀ a, read f.memory = some a → Writes e (next a) f) : Writes e (view read >>= next) f := by
  intro b g hg
  obtain ⟨a, k, hview, hnext⟩ := of_bind_ok hg
  obtain ⟨hread, rfl⟩ := of_view_ok hview
  exact h a hread b g hnext

theorem writes_writeBytes {n : Nat} {b : Bytes} (offset : UInt32) (hb : b.length = n) (f : Frame τ κ) :
    Writes ⟨offset.toNat, n⟩ (writeBytes offset b) f := by
  subst hb
  exact fun _ _ hg => .of_write? (of_edit_ok hg)

/-- A write puts its bytes into the memory, or is a fault if there is no room for them. -/
theorem writeBytes_cases (offset : UInt32) (b : Bytes) (f : Frame τ κ) :
    (f.memory.size < offset.toNat + b.length → writeBytes offset b f = .error (.trap .memoryFault) f) ∧
    (offset.toNat + b.length ≤ f.memory.size →
      ∃ memory, writeBytes offset b f = .ok () { f with memory } ∧ f.memory.Overlaid offset.toNat b memory) := by
  refine ⟨fun hout => edit_of_none (if_neg (Nat.not_le.2 hout)), fun hfits => ?_⟩
  have hsome : f.memory.write? offset b = some _ := if_pos hfits
  exact ⟨_, edit_of_some hsome, .of_write? hsome⟩

theorem writePadded_cases (offset length : UInt32) (b : Bytes) (f : Frame τ κ) :
    (f.memory.size < offset.toNat + length.toNat → writePadded offset length b f = .error (.trap .memoryFault) f) ∧
    (offset.toNat + length.toNat ≤ f.memory.size →
      ∃ memory, writePadded offset length b f = .ok () { f with memory } ∧
        f.memory.Overlaid offset.toNat (Bytes.padTo length.toNat b) memory) := by
  refine ⟨fun hout => edit_of_none (if_neg (Nat.not_le.2 hout)), fun hfits => ?_⟩
  have hsome : f.memory.writePadded? offset length b = some _ := if_pos hfits
  exact ⟨_, edit_of_some hsome, .of_writePadded? hsome⟩

/-- If all that is left to be done is to write some bytes, it is done or a fault. -/
theorem trapping_writeBytes (offset : UInt32) (b : Bytes) (f : Frame τ κ) :
    (f.memory.size < offset.toNat + b.length →
      trapping (silently (writeBytes offset b)) f = .error (.trap .memoryFault) (f.trapped .memoryFault)) ∧
    (offset.toNat + b.length ≤ f.memory.size →
      ∃ memory, trapping (silently (writeBytes offset b)) f = .ok none { f with memory } ∧
        f.memory.Overlaid offset.toNat b memory) := by
  obtain ⟨hfault, hdone⟩ := writeBytes_cases offset b f
  refine ⟨fun hout => trapping_trap (bind_error (hfault hout) _), fun hfits => ?_⟩
  obtain ⟨memory, hok, hoverlaid⟩ := hdone hfits
  exact ⟨memory, trapping_ok (bind_ok hok _), hoverlaid⟩

theorem writes_writePadded (offset length : UInt32) (b : Bytes) (f : Frame τ κ) :
    Writes ⟨offset.toNat, length.toNat⟩ (writePadded offset length b) f :=
  fun _ _ hg => .of_writePadded? (of_edit_ok hg)

/-- Nothing of the output is no access to the memory. -/
theorem writes_writeOutput (offset length : UInt32) (output : Bytes) (f : Frame τ κ) :
    Writes ⟨offset.toNat, min length.toNat output.length⟩ (writeOutput offset length output) f := by
  have hlength : (output.take length.toNat).length = min length.toNat output.length := List.length_take ..
  unfold writeOutput
  split
  · rename_i hempty
    intro _ g hg
    cases hg
    refine .refl _ ?_
    rw [← hlength, hempty]
    rfl
  · exact writes_writeBytes offset hlength f

theorem memory_of_advance {step : Progress → Except OperationError Progress} {a : Unit}
    (h : advance step f = .ok a g) : g.memory = f.memory := by
  unfold advance at h
  split at h
  · cases h
    rfl
  · cases h

/-- An act that is none of writing leaves the memory as it is. -/
theorem memory_of_run [Tree τ] {c : Commit} (hc : ¬ c.Overwrites) (h : c.run f = .ok () g) :
    g.memory = f.memory := by
  have hstored (halters : c.Alters) : g.memory = f.memory := by
    obtain ⟨_, _, _, hafter⟩ := after_of_alters halters f
    rw [after_ok h] at hafter
    rw [hafter]
  cases c with
  | write _ _ | fill _ _ _ => exact absurd trivial hc
  | log entry =>
    have hlog : advance (·.log entry) f = .ok () g := h
    exact memory_of_advance hlog
  | halt output =>
    have hhalt : advance (·.halt output) f = .ok () g := h
    exact memory_of_advance hhalt
  | destroy beneficiary =>
    obtain ⟨_, f', hrefund, hdestroy⟩ := of_bind_ok h
    obtain rfl := of_refund_ok hrefund
    have hmemory := memory_of_advance hdestroy
    exact hmemory
  | put _ _ | remove _ | clear _ => exact hstored trivial

variable [Tree τ] [Kernel κ] {m : Message} {n : Nat}

/-- What prepares leaves the memory to what follows. -/
theorem Writes.prepare {x : Host τ κ α} {next : α → Host τ κ β} (hx : Prepares f.memory True (fun _ => True) n x)
    (hnext : ∀ a g, x f = .ok a g → Writes e (next a) g) : Writes e (x >>= next) f := by
  intro b h hh
  obtain ⟨a, g, hxf, hng⟩ := of_bind_ok hh
  have hchanged := hnext a g hxf b h hng
  rw [(hx.asked rfl hxf).memory] at hchanged
  exact hchanged

theorem writes_copyWindow {source : Host τ κ Bytes} (hsource : Prepares f.memory True (fun _ => True) n source)
    (result offset length : UInt32) :
    Writes ⟨result.toNat, length.toNat⟩ (copyWindow source result offset length) f := by
  unfold copyWindow
  split
  · exact .prepare hsource fun _ g _ => writes_writePadded result length _ g
  · rename_i hzero
    obtain rfl := Decidable.not_not.1 hzero
    intro _ g hg
    cases hg
    exact .refl _ rfl

/-- A request none of whose acts is one of writing has no use for an extent. -/
theorem writes_none {r : Request} (hrun : f.progress.status = .running)
    (hr : ∀ c, r.Commits m f.memory c → ¬ c.Overwrites) : Writes .none (serve m r) f := by
  intro a g hg
  obtain ⟨k, hasked, hend⟩ := (transacts_serve m f.memory r).ending rfl hrun
  -- What prepares never touches the memory, so only the acts count.
  have hmemory : g.memory = f.memory := by
    cases hend with
    | done _ h' =>
      rw [h'] at hg
      cases hg
      exact hasked.memory
    | commit c _ _ hc hcommit h' _ =>
      rw [h'] at hg
      cases hg
      exact (memory_of_run (hr c hc) hcommit).trans hasked.memory
    | trap _ h' _ | refuse _ _ _ _ _ _ h' _ =>
      rw [h'] at hg
      cases hg
  rw [hmemory]
  exact .refl _ rfl

/-! ### Calls -/

omit [Tree τ] in
theorem answer_of_send {message : Message} {answer : Except DeliveryError Response}
    (h : send message f = .ok answer g) : answer = (Kernel.send f.kernel message).1 := by
  cases h
  rfl

/-- A call gives the output of its errand. -/
theorem output_of_call {c : SubCall} {v : Verdict} {output : Bytes} (h : call m c f = .ok (v, output) g) :
    output = (Errand.mk .call c).output (Kernel.send f.kernel (c.message m)).1 := by
  obtain ⟨_, k, hpay, hsend⟩ := of_bind_ok h
  have hpays : Prepares f.memory True (fun _ => True) 0 (payCall c : Host τ κ Unit) := .payCall c trivial
  have hkernel : k.kernel = f.kernel := congrArg Prod.snd (hpays.asked rfl hpay).world_eq
  obtain ⟨answer, k', hanswer, hreport⟩ := of_bind_ok hsend
  rw [← hkernel, ← answer_of_send hanswer]
  -- An exception and an undelivered message are treated alike: the penalty is paid and there is no output.
  have hpenalty (hfail : (do charge Gas.callException; return (.failure, []) : Host τ κ (Verdict × Bytes)) k' =
      .ok (v, output) g) : output = [] := by
    obtain ⟨_, _, -, hpure⟩ := of_bind_ok hfail
    cases hpure
    rfl
  match answer with
  | .ok ⟨false, _⟩ =>
    cases hreport
    rfl
  | .ok ⟨true, _⟩ => exact hpenalty hreport
  | .error _ => exact hpenalty hreport

omit [Tree τ] in
theorem output_of_callDelegate {c : SubCall} {v : Verdict} {output : Bytes}
    (h : callDelegate m c f = .ok (v, output) g) :
    output = (Errand.mk .delegate c).output (Kernel.send f.kernel (c.delegateMessage m)).1 := by
  obtain ⟨answer, k, hanswer, hreport⟩ := of_bind_ok h
  rw [← answer_of_send hanswer]
  match answer with
  | .ok response =>
    cases hreport
    rfl
  | .error _ =>
    cases hreport
    rfl

/-- What a call writes is the output that it brings back. -/
theorem writes_of_output {x : Host τ κ (Verdict × Bytes)} {output : Bytes} (result length : UInt32)
    (hx : Prepares f.memory True (fun _ => True) n x) (houtput : ∀ v b g, x f = .ok (v, b) g → b = output) :
    Writes ⟨result.toNat, min length.toNat output.length⟩ (do
      let (status, b) ← x
      writeOutput result length b
      return some status.code) f := by
  refine .prepare hx fun a g hxf => ?_
  rw [← houtput a.1 a.2 g hxf]
  exact (writes_writeOutput result length a.2 g).report _

/-! ### The operations -/

/-- A request that is served on a running execution writes only in its extent. -/
theorem writes_serve (m : Message) (r : Request) (hrun : f.progress.status = .running) :
    Writes (r.extent (r.output m f)) (serve m r) f := by
  cases r with
  | getAddress result | getTxOrigin result | getCaller result | getBlockCoinbase result | getBlockDifficulty result =>
    exact .silently (writes_writeBytes result Vector.length_toList f)
  | getCallValue result => exact .silently (writes_writeBytes result (Bytes.length_ofNat ..) f)
  | callDataCopy256 result offset => exact .silently (writes_writePadded result 32 _ f)
  | callDataCopy result offset length =>
    exact .silently (.prepare (.charge _ trivial) fun _ _ _ => writes_copyWindow (.pure _) result offset length)
  | codeCopy result offset length =>
    exact .silently (.prepare (.charge _ trivial) fun _ _ _ =>
      writes_copyWindow (.map (.lookupOwnCode trivial) _) result offset length)
  | externalCodeCopy address result offset length =>
    exact .silently (.prepare (.charge _ trivial) fun _ _ _ => .view fun _ _ =>
      writes_copyWindow (.map (.lookupCode trivial) _) result offset length)
  | getBalance address result =>
    exact .silently (.view fun _ _ => .prepare (.lookupBalance trivial) fun _ g _ =>
      writes_writeBytes result (Bytes.length_ofNat ..) g)
  | getBlockHash number result =>
    exact .silently (.prepare (.lookupBlockHash fun _ => trivial) fun _ g _ =>
      writes_writeBytes result Vector.length_toList g)
  | storageLoad key result =>
    exact .silently (.view fun _ _ => .prepare (.lookupSlot trivial) fun _ g _ =>
      writes_writeBytes result Vector.length_toList g)
  | create value data length result =>
    exact .view fun _ _ => (writes_writeBytes result Vector.length_toList f).report _
  | call gas address value data length result resultLength =>
    rw [serve, readSubCall_eq]
    refine .view fun c hc => writes_of_output result resultLength (.call trivial trivial) fun v b g hcall => ?_
    simp only [Request.output, Request.errand?, hc, Option.map_some]
    exact output_of_call hcall
  | callDelegate gas address data length result resultLength =>
    rw [serve, readSubCall_eq]
    refine .view fun c hc => writes_of_output result resultLength (.callDelegate trivial) fun v b g hcall => ?_
    simp only [Request.output, Request.errand?, hc, Option.map_some]
    exact output_of_callDelegate hcall
  | getCallDataSize | getCodeSize | getExternalCodeSize _ | getTxGasPrice | getBlockTimestamp | getBlockNumber
  | getBlockGasLimit | callCode _ _ _ _ _ _ _ => exact writes_none hrun fun _ hc => hc.elim
  | log _ _ _ _ _ _ _ =>
    refine writes_none hrun fun _ hc => ?_
    obtain ⟨_, rfl⟩ := hc
    exact id
  | returnData _ _ =>
    refine writes_none hrun fun _ hc => ?_
    obtain ⟨_, rfl⟩ := hc
    exact id
  | selfDestruct _ =>
    refine writes_none hrun fun _ hc => ?_
    obtain ⟨_, -, rfl⟩ := hc
    exact id
  | storageStore _ _ =>
    refine writes_none hrun fun _ hc => ?_
    obtain ⟨_, _, -, -, hc⟩ := hc
    split at hc
    · rcases hc with rfl | rfl <;> exact id
    · rw [hc]
      exact id

/-- A failure leaves the memory as it is. -/
theorem memory_of_error {op : Operation} {args : List UInt64} {why : OperationError}
    (h : invoke m op args f = .error why g) : g.memory = f.memory := by
  rcases invoke_cases m op args f with ⟨_, hinvoke⟩ | ⟨hrun, -⟩
  · rw [hinvoke] at h
    cases h
    rfl
  · rcases of_invoke_error hrun h with ⟨-, rfl⟩ | ⟨r, k, -, hasked, ⟨_, -, rfl⟩ | ⟨c, text, -, halters, -, hrefused⟩⟩
    · rfl
    · exact hasked.memory
    · obtain ⟨_, _, _, hafter⟩ := after_of_alters halters k
      rw [after_error hrefused] at hafter
      rw [hafter]
      exact hasked.memory

theorem changed_of_ok {op : Operation} {args : List UInt64} {a : Option UInt64}
    (h : invoke m op args f = .ok a g) :
    f.memory.Changed (op.extent args ((Request.ofArgs? op args).elim [] (Request.output m f))) g.memory := by
  obtain ⟨r, hr, hserve⟩ := of_invoke_ok h
  have hrun := running_of_invoke_ok h
  have hchanged := writes_serve (f := f.spend op.cost.toNat) m r hrun a g hserve
  rw [Request.extent_of_ofArgs? hr] at hchanged
  rw [hr]
  exact hchanged

/-- An invocation that is carried out changes no byte outside the extent of its operation, and one that fails changes
none. -/
theorem invoke_memory (m : Message) (op : Operation) (args : List UInt64) (f : Frame τ κ) :
    let output := (Request.ofArgs? op args).elim [] (Request.output m f)
    let extent := op.extent args output
    let failure := failure? (invoke m op args) f
    let left := (after (invoke m op args) f).memory
    left.size = f.memory.size ∧
    (failure ≠ none → left = f.memory) ∧
    (failure = none → ∀ i, i < extent.offset ∨ extent.offset + extent.length ≤ i → left.get i = f.memory.get i) ∧
    (failure = none → extent.length ≠ 0 → f.memory.Fits extent.offset extent.length) := by
  intro output extent failure left
  cases h : invoke m op args f with
  | ok a g =>
    have hfailure : failure = none := failure?_ok h
    have hleft : left = g.memory := congrArg Frame.memory (after_ok h)
    have hchanged : f.memory.Changed extent left := hleft ▸ changed_of_ok h
    exact ⟨hchanged.size, fun hne => absurd hfailure hne, fun _ => hchanged.outside, fun _ => hchanged.inside⟩
  | error why g =>
    have hfailure : failure ≠ none := by simp [failure, failure?_error h]
    have hleft : left = f.memory := (congrArg Frame.memory (after_error h)).trans (memory_of_error h)
    exact ⟨by rw [hleft], fun _ => hleft, fun hnone => absurd hnone hfailure, fun hnone => absurd hnone hfailure⟩

end Host

end ContractHost
