import ContractHost.Proofs.Stores
import ContractHost.Tree.NodeTree

/-!
# The life of an execution

An execution runs until one of its invocations traps, returns or destroys the contract, and the answer to the
invocation tells which (`status_follows_answer`).  It is trapped exactly if the answer is that trap, halted exactly if
`return` or `selfDestruct` was carried out, and running still if any other operation was, if the number of arguments
was wrong or if the host failed, which it does only in a store, when the tree refuses to set or to delete the slot.  So
the final report never says that the execution is running, and shows an exception exactly if it is trapped.

What has ended stays as it is: whatever is invoked afterwards, with any arguments and any memory, is refused and
changes nothing, so the final report is that of the moment when the end was reached (`ended_for_good`).
-/

namespace ContractHost

variable {τ κ : Type}

theorem Status.isTerminal_iff {s : Status} : s.isTerminal = true ↔ s ≠ .running := by
  cases s <;> simp [isTerminal]

/-- The status of a running execution once the operation has been carried out. -/
def Operation.outcome : Operation → Status
  | returnData => .halted .returned
  | selfDestruct => .halted .selfDestructed
  | _ => .running

/-- The status of a running execution after the failure. -/
def OperationError.outcome : OperationError → Status
  | trap why => .trapped why
  | _ => .running

/-- The status in which the act leaves a running execution. -/
def Commit.outcome : Commit → Status
  | halt _ => .halted .returned
  | destroy _ => .halted .selfDestructed
  | _ => .running

theorem Operation.outcome_ne_trapped (op : Operation) (why : Trap) : op.outcome ≠ .trapped why := by
  cases op <;> simp [outcome]

theorem Operation.outcome_eq_returned_iff {op : Operation} : op.outcome = .halted .returned ↔ op = .returnData := by
  cases op <;> simp [outcome]

theorem Operation.outcome_eq_selfDestructed_iff {op : Operation} :
    op.outcome = .halted .selfDestructed ↔ op = .selfDestruct := by
  cases op <;> simp [outcome]

theorem Operation.outcome_eq_running_iff {op : Operation} :
    op.outcome = .running ↔ op ≠ .returnData ∧ op ≠ .selfDestruct := by
  cases op <;> simp [outcome]

/-- The act of a request ends the execution as the operation does. -/
theorem Request.outcome_of_commits {m : Message} {M : Memory} {r : Request} {c : Commit} (h : r.Commits m M c) :
    c.outcome = r.operation.outcome := by
  cases r with
  | getAddress _ | getTxOrigin _ | getCaller _ | getBlockCoinbase _ | create _ _ _ _ | getCallValue _
  | getBalance _ _ | getBlockHash _ _ | getBlockDifficulty _ | storageLoad _ _ =>
    obtain ⟨b, -, rfl⟩ := h
    rfl
  | callDataCopy256 _ _ =>
    obtain ⟨b, rfl⟩ := h
    rfl
  | callDataCopy _ _ _ | codeCopy _ _ _ | externalCodeCopy _ _ _ _ =>
    obtain ⟨-, b, rfl⟩ := h
    rfl
  | call _ _ _ _ _ _ _ | callDelegate _ _ _ _ _ _ =>
    obtain ⟨b, -, -, rfl⟩ := h
    rfl
  | storageStore _ _ =>
    obtain ⟨k, v, -, -, hc⟩ := h
    split at hc
    · rcases hc with rfl | rfl <;> rfl
    · rw [hc]
      rfl
  | log _ _ _ _ _ _ _ =>
    obtain ⟨entry, rfl⟩ := h
    rfl
  | returnData _ _ =>
    obtain ⟨output, rfl⟩ := h
    rfl
  | selfDestruct _ =>
    obtain ⟨target, -, rfl⟩ := h
    rfl
  | getCallDataSize | getCodeSize | getExternalCodeSize _ | getTxGasPrice | getBlockTimestamp | getBlockNumber
  | getBlockGasLimit | callCode _ _ _ _ _ _ _ => exact h.elim

/-- The tree answers with the error `why` what the request asks it to write. -/
def Request.Refused [Tree τ] (m : Message) (f : Frame τ κ) (why : TreeError) : Request → Prop
  | storageStore key value =>
    ∃ k v : Word, f.memory.readVector? 32 key = some k ∧ f.memory.readVector? 32 value = some v ∧
      let read := (Tree.get f.tree (m.callee.slot k)).2
      (if v = Word.zero then (Tree.delete read (m.callee.slot k)).1
        else (Tree.set read (m.callee.slot k) v.toList).1) = .error why
  | _ => False

/-! ### Progress, act by act -/

theorem Progress.ne_running_of_halt {p q : Progress} {output : Option Bytes} (h : p.halt output = .ok q) :
    q.status ≠ .running := by
  by_cases hrun : p.status = .running
  · rw [halt_of_running hrun] at h
    cases h
    simp
  · rw [halt, ensureRunning_of_ne hrun] at h
    cases h

theorem Progress.ne_running_of_selfDestruct {p q : Progress} {beneficiary : Address}
    (h : p.selfDestruct beneficiary = .ok q) : q.status ≠ .running := by
  by_cases hrun : p.status = .running
  · rw [selfDestruct_of_running hrun] at h
    cases h
    simp
  · rw [selfDestruct, ensureRunning_of_ne hrun] at h
    cases h

namespace Host

theorem of_advance_ok {step : Progress → Except OperationError Progress} {f g : Frame τ κ} {a : Unit}
    (h : advance step f = .ok a g) : step f.progress = .ok g.progress := by
  unfold advance at h
  split at h
  · rename_i progress hstep
    cases h
    exact hstep
  · cases h

section

variable [Tree τ] {c : Commit} {f g : Frame τ κ}

/-- Writing to the tree, or failing to, leaves the execution and the memory as they are. -/
theorem after_of_alters (halters : c.Alters) (f : Frame τ κ) :
    ∃ meter tree effects, after c.run f = { f with meter, tree, effects } := by
  cases c with
  | put p value => exact ⟨_, _, _, after_put p value f⟩
  | remove p => exact ⟨_, _, _, after_remove p f⟩
  | clear p =>
    have hremove := after_remove p { f with meter := f.meter.refund Gas.slotClearing }
    rw [Commit.run, after_bind_ok (refund_eq Gas.slotClearing f), hremove]
    exact ⟨_, _, _, rfl⟩
  | write _ _ | fill _ _ _ | log _ | halt _ | destroy _ => exact halters.elim

theorem progress_of_alters (halters : c.Alters) (f : Frame τ κ) : (after c.run f).progress = f.progress := by
  obtain ⟨_, _, _, hafter⟩ := after_of_alters halters f
  rw [hafter]

/-- An act that is carried out leaves its outcome as the status, and never marks an exception. -/
theorem progress_of_commit (hrun : f.progress.status = .running) (h : c.run f = .ok () g) :
    g.progress.status = c.outcome ∧ g.progress.result.exception = f.progress.result.exception := by
  have hsame (hprogress : g.progress = f.progress) (houtcome : c.outcome = .running) :
      g.progress.status = c.outcome ∧ g.progress.result.exception = f.progress.result.exception := by
    rw [hprogress, houtcome]
    exact ⟨hrun, rfl⟩
  have hstored (halters : c.Alters) : g.progress = f.progress := by
    have hprogress := progress_of_alters halters f
    rw [after_ok h] at hprogress
    exact hprogress
  cases c with
  | write offset b =>
    have hwrite : edit (·.write? offset b) f = .ok () g := h
    exact hsame (by rw [eq_of_edit_ok hwrite]) rfl
  | fill offset length b =>
    have hwrite : edit (·.writePadded? offset length b) f = .ok () g := h
    exact hsame (by rw [eq_of_edit_ok hwrite]) rfl
  | log entry =>
    have hlog : advance (·.log entry) f = .ok () g := h
    have hstep := (of_advance_ok hlog).symm.trans (Progress.log_of_running hrun entry)
    rw [Except.ok.inj hstep]
    exact ⟨hrun, rfl⟩
  | halt output =>
    have hhalt : advance (·.halt output) f = .ok () g := h
    have hstep := (of_advance_ok hhalt).symm.trans (Progress.halt_of_running hrun output)
    rw [Except.ok.inj hstep]
    exact ⟨rfl, rfl⟩
  | destroy beneficiary =>
    obtain ⟨_, f', hrefund, hdestroy⟩ := of_bind_ok h
    obtain rfl := of_refund_ok hrefund
    have hstep := (of_advance_ok hdestroy).symm.trans (Progress.selfDestruct_of_running hrun beneficiary)
    rw [Except.ok.inj hstep]
    exact ⟨rfl, rfl⟩
  | put _ _ | remove _ | clear _ => exact hsame (hstored trivial) rfl

end

section

variable [Tree τ] [Kernel κ] {m : Message} {op : Operation} {args : List UInt64} {r : Request} {f g : Frame τ κ}

/-- What is served without ending the execution is no operation that ends it. -/
theorem outcome_of_serve {a : Option UInt64} (h : serve m r f = .ok a g) (hrun : g.progress.status = .running) :
    r.operation.outcome = .running := by
  cases r with
  | returnData data length =>
    obtain ⟨_, g', hserve, hsilent⟩ := of_bind_ok h
    cases hsilent
    dsimp only at hserve
    split at hserve
    all_goals
      obtain ⟨output, f', -, hhalt⟩ := of_bind_ok hserve
      exact absurd hrun (Progress.ne_running_of_halt (of_advance_ok hhalt))
  | selfDestruct beneficiary =>
    obtain ⟨_, g', hserve, hsilent⟩ := of_bind_ok h
    cases hsilent
    obtain ⟨target, f', -, hrest⟩ := of_bind_ok hserve
    obtain ⟨_, f'', -, hdestroy⟩ := of_bind_ok hrest
    exact absurd hrun (Progress.ne_running_of_selfDestruct (of_advance_ok hdestroy))
  | _ => rfl

/-! ### What an answer says of the status -/

theorem status_of_ok {a : Option UInt64} (hrun : f.progress.status = .running)
    (h : invoke m op args f = .ok a g) :
    g.progress.status = op.outcome ∧ g.progress.result.exception = f.progress.result.exception := by
  obtain ⟨r, hr, hserve⟩ := of_invoke_ok h
  have hop := Request.operation_of_ofArgs? hr
  obtain ⟨k, hasked, hend, -⟩ := invoke_ending (m := m) hrun hr
  have hkrun : k.progress.status = .running := by rw [hasked.progress, hrun]
  cases hend with
  | done a' h' =>
    rw [h'] at h
    cases h
    -- Without an act the execution still runs, so the operation is none that ends it.
    have houtcome := outcome_of_serve hserve hkrun
    rw [hkrun, ← hop, houtcome, hasked.progress]
    exact ⟨rfl, rfl⟩
  | commit c a' g' hc hcommit h' _ =>
    rw [h'] at h
    cases h
    have hprogress := progress_of_commit hkrun hcommit
    rw [Request.outcome_of_commits hc, hop, hasked.progress] at hprogress
    exact hprogress
  | trap why h' _ =>
    rw [h'] at h
    cases h
  | refuse c text k' _ _ _ h' _ =>
    rw [h'] at h
    cases h

/-- A trap ends the execution and marks an exception; any other failure leaves both as they are. -/
theorem status_of_error {e : OperationError} (hrun : f.progress.status = .running)
    (h : invoke m op args f = .error e g) :
    g.progress.status = e.outcome ∧
      g.progress.result.exception = (f.progress.result.exception || e.outcome.isTrapped) := by
  rcases of_invoke_error hrun h with
    ⟨rfl, rfl⟩ | ⟨r, k, hr, hasked, ⟨why, rfl, rfl⟩ | ⟨c, text, hc, halters, rfl, hrefused⟩⟩
  · exact ⟨hrun, (Bool.or_false _).symm⟩
  · have hkrun : k.progress.status = .running := by rw [hasked.progress, hrun]
    have htrapped := Progress.trap_of_running hkrun why
    simp only [Frame.trapped, htrapped]
    exact ⟨rfl, (Bool.or_true _).symm⟩
  · have hprogress := progress_of_alters halters k
    rw [after_error hrefused, hasked.progress] at hprogress
    rw [hprogress]
    exact ⟨hrun, (Bool.or_false _).symm⟩

/-- A running execution is never told that it has ended. -/
theorem error_cases {e : OperationError} (hrun : f.progress.status = .running) (h : invoke m op args f = .error e g) :
    e = .arity op op.params.length args.length ∨ (∃ why, e = .trap why) ∨ ∃ text, e = .internal text := by
  rcases of_invoke_error hrun h with ⟨he, -⟩ | ⟨_, _, _, _, ⟨why, he, -⟩ | ⟨_, text, _, _, he, -⟩⟩
  · exact .inl he
  · exact .inr (.inl ⟨why, he⟩)
  · exact .inr (.inr ⟨text, he⟩)

/-- With the right number of arguments only a trap or a failure of the host is an error. -/
theorem trap_or_internal {e : OperationError} (hrun : f.progress.status = .running)
    (hlength : args.length = op.params.length) (h : invoke m op args f = .error e g) :
    (∃ why, e = .trap why) ∨ ∃ text, e = .internal text := by
  obtain ⟨r, hr⟩ := Request.exists_ofArgs? hlength
  obtain ⟨k, -, hend, -⟩ := invoke_ending (m := m) hrun hr
  cases hend with
  | done _ h' | commit _ _ _ _ _ h' _ =>
    rw [h'] at h
    cases h
  | trap why h' _ =>
    rw [h'] at h
    cases h
    exact .inl ⟨why, rfl⟩
  | refuse _ text _ _ _ _ h' _ =>
    rw [h'] at h
    cases h
    exact .inr ⟨text, rfl⟩

/-- Only a store can fail in the host, and only because the tree refused. -/
theorem refused_of_internal {text : String} (hrun : f.progress.status = .running)
    (h : invoke m op args f = .error (.internal text) g) :
    op = .storageStore ∧ ∃ r why, Request.ofArgs? op args = some r ∧ r.Refused m f why ∧ text = why.message := by
  rcases of_invoke_error hrun h with ⟨he, -⟩ | ⟨r, k, hr, -, ⟨why, he, -⟩ | ⟨c, text', hc, halters, -, -⟩⟩
  · cases he
  · cases he
  · obtain ⟨key, value, _, _, rfl, -⟩ := Request.eq_store_of_alters hc halters
    have hop := Request.operation_of_ofArgs? hr
    rcases invoke_store (m := m) hrun hr with ⟨why, amount, hinvoke⟩ | ⟨k', v, hk, hv, hinvoke⟩
    · rw [hinvoke] at h
      cases h
    · rw [hinvoke] at h
      rcases of_bind_error (of_trapping_error h rfl) with hstore | ⟨_, _, _, hreport⟩
      · obtain ⟨why, hwhy, htext⟩ := refused_of_storeSlot hstore
        exact ⟨hop.symm, _, why, hr, ⟨k', v, hk, hv, hwhy⟩, htext⟩
      · cases hreport

end

end Host

/-- The result shows an exception exactly if the execution is trapped. -/
def Frame.Flagged (f : Frame τ κ) : Prop := f.progress.result.exception = f.progress.status.isTrapped

theorem Operation.isTrapped_outcome (op : Operation) : op.outcome.isTrapped = false := by
  cases op <;> rfl

theorem Status.isTrapped_iff {s : Status} : s.isTrapped = true ↔ ∃ why, s = .trapped why := by
  cases s <;> simp [isTrapped]

namespace Host

variable [Tree τ] [Kernel κ] {m : Message} {op : Operation} {args : List UInt64} {f : Frame τ κ}

theorem flagged_invoke (m : Message) (op : Operation) (args : List UInt64) (h : f.Flagged) :
    (after (invoke m op args) f).Flagged := by
  rcases invoke_cases m op args f with ⟨e, hinvoke⟩ | ⟨hrun, -⟩
  · rw [after_error hinvoke]
    exact h
  · have hclear : f.progress.result.exception = false := by
      rw [h, hrun]
      rfl
    cases hinvoke : invoke m op args f with
    | ok a g =>
      obtain ⟨hstatus, hexception⟩ := status_of_ok hrun hinvoke
      rw [after_ok hinvoke, Frame.Flagged, hexception, hstatus, op.isTrapped_outcome]
      exact hclear
    | error e g =>
      obtain ⟨hstatus, hexception⟩ := status_of_error hrun hinvoke
      rw [after_error hinvoke, Frame.Flagged, hexception, hstatus, hclear]
      exact Bool.false_or _

theorem flagged_play (m : Message) (tree : τ) (kernel : κ) (memory : Memory) (turns : List Turn) :
    (play m (.start m tree kernel memory) turns).2.Flagged := by
  refine play_invariant (fun f t hf => ?_) turns rfl
  rw [turn_snd]
  exact flagged_invoke m t.op t.args hf

omit [Tree τ] [Kernel κ] in
/-- The final report never says that the execution still runs. -/
theorem finish_of_flagged (h : f.Flagged) :
    f.finish.status ≠ .running ∧ (f.finish.result.exception = true ↔ ∃ why, f.finish.status = .trapped why) := by
  have hexception : f.finish.result.exception = f.progress.status.isTrapped := h
  rw [hexception, ← Status.isTrapped_iff]
  simp only [Frame.finish, Progress.finish]
  cases f.progress.status <;> simp [Status.isTerminal, Status.isTrapped]

/-- The status of a running execution after an invocation can be read off the answer, and the final report is never
that it runs. -/
theorem status_follows_answer (hrun : f.progress.status = .running) (op : Operation) (args : List UInt64) :
    let failure := failure? (invoke m op args) f
    let status := (after (invoke m op args) f).progress.status
    (∀ why, status = .trapped why ↔ failure = some (.trap why)) ∧
    (status = .halted .returned ↔ op = .returnData ∧ failure = none) ∧
    (status = .halted .selfDestructed ↔ op = .selfDestruct ∧ failure = none) ∧
    (status = .running ↔ failure = none ∧ op ≠ .returnData ∧ op ≠ .selfDestruct ∨
      failure = some (.arity op op.params.length args.length) ∨ ∃ text, failure = some (.internal text)) ∧
    (∀ s, failure ≠ some (.ended s)) ∧
    (∀ text, failure = some (.internal text) → op = .storageStore ∧
      ∃ r why, Request.ofArgs? op args = some r ∧ r.Refused m f why ∧ text = why.message) ∧
    ∀ (tree : τ) (kernel : κ) (memory : Memory) (turns : List Turn),
      let report := (play m (.start m tree kernel memory) turns).2.finish
      report.status ≠ .running ∧ (report.result.exception = true ↔ ∃ why, report.status = .trapped why) := by
  intro failure status
  have hreport (tree : τ) (kernel : κ) (memory : Memory) (turns : List Turn) :=
    finish_of_flagged (flagged_play m tree kernel memory turns)
  cases hinvoke : invoke m op args f with
  | ok a g =>
    have hfailure : failure = none := failure?_ok hinvoke
    have hstatus : status = op.outcome := by rw [← (status_of_ok hrun hinvoke).1, ← after_ok hinvoke]
    rw [hfailure, hstatus]
    refine ⟨?_, ?_, ?_, ?_, ?_, ?_, hreport⟩
    · intro why
      simp [op.outcome_ne_trapped why]
    · simp [Operation.outcome_eq_returned_iff]
    · simp [Operation.outcome_eq_selfDestructed_iff]
    · simp [Operation.outcome_eq_running_iff]
    · simp
    · simp
  | error e g =>
    have hfailure : failure = some e := failure?_error hinvoke
    have hstatus : status = e.outcome := by rw [← (status_of_error hrun hinvoke).1, ← after_error hinvoke]
    rw [hfailure, hstatus]
    refine ⟨?_, ?_, ?_, ?_, ?_, ?_, hreport⟩
    · intro why
      cases e <;> simp [OperationError.outcome]
    · cases e <;> simp [OperationError.outcome]
    · cases e <;> simp [OperationError.outcome]
    · rcases error_cases hrun hinvoke with rfl | ⟨why, rfl⟩ | ⟨text, rfl⟩ <;> simp [OperationError.outcome]
    · rcases error_cases hrun hinvoke with rfl | ⟨why, rfl⟩ | ⟨text, rfl⟩ <;> simp
    · intro text htext
      cases htext
      exact refused_of_internal hrun hinvoke

private def brief : Message := { callee := .root, sender := .root, origin := .root, gas := 2 }

private def briefStart : Frame NodeTree Script := .start brief {} {} (.zeros 20)

/-- Two units of gas are enough to destroy the contract. -/
theorem status_follows_answer_destroyed :
    (after (invoke brief .selfDestruct [0]) briefStart).progress.status = .halted .selfDestructed := by
  have hfailure : failure? (invoke brief .selfDestruct [0]) briefStart = none := by decide +kernel
  obtain ⟨-, -, hdestroyed, -⟩ := status_follows_answer (f := briefStart) rfl .selfDestruct [0]
  exact hdestroyed.2 ⟨rfl, hfailure⟩

/-! ### After the end -/

theorem turn_of_ended (hended : f.progress.status ≠ .running) (m : Message) (t : Turn) :
    turn m f t = (.error (.ended f.progress.status), { f with memory := t.memory }) :=
  turn_of_error (invoke_of_terminal hended)

/-- Whatever is asked of an execution that has ended, it answers so, and nothing happens. -/
theorem passages_of_ended (hended : f.progress.status ≠ .running) (turns : List Turn) :
    ∀ p ∈ passages m f turns,
      p.answer = .error (.ended f.progress.status) ∧ p.left = { f with memory := p.turn.memory } := by
  induction turns generalizing f with
  | nil =>
    intro p hp
    cases hp
  | cons t turns ih =>
    intro p hp
    rw [passages, passage, turn_of_ended hended, List.mem_cons] at hp
    rcases hp with rfl | hp
    · exact ⟨rfl, rfl⟩
    · -- The next turn finds the same frame, but for the memory that the contract has by then.
      exact ih (f := { f with memory := t.memory }) hended p hp

theorem play_of_ended (hended : f.progress.status ≠ .running) (m : Message) (turns : List Turn) :
    (play m f turns).2 = { f with memory := (play m f turns).2.memory } := by
  have hstep (g : Frame τ κ) (t : Turn) (hg : g = { f with memory := g.memory }) :
      (turn m g t).2 = { f with memory := (turn m g t).2.memory } := by
    have hturn := turn_of_ended (f := { f with memory := g.memory }) hended m t
    rw [hg, hturn]
  exact play_invariant hstep turns rfl

/-- A run that has come to a terminal status stays there, whatever is invoked afterwards. -/
theorem ended_for_good (m : Message) (tree : τ) (kernel : κ) (memory : Memory) (turns : List Turn)
    (hended : (play m (.start m tree kernel memory) turns).2.progress.status.isTerminal = true)
    (further : List Turn) :
    let reached := (play m (.start m tree kernel memory) turns).2
    let last := (play m reached further).2
    (∀ p ∈ passages m reached further, p.answer = .error (.ended reached.progress.status) ∧
      p.left = { reached with memory := p.turn.memory }) ∧
    last = { reached with memory := last.memory } ∧
    last.finish = reached.finish ∧ last.finish.status = reached.progress.status := by
  intro reached last
  have hstatus : reached.progress.status ≠ .running := Status.isTerminal_iff.1 hended
  have hlast : last = { reached with memory := last.memory } := play_of_ended hstatus m further
  have hfinish : last.finish = reached.finish := by
    rw [hlast]
    rfl
  refine ⟨passages_of_ended hstatus further, hlast, hfinish, ?_⟩
  rw [hfinish]
  exact if_pos hended

/-- A contract that has destroyed itself may ask for anything, even with too few arguments, and is refused. -/
theorem ended_for_good_destroyed :
    let reached := (play brief briefStart [⟨.zeros 20, .selfDestruct, [0]⟩]).2
    ∀ p ∈ passages brief reached [⟨.zeros 64, .storageStore, []⟩, ⟨.zeros 64, .returnData, [0, 0]⟩],
      p.answer = .error (.ended (.halted .selfDestructed)) ∧ p.left.meter.remaining = 0 := by
  intro reached p hp
  have hstatus : reached.progress.status = .halted .selfDestructed := by decide +kernel
  have hended : reached.progress.status.isTerminal = true := by
    rw [hstatus]
    rfl
  have hgas : reached.meter.remaining = 0 := by decide +kernel
  obtain ⟨hpassages, -⟩ := ended_for_good brief ({} : NodeTree) ({} : Script) (.zeros 20)
    [⟨.zeros 20, .selfDestruct, [0]⟩] hended [⟨.zeros 64, .storageStore, []⟩, ⟨.zeros 64, .returnData, [0, 0]⟩]
  obtain ⟨hanswer, hleft⟩ := hpassages p hp
  refine ⟨hanswer.trans ?_, ?_⟩
  · exact congrArg (fun s => Except.error (OperationError.ended s)) hstatus
  · rw [hleft]
    exact hgas

end Host

end ContractHost
