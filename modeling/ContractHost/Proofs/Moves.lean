import ContractHost.Outcome

/-!
# What an execution may record

The progress of an execution takes four kinds of moves, in any order and any number: it may halt, enter something into
the log, destroy the contract, or trap.  The first move that is no entry settles status and result, and nothing moves
after it (`run_eq`): other moves are refused, and a trap passes unnoticed (`closed_of_ended`).

So after any moves the status has changed at most once, the flags of the result and the beneficiary are those of the
status, only an execution that has returned has an output, and the log holds the entries made while it was running.
Closing the account keeps all of this: it only lets an execution that is still running return, and writes down the
refund (`moves_recorded`).
-/

namespace ContractHost.Progress

inductive Move
  | halt (output : Option Bytes)
  | log (entry : LogEntry)
  | selfDestruct (beneficiary : Address)
  | trap (why : Trap)

namespace Move

/-- The status and the result in which the move leaves an execution, if it ends it. -/
def verdict? : Move → Option (Status × Result)
  | halt output => some (.halted .returned, { output := output.getD [] })
  | log _ => none
  | selfDestruct beneficiary =>
    some (.halted .selfDestructed, { selfDestruct := true, beneficiary := some beneficiary })
  | trap why => some (.trapped why, { exception := true })

def entry? : Move → Option LogEntry
  | log entry => some entry
  | halt _ | selfDestruct _ | trap _ => none

end Move

def move (p : Progress) : Move → Except OperationError Progress
  | .halt output => p.halt output
  | .log entry => p.log entry
  | .selfDestruct beneficiary => p.selfDestruct beneficiary
  | .trap why => .ok (p.trap why)

/-- The progress after the move; what is refused changes nothing. -/
def moved (p : Progress) (x : Move) : Progress :=
  match p.move x with
  | .ok q => q
  | .error _ => p

/-- The progress after the moves, one after the other. -/
def run (p : Progress) (moves : List Move) : Progress := moves.foldl moved p

/-- How many of the moves change the status. -/
def changes (p : Progress) : List Move → Nat
  | [] => 0
  | x :: moves => (if (p.moved x).status = p.status then 0 else 1) + (p.moved x).changes moves

/-- The entries among the moves that are made while the execution is running, in order. -/
def entered (p : Progress) : List Move → List LogEntry
  | [] => []
  | x :: moves => (if p.status = .running then x.entry?.toList else []) ++ (p.moved x).entered moves

/-- Nothing can be recorded any more. -/
structure Closed (p : Progress) : Prop where
  halt : ∀ output, p.halt output = .error (.ended p.status)
  log : ∀ entry, p.log entry = .error (.ended p.status)
  selfDestruct : ∀ beneficiary, p.selfDestruct beneficiary = .error (.ended p.status)
  trap : ∀ why, p.trap why = p

/-- The result is of a kind with the status. -/
structure Coherent (p : Progress) : Prop where
  exception : p.result.exception = true ↔ ∃ why, p.status = .trapped why
  destroyed : p.result.selfDestruct = true ↔ p.status = .halted .selfDestructed
  beneficiary : p.result.beneficiary.isSome = true ↔ p.status = .halted .selfDestructed
  output : p.result.output ≠ [] → p.status = .halted .returned

variable {p : Progress}

theorem run_cons (p : Progress) (x : Move) (moves : List Move) : p.run (x :: moves) = (p.moved x).run moves := rfl

/-! ### After the end -/

theorem closed_of_ended (h : p.status ≠ .running) : p.Closed where
  halt output := by
    rw [halt, ensureRunning_of_ne h]
    rfl
  log entry := by
    rw [log, ensureRunning_of_ne h]
    rfl
  selfDestruct beneficiary := by
    rw [selfDestruct, ensureRunning_of_ne h]
    rfl
  trap why := by
    cases hstatus : p.status with
    | running => exact absurd hstatus h
    | halted _ | trapped _ => simp [trap, hstatus, Status.isTerminal]

theorem Closed.moved_eq (h : p.Closed) (x : Move) : p.moved x = p := by
  cases x with
  | halt output => rw [moved, move, h.halt]
  | log entry => rw [moved, move, h.log]
  | selfDestruct beneficiary => rw [moved, move, h.selfDestruct]
  | trap why => rw [moved, move, h.trap]

theorem Closed.run_eq (h : p.Closed) (moves : List Move) : p.run moves = p := by
  induction moves with
  | nil => rfl
  | cons x moves ih => rw [run_cons, h.moved_eq, ih]

theorem Closed.changes_eq (h : p.Closed) (moves : List Move) : p.changes moves = 0 := by
  induction moves with
  | nil => rfl
  | cons x moves ih => rw [changes, h.moved_eq, if_pos rfl, ih]

/-! ### While it runs -/

theorem moved_log (h : p.status = .running) (entry : LogEntry) :
    p.moved (.log entry) = { p with logs := p.logs ++ [entry] } := by
  rw [moved, move, log_of_running h]

/-- The first move that is no entry settles everything but the log. -/
theorem moved_of_verdict {x : Move} {v : Status × Result} (h : x.verdict? = some v) (logs : List LogEntry) :
    moved ⟨.running, {}, logs⟩ x = ⟨v.1, v.2, logs⟩ := by
  cases x with
  | halt output =>
    obtain rfl := Option.some.inj h
    rfl
  | log entry => cases h
  | selfDestruct beneficiary =>
    obtain rfl := Option.some.inj h
    rfl
  | trap why =>
    obtain rfl := Option.some.inj h
    rfl

theorem ne_running_of_verdict {x : Move} {v : Status × Result} (h : x.verdict? = some v) : v.1 ≠ .running := by
  cases x <;> simp [Move.verdict?] at h <;> simp [← h]

/-- All moves together: the first that is no entry decides, and the entries before it are the log. -/
theorem run_eq (logs : List LogEntry) (moves : List Move) :
    let v := (moves.findSome? Move.verdict?).getD (.running, {})
    run ⟨.running, {}, logs⟩ moves =
      ⟨v.1, v.2, logs ++ (moves.takeWhile (·.verdict?.isNone)).filterMap Move.entry?⟩ := by
  induction moves generalizing logs with
  | nil => simp [run]
  | cons x moves ih =>
    rw [run_cons]
    cases hv : x.verdict? with
    | some v =>
      have hclosed : Closed ⟨v.1, v.2, logs⟩ := closed_of_ended (ne_running_of_verdict hv)
      rw [moved_of_verdict hv, hclosed.run_eq]
      simp [hv]
    | none =>
      cases x with
      | log entry =>
        rw [moved_log rfl, ih]
        simp [hv, Move.entry?]
      | halt _ | selfDestruct _ | trap _ => cases hv

/-! ### Along the moves -/

theorem logs_moved (p : Progress) (x : Move) :
    (p.moved x).logs = p.logs ++ if p.status = .running then x.entry?.toList else [] := by
  by_cases h : p.status = .running
  · rw [if_pos h]
    cases x with
    | halt output => simp [moved, move, halt_of_running h, Move.entry?]
    | log entry => simp [moved, move, log_of_running h, Move.entry?]
    | selfDestruct beneficiary => simp [moved, move, selfDestruct_of_running h, Move.entry?]
    | trap why => simp [moved, move, trap_of_running h, Move.entry?]
  · rw [if_neg h, (closed_of_ended h).moved_eq, List.append_nil]

theorem logs_run (p : Progress) (moves : List Move) : (p.run moves).logs = p.logs ++ p.entered moves := by
  induction moves generalizing p with
  | nil => simp [run, entered]
  | cons x moves ih => rw [run_cons, ih, logs_moved, entered, List.append_assoc]

/-- Only a running execution changes its status, and it never runs again. -/
theorem changes_le (p : Progress) (moves : List Move) : p.changes moves ≤ 1 := by
  induction moves generalizing p with
  | nil => exact Nat.zero_le 1
  | cons x moves ih =>
    rw [changes]
    by_cases hsame : (p.moved x).status = p.status
    · rw [if_pos hsame, Nat.zero_add]
      exact ih (p.moved x)
    · have hrun : p.status = .running := by
        refine Decidable.byContradiction fun h => hsame ?_
        rw [(closed_of_ended h).moved_eq]
      rw [hrun] at hsame
      rw [(closed_of_ended hsame).changes_eq]
      split <;> omega

theorem Coherent.moved (h : p.Coherent) (x : Move) : (p.moved x).Coherent := by
  by_cases hrun : p.status = .running
  · -- As long as the execution runs, its result is still blank.
    have hexception : p.result.exception = false := by simpa [hrun] using h.exception
    have hdestroyed : p.result.selfDestruct = false := by simpa [hrun] using h.destroyed
    have hbeneficiary : p.result.beneficiary = none := by simpa [hrun] using h.beneficiary
    have houtput : p.result.output = [] := by simpa [hrun] using h.output
    cases x with
    | halt output =>
      rw [Progress.moved, move, halt_of_running hrun]
      constructor <;> simp [hexception, hdestroyed, hbeneficiary]
    | log entry =>
      rw [Progress.moved, move, log_of_running hrun]
      exact ⟨h.exception, h.destroyed, h.beneficiary, h.output⟩
    | selfDestruct beneficiary =>
      rw [Progress.moved, move, selfDestruct_of_running hrun]
      constructor <;> simp [hexception, houtput]
    | trap why =>
      rw [Progress.moved, move, trap_of_running hrun]
      constructor <;> simp [hdestroyed, hbeneficiary, houtput]
  · rw [(closed_of_ended hrun).moved_eq]
    exact h

theorem Coherent.run (h : p.Coherent) (moves : List Move) : (p.run moves).Coherent := by
  induction moves generalizing p with
  | nil => exact h
  | cons x moves ih => exact ih (h.moved x)

theorem coherent_start : Coherent {} := by constructor <;> simp

/-- Closing the account keeps the result in line with the status. -/
theorem Coherent.finish (h : p.Coherent) (gasRefund : UInt64) : (p.finish gasRefund).Coherent := by
  cases hstatus : p.status with
  | running =>
    have hexception : p.result.exception = false := by simpa [hstatus] using h.exception
    have hdestroyed : p.result.selfDestruct = false := by simpa [hstatus] using h.destroyed
    have hbeneficiary : p.result.beneficiary = none := by simpa [hstatus] using h.beneficiary
    constructor <;> simp [Progress.finish, hstatus, Status.isTerminal, hexception, hdestroyed, hbeneficiary]
  | halted _ | trapped _ =>
    have hsame : (p.finish gasRefund).status = p.status := by simp [Progress.finish, hstatus, Status.isTerminal]
    constructor
    all_goals rw [hsame]
    · exact h.exception
    · exact h.destroyed
    · exact h.beneficiary
    · exact h.output

theorem status_finish (p : Progress) (gasRefund : UInt64) :
    (p.finish gasRefund).status = if p.status = .running then .halted .returned else p.status := by
  cases hstatus : p.status <;> simp [finish, hstatus, Status.isTerminal]

/-- What holds after every sequence of moves, and when the account is closed. -/
theorem moves_recorded (moves : List Move) :
    changes {} moves ≤ 1 ∧
    ((run {} moves).status ≠ .running →
      (run {} moves).Closed ∧ ∀ later, (run {} moves).run later = run {} moves) ∧
    (run {} moves).Coherent ∧
    (run {} moves).logs = entered {} moves ∧
    ((run {} moves).status, (run {} moves).result) = (moves.findSome? Move.verdict?).getD (.running, {}) ∧
    ∀ gasRefund : UInt64, ((run {} moves).finish gasRefund).Coherent ∧
      ((run {} moves).finish gasRefund).status =
        (if (run {} moves).status = .running then .halted .returned else (run {} moves).status) ∧
      ((run {} moves).finish gasRefund).result = { (run {} moves).result with gasRefund } ∧
      ((run {} moves).finish gasRefund).logs = (run {} moves).logs := by
  have hcoherent : (run {} moves).Coherent := coherent_start.run moves
  refine ⟨changes_le {} moves, fun hended => ?_, hcoherent, ?_, ?_, fun gasRefund => ?_⟩
  · have hclosed := closed_of_ended hended
    exact ⟨hclosed, hclosed.run_eq⟩
  · have hlogs := logs_run {} moves
    rwa [List.nil_append] at hlogs
  · have hrun := run_eq [] moves
    dsimp only at hrun
    rw [hrun]
  · exact ⟨hcoherent.finish gasRefund, status_finish _ gasRefund, rfl, rfl⟩

/-- An entry, the end of the contract, and what comes too late. -/
theorem moves_recorded_late :
    let early : LogEntry := ⟨[1], []⟩
    let p := run {} [.log early, .selfDestruct (.replicate 20 9), .log ⟨[2], []⟩, .trap .outOfGas]
    p.status = .halted .selfDestructed ∧ p.halt (some [1]) = .error (.ended (.halted .selfDestructed)) ∧
      p.result.exception = false ∧ p.logs = [early] := by
  intro early p
  obtain ⟨-, hended, hcoherent, hlogs, hsettled, -⟩ :=
    moves_recorded [.log early, .selfDestruct (.replicate 20 9), .log ⟨[2], []⟩, .trap .outOfGas]
  have hstatus : p.status = .halted .selfDestructed := congrArg Prod.fst hsettled
  have hrunning : p.status ≠ .running := by simp [hstatus]
  have hclosed : p.Closed := (hended hrunning).1
  refine ⟨hstatus, hstatus ▸ hclosed.halt (some [1]), Bool.eq_false_iff.2 fun hflag => ?_, hlogs⟩
  obtain ⟨why, htrapped⟩ := hcoherent.exception.1 hflag
  cases hstatus.symm.trans htrapped

end ContractHost.Progress
