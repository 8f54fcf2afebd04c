import ContractHost.Proofs.Endings
import ContractHost.Tree.NodeTree

/-!
# What a trap leaves behind

An operation that traps aborts the execution, and has not done anything else: `invoke_trap` lists what may differ
afterwards.  The reason is the shape of the operations, of which every act comes last and either is carried out as a
whole or is not even begun.
-/

namespace ContractHost

variable {τ κ : Type} [Tree τ] [Kernel κ]

/-- `g` is `f` once the operation was stopped by a trap: gas may be gone, and one question may have been asked that is
no write, and no message unless the operation is a call. -/
structure Frame.Aborted (op : Operation) (why : Trap) (f g : Frame τ κ) : Prop where
  memory : g.memory = f.memory
  progress : g.progress =
    { f.progress with status := .trapped why, result := { f.progress.result with exception := true } }
  limit : g.meter.limit = f.meter.limit
  refunded : g.meter.refunded = f.meter.refunded
  remaining : g.meter.remaining ≤ f.meter.remaining
  asked : ∃ l : List Effect, l.length ≤ 1 ∧
    (∀ e ∈ l, e.isWrite = false ∧ ∀ message, e = .send message → op = .call ∨ op = .callDelegate) ∧
    g.effects.toList = f.effects.toList ++ l ∧ g.world = l.foldl Effect.carry f.world

theorem Request.operation_of_asks_send {m message : Message} {M : Memory} {r : Request}
    (h : r.Asks m M (.send message)) : r.operation = .call ∨ r.operation = .callDelegate := by
  cases r with
  | call _ _ _ _ _ _ _ => exact .inl rfl
  | callDelegate _ _ _ _ _ _ => exact .inr rfl
  | _ => simp [Asks] at h

namespace Host

variable {m : Message} {op : Operation} {args : List UInt64} {f g : Frame τ κ} {why : Trap}

theorem invoke_trap (hrun : f.progress.status = .running) (h : invoke m op args f = .error (.trap why) g) :
    f.Aborted op why g := by
  cases hr : Request.ofArgs? op args with
  | none =>
    rw [invoke_of_arity hrun hr] at h
    cases h
  | some r =>
    obtain ⟨k, hasked, hend, -⟩ := invoke_ending (m := m) hrun hr
    cases hend with
    | done a h' | commit c a k' _ _ h' _ | refuse c text k' _ _ _ h' _ =>
      rw [h'] at h
      cases h
    | trap why' h' _ =>
      rw [h'] at h
      cases h
      obtain ⟨l, hlength, hl, heffects, hworld⟩ := hasked.asked
      refine {
        memory := hasked.memory
        progress := ?_
        limit := hasked.limit
        refunded := hasked.refunded
        remaining := hasked.remaining
        asked := ⟨l, hlength, fun e he => ⟨(hl e he).2, ?_⟩, heffects, hworld⟩ }
      · rw [Frame.trapped, hasked.progress, Progress.trap_of_running hrun]
      · rintro message rfl
        rw [← Request.operation_of_ofArgs? hr]
        exact Request.operation_of_asks_send (hl _ he).1

private def poor : Message := { callee := .root, sender := .root, origin := .root, gas := 19999 }

private def poorStart : Frame NodeTree Script := .start poor {} {} (.ofBytes (List.replicate 64 1))

/-- One unit of gas less than a new slot costs: the slot was read, but nothing is stored. -/
theorem invoke_trap_poor :
    ∃ g, invoke poor .storageStore [0, 32] poorStart = .error (.trap .outOfGas) g ∧
      poorStart.Aborted .storageStore .outOfGas g ∧ g.effects.size = 1 := by
  have hfail : failure? (invoke poor .storageStore [0, 32]) poorStart = some (.trap .outOfGas) := by decide +kernel
  have hsize : (after (invoke poor .storageStore [0, 32]) poorStart).effects.size = 1 := by decide +kernel
  cases h : invoke poor .storageStore [0, 32] poorStart with
  | ok a g =>
    rw [failure?_ok h] at hfail
    cases hfail
  | error e g =>
    rw [failure?_error h] at hfail
    cases hfail
    rw [after_error h] at hsize
    exact ⟨g, rfl, invoke_trap rfl h, hsize⟩

end Host

end ContractHost
