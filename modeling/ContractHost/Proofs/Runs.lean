import ContractHost.Proofs.Endings

/-!
# Runs

A contract takes turns: it does as it likes with its memory and then asks for an operation, with any arguments.
`play` carries out any number of turns.  What holds of a frame and is kept by every turn holds after every run
(`play_invariant`).  `passages` is the same run with the frames before and after each turn (`map_passages`).

A contract that goes on from the memory that it finds has a plan for each turn; `perform` carries out the plans.  One
that also goes by the answers so far has a strategy, and `pursue` follows it.
-/

namespace ContractHost

/-- What a contract does next: its memory as it is by then, and the operation that it asks for. -/
structure Turn where
  memory : Memory
  op : Operation
  args : List UInt64

/-- How an operation is answered. -/
abbrev Answer := Except OperationError (Option UInt64)

instance : DecidableEq Answer
  | .ok a, .ok b => decidable_of_iff (a = b) (by simp)
  | .error e, .error e' => decidable_of_iff (e = e') (by simp)
  | .ok _, .error _ | .error _, .ok _ => isFalse (by simp)

/-- What a contract does when its turn comes: it takes the turn that it makes of the memory it finds. -/
abbrev Plan := Memory → Turn

/-- What a contract does after what it has seen: the turns it took with their answers, oldest first, and the memory
that it finds. -/
abbrev Strategy := List (Turn × Answer) → Memory → Turn

/-- A turn as it went: the frame it found, what was asked and answered, and the frame it left. -/
structure Passage (τ κ : Type) where
  found : Frame τ κ
  turn : Turn
  answer : Answer
  left : Frame τ κ

namespace Host

variable {τ κ : Type} [Tree τ] [Kernel κ]

def turn (m : Message) (f : Frame τ κ) (t : Turn) : Answer × Frame τ κ :=
  match invoke m t.op t.args { f with memory := t.memory } with
  | .ok a g => (.ok a, g)
  | .error e g => (.error e, g)

/-- Takes the turns one after the other; gives each with its answer, and the last frame. -/
def play (m : Message) (f : Frame τ κ) : List Turn → List (Turn × Answer) × Frame τ κ
  | [] => ([], f)
  | t :: turns =>
    let (answer, g) := turn m f t
    let (history, h) := play m g turns
    ((t, answer) :: history, h)

/-- Carries out the plans one after the other; gives each turn with its answer, and the last frame. -/
def perform (m : Message) (f : Frame τ κ) : List Plan → List (Turn × Answer) × Frame τ κ
  | [] => ([], f)
  | plan :: plans =>
    let t := plan f.memory
    let (answer, g) := turn m f t
    let (history, h) := perform m g plans
    ((t, answer) :: history, h)

/-- Takes `n` more turns by the strategy; gives all that was seen, and the last frame. -/
def pursue (m : Message) (s : Strategy) : Nat → List (Turn × Answer) → Frame τ κ → List (Turn × Answer) × Frame τ κ
  | 0, seen, f => (seen, f)
  | n + 1, seen, f =>
    let t := s seen f.memory
    let (answer, g) := turn m f t
    pursue m s n (seen ++ [(t, answer)]) g

/-- The turn `t` on `f` as it goes. -/
def passage (m : Message) (f : Frame τ κ) (t : Turn) : Passage τ κ := ⟨f, t, (turn m f t).1, (turn m f t).2⟩

/-- The turns one after the other, each as it went. -/
def passages (m : Message) (f : Frame τ κ) : List Turn → List (Passage τ κ)
  | [] => []
  | t :: turns => passage m f t :: passages m (turn m f t).2 turns

variable {m : Message} {f g : Frame τ κ} {t : Turn}

theorem turn_of_ok {a : Option UInt64} (h : invoke m t.op t.args { f with memory := t.memory } = .ok a g) :
    turn m f t = (.ok a, g) := by
  rw [turn, h]

theorem turn_of_error {e : OperationError} (h : invoke m t.op t.args { f with memory := t.memory } = .error e g) :
    turn m f t = (.error e, g) := by
  rw [turn, h]

theorem turn_snd (m : Message) (f : Frame τ κ) (t : Turn) :
    (turn m f t).2 = after (invoke m t.op t.args) { f with memory := t.memory } := by
  cases h : invoke m t.op t.args { f with memory := t.memory } with
  | ok a g => rw [turn_of_ok h, after_ok h]
  | error e g => rw [turn_of_error h, after_error h]

theorem turn_fst_eq_error_iff {e : OperationError} :
    (turn m f t).1 = .error e ↔ failure? (invoke m t.op t.args) { f with memory := t.memory } = some e := by
  cases h : invoke m t.op t.args { f with memory := t.memory } with
  | ok a g => simp [turn_of_ok h, failure?_ok h]
  | error e' g => simp [turn_of_error h, failure?_error h]

/-- An invocation is refused from the start and changes nothing, or the execution is running and there is a
request. -/
theorem invoke_cases (m : Message) (op : Operation) (args : List UInt64) (f : Frame τ κ) :
    (∃ e, invoke m op args f = .error e f) ∨
      f.progress.status = .running ∧ ∃ r, Request.ofArgs? op args = some r := by
  by_cases hrun : f.progress.status = .running
  · cases hr : Request.ofArgs? op args with
    | none => exact .inl ⟨_, invoke_of_arity hrun hr⟩
    | some r => exact .inr ⟨hrun, r, rfl⟩
  · exact .inl ⟨_, invoke_of_terminal hrun⟩

theorem running_of_invoke_ok {op : Operation} {args : List UInt64} {a : Option UInt64}
    (h : invoke m op args f = .ok a g) : f.progress.status = .running := by
  refine Decidable.byContradiction fun hrun => ?_
  rw [invoke_of_terminal hrun] at h
  cases h

/-- What is carried out is what the request is served with once the base price is paid. -/
theorem of_invoke_ok {op : Operation} {args : List UInt64} {a : Option UInt64} (h : invoke m op args f = .ok a g) :
    ∃ r, Request.ofArgs? op args = some r ∧ serve m r (f.spend op.cost.toNat) = .ok a g := by
  rcases invoke_cases m op args f with ⟨e, hinvoke⟩ | ⟨hrun, r, hr⟩
  · rw [hinvoke] at h
    cases h
  · rw [invoke_eq hrun hr] at h
    obtain ⟨_, k, hcharge, hserve⟩ := of_bind_ok (of_trapping_ok h)
    obtain ⟨-, rfl⟩ := of_charge_ok hcharge
    exact ⟨r, hr, hserve⟩

/-- A running execution is refused for its arguments, or it prepares what its request asks for and then is stopped by
a trap, or by a tree that refuses what it asks it to write. -/
theorem of_invoke_error {op : Operation} {args : List UInt64} {e : OperationError}
    (hrun : f.progress.status = .running) (h : invoke m op args f = .error e g) :
    (e = .arity op op.params.length args.length ∧ g = f) ∨
      ∃ r k, Request.ofArgs? op args = some r ∧ f.Asked True (r.Asks m f.memory) 1 k ∧
        ((∃ why, e = .trap why ∧ g = k.trapped why) ∨ ∃ c text, r.Commits m f.memory c ∧ c.Alters ∧
          e = .internal text ∧ c.run k = .error (.internal text) g) := by
  cases hr : Request.ofArgs? op args with
  | none =>
    rw [invoke_of_arity hrun hr] at h
    cases h
    exact .inl ⟨rfl, rfl⟩
  | some r =>
    obtain ⟨k, hasked, hend, -⟩ := invoke_ending (m := m) hrun hr
    refine .inr ⟨r, k, rfl, hasked, ?_⟩
    cases hend with
    | done _ h' | commit _ _ _ _ _ h' _ =>
      rw [h'] at h
      cases h
    | trap why h' _ =>
      rw [h'] at h
      cases h
      exact .inl ⟨why, rfl, rfl⟩
    | refuse c text k' hc halters hrefused h' _ =>
      rw [h'] at h
      cases h
      exact .inr ⟨c, text, hc, halters, rfl, hrefused⟩

theorem of_turn_ok {a : Option UInt64} (h : (turn m f t).1 = .ok a) :
    invoke m t.op t.args { f with memory := t.memory } = .ok a (turn m f t).2 := by
  cases hinvoke : invoke m t.op t.args { f with memory := t.memory } with
  | ok a' g =>
    rw [turn_of_ok hinvoke] at h ⊢
    cases h
    rfl
  | error e g =>
    rw [turn_of_error hinvoke] at h
    cases h

theorem play_invariant {Inv : Frame τ κ → Prop} (hstep : ∀ f t, Inv f → Inv (turn m f t).2) (turns : List Turn)
    (h : Inv f) : Inv (play m f turns).2 := by
  induction turns generalizing f with
  | nil => exact h
  | cons t turns ih => exact ih (hstep f t h)

/-- Turns that do not depend on the memory are played. -/
theorem perform_const (m : Message) (f : Frame τ κ) (turns : List Turn) :
    perform m f (turns.map fun t _ => t) = play m f turns := by
  induction turns generalizing f with
  | nil => rfl
  | cons t turns ih =>
    have hrest := ih (turn m f t).2
    simp only [List.map_cons, perform, play, hrest]

theorem perform_invariant {Inv : Frame τ κ → Prop} (hstep : ∀ f t, Inv f → Inv (turn m f t).2)
    (plans : List Plan) (h : Inv f) : Inv (perform m f plans).2 := by
  induction plans generalizing f with
  | nil => exact h
  | cons plan plans ih => exact ih (hstep f (plan f.memory) h)

/-- Fewer plans make a shorter run, which goes the same way as far as it goes. -/
theorem perform_take (m : Message) (f : Frame τ κ) (plans : List Plan) (k : Nat) :
    (perform m f (plans.take k)).1 = (perform m f plans).1.take k := by
  induction plans generalizing f k with
  | nil => simp [perform]
  | cons plan plans ih =>
    cases k with
    | zero => rfl
    | succ k =>
      have hrest := ih (turn m f (plan f.memory)).2 k
      simp only [List.take_succ_cons, perform, hrest]

theorem map_passages (m : Message) (f : Frame τ κ) (turns : List Turn) :
    (passages m f turns).map (fun p => (p.turn, p.answer)) = (play m f turns).1 := by
  induction turns generalizing f with
  | nil => rfl
  | cons t turns ih =>
    have hrest := ih (turn m f t).2
    rw [passages, List.map_cons, hrest]
    rfl

/-- Every turn of a run is a turn on some frame. -/
theorem eq_passage_of_mem {turns : List Turn} {p : Passage τ κ} (hp : p ∈ passages m f turns) :
    p = passage m p.found p.turn := by
  induction turns generalizing f with
  | nil => cases hp
  | cons t turns ih =>
    rcases List.mem_cons.1 hp with rfl | hp
    · rfl
    · exact ih hp

end Host

end ContractHost
