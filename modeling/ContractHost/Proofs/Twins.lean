import ContractHost.Proofs.Footprint

/-!
# Twin frames

Frames are twins if they differ in nothing but their state trees, and the trees are related by `R`.  An effect is
blind to `R` if related trees answer it alike and are still related afterwards.  An operation whose effects are blind
does the same on twins, and leaves twins (`alike_invoke`): each step does, and the shape of the operations says that
there is nothing but steps.  What every turn does alike, a run does alike (`perform_twins`).
-/

namespace ContractHost

variable {τ κ : Type}

/-- Frames that differ at most in their trees, which are related. -/
def Frame.Twins (R : τ → τ → Prop) (f g : Frame τ κ) : Prop := ∃ tree, R f.tree tree ∧ g = { f with tree }

namespace Frame.Twins

variable {R : τ → τ → Prop} {f g : Frame τ κ}

protected theorem refl (h : R f.tree f.tree) : f.Twins R f := ⟨f.tree, h, rfl⟩

theorem related (h : f.Twins R g) : R f.tree g.tree := by
  obtain ⟨tree, hR, rfl⟩ := h
  exact hR

theorem memory_eq (h : f.Twins R g) : g.memory = f.memory := by
  obtain ⟨tree, -, rfl⟩ := h
  rfl

theorem progress_eq (h : f.Twins R g) : g.progress = f.progress := by
  obtain ⟨tree, -, rfl⟩ := h
  rfl

theorem eq_with_tree (h : f.Twins R g) : f = { g with tree := f.tree } := by
  obtain ⟨tree, -, rfl⟩ := h
  rfl

/-- The final report says nothing of the tree. -/
theorem finish_eq (h : f.Twins R g) : f.finish = g.finish := by
  obtain ⟨tree, -, rfl⟩ := h
  rfl

end Frame.Twins

/-- Whether related trees answer alike and remain related. -/
def Effect.Blind [Tree τ] (R : τ → τ → Prop) : Effect → Prop
  | get p => ∀ s t, R s t → (Tree.get s p).1 = (Tree.get t p).1 ∧ R (Tree.get s p).2 (Tree.get t p).2
  | hash p => ∀ s t, R s t → (Tree.hash s p).1 = (Tree.hash t p).1 ∧ R (Tree.hash s p).2 (Tree.hash t p).2
  | set p v => ∀ s t, R s t → (Tree.set s p v).1 = (Tree.set t p v).1 ∧ R (Tree.set s p v).2 (Tree.set t p v).2
  | delete p => ∀ s t, R s t → (Tree.delete s p).1 = (Tree.delete t p).1 ∧ R (Tree.delete s p).2 (Tree.delete t p).2
  | send _ => True

namespace Host

variable {α β : Type} {R : τ → τ → Prop} {f g : Frame τ κ}

/-- The same result on frames that are twins. -/
inductive Alike (R : τ → τ → Prop) :
    EStateM.Result OperationError (Frame τ κ) α → EStateM.Result OperationError (Frame τ κ) α → Prop
  | ok (a : α) {f g : Frame τ κ} (h : f.Twins R g) : Alike R (.ok a f) (.ok a g)
  | error (e : OperationError) {f g : Frame τ κ} (h : f.Twins R g) : Alike R (.error e f) (.error e g)

/-! ### Steps that do not reach the tree -/

theorem Alike.bind {x : Host τ κ α} {k : α → Host τ κ β} (hx : Alike R (x f) (x g))
    (hk : ∀ a f' g', x f = .ok a f' → f'.Twins R g' → Alike R (k a f') (k a g')) :
    Alike R ((x >>= k) f) ((x >>= k) g) := by
  generalize hf : x f = resultf at hx
  generalize hg : x g = resultg at hx
  cases hx with
  | ok a htwins =>
    rw [bind_ok hf, bind_ok hg]
    exact hk a _ _ hf htwins
  | error e htwins =>
    rw [bind_error hf, bind_error hg]
    exact .error e htwins

theorem alike_charge (amount : UInt64) (hfg : f.Twins R g) : Alike R (charge amount f) (charge amount g) := by
  obtain ⟨tree, hR, rfl⟩ := hfg
  unfold charge
  cases f.meter.charge? amount with
  | none => exact .error _ ⟨tree, hR, rfl⟩
  | some meter => exact .ok _ ⟨tree, hR, rfl⟩

theorem alike_restore (amount : UInt64) (hfg : f.Twins R g) : Alike R (restore amount f) (restore amount g) := by
  obtain ⟨tree, hR, rfl⟩ := hfg
  exact .ok _ ⟨tree, hR, rfl⟩

theorem alike_refund (amount : UInt64) (hfg : f.Twins R g) : Alike R (refund amount f) (refund amount g) := by
  obtain ⟨tree, hR, rfl⟩ := hfg
  exact .ok _ ⟨tree, hR, rfl⟩

theorem alike_payCall (c : SubCall) (hfg : f.Twins R g) : Alike R (payCall c f) (payCall c g) := by
  unfold payCall
  by_cases hvalue : c.value ≠ 0
  · rw [if_pos hvalue]
    exact (alike_charge _ hfg).bind fun _ _ _ _ htwins => alike_restore _ htwins
  · rw [if_neg hvalue]
    exact .ok _ hfg

theorem alike_view (read : Memory → Option α) (hfg : f.Twins R g) : Alike R (view read f) (view read g) := by
  obtain ⟨tree, hR, rfl⟩ := hfg
  unfold view
  cases read f.memory with
  | none => exact .error _ ⟨tree, hR, rfl⟩
  | some a => exact .ok _ ⟨tree, hR, rfl⟩

theorem alike_edit (write : Memory → Option Memory) (hfg : f.Twins R g) :
    Alike R (edit write f) (edit write g) := by
  obtain ⟨tree, hR, rfl⟩ := hfg
  unfold edit
  cases write f.memory with
  | none => exact .error _ ⟨tree, hR, rfl⟩
  | some memory => exact .ok _ ⟨tree, hR, rfl⟩

theorem alike_advance (step : Progress → Except OperationError Progress) (hfg : f.Twins R g) :
    Alike R (advance step f) (advance step g) := by
  obtain ⟨tree, hR, rfl⟩ := hfg
  unfold advance
  cases step f.progress with
  | error e => exact .error _ ⟨tree, hR, rfl⟩
  | ok progress => exact .ok _ ⟨tree, hR, rfl⟩

theorem Alike.trapping {x : Host τ κ α} (h : Alike R (x f) (x g)) : Alike R (trapping x f) (trapping x g) := by
  unfold Host.trapping
  generalize x f = resultf at h ⊢
  generalize x g = resultg at h ⊢
  cases h with
  | ok a htwins => exact .ok a htwins
  | error e htwins =>
    obtain ⟨tree, hR, rfl⟩ := htwins
    cases e with
    | trap why => exact .error _ ⟨tree, hR, rfl⟩
    | ended _ | arity _ _ _ | internal _ => exact .error _ ⟨tree, hR, rfl⟩

/-! ### Steps that ask -/

variable [Tree τ] [Kernel κ]

omit [Kernel κ] in
theorem alike_fetch {p : Path} (h : (Effect.get p).Blind R) (hfg : f.Twins R g) :
    Alike R (fetch p f) (fetch p g) := by
  obtain ⟨tree, hR, rfl⟩ := hfg
  obtain ⟨hanswer, hafter⟩ := h f.tree tree hR
  unfold fetch
  dsimp only
  rw [hanswer]
  exact .ok _ ⟨_, hafter, rfl⟩

omit [Kernel κ] in
theorem alike_fetchHash {p : Path} (h : (Effect.hash p).Blind R) (hfg : f.Twins R g) :
    Alike R (fetchHash p f) (fetchHash p g) := by
  obtain ⟨tree, hR, rfl⟩ := hfg
  obtain ⟨hanswer, hafter⟩ := h f.tree tree hR
  unfold fetchHash
  dsimp only
  rw [hanswer]
  exact .ok _ ⟨_, hafter, rfl⟩

omit [Tree τ] in
theorem alike_send (message : Message) (hfg : f.Twins R g) : Alike R (send message f) (send message g) := by
  obtain ⟨tree, hR, rfl⟩ := hfg
  exact .ok _ ⟨tree, hR, rfl⟩

omit [Tree τ] [Kernel κ] in
theorem alike_accepted (answer : Except TreeError Unit) (hfg : f.Twins R g) :
    Alike R (accepted answer f) (accepted answer g) := by
  cases answer with
  | ok _ => exact .ok () hfg
  | error e => exact .error _ hfg

omit [Kernel κ] in
theorem alike_put {p : Path} {value : Bytes} (h : (Effect.set p value).Blind R) (hfg : f.Twins R g) :
    Alike R (put p value f) (put p value g) := by
  obtain ⟨tree, hR, rfl⟩ := hfg
  obtain ⟨hanswer, hafter⟩ := h f.tree tree hR
  unfold put
  dsimp only
  rw [hanswer]
  exact alike_accepted _ ⟨_, hafter, rfl⟩

omit [Kernel κ] in
theorem alike_remove {p : Path} (h : (Effect.delete p).Blind R) (hfg : f.Twins R g) :
    Alike R (remove p f) (remove p g) := by
  obtain ⟨tree, hR, rfl⟩ := hfg
  obtain ⟨hanswer, hafter⟩ := h f.tree tree hR
  unfold remove
  dsimp only
  rw [hanswer]
  exact alike_accepted _ ⟨_, hafter, rfl⟩

/-! ### Operations -/

variable {M : Memory} {pays : Prop} {P : Effect → Prop} {C : Commit → Prop} {n : Nat} {m : Message}

theorem Prepares.alike {x : Host τ κ α} (h : Prepares M pays P n x) (hP : ∀ e, P e → e.Blind R)
    (hM : f.memory = M) (hfg : f.Twins R g) : Alike R (x f) (x g) := by
  induction h generalizing f g with
  | pure a => exact .ok a hfg
  | invalid => exact .error _ hfg
  | charge amount _ => exact alike_charge amount hfg
  | payCall c _ => exact alike_payCall c hfg
  | view read => exact alike_view read hfg
  | fetch hp => exact alike_fetch (hP _ hp) hfg
  | fetchHash hp => exact alike_fetchHash (hP _ hp) hfg
  | send _ => exact alike_send _ hfg
  | bind hx _ _ ihx ihg =>
    refine (ihx hM hfg).bind fun a f' g' hok htwins => ?_
    -- Preparing leaves the memory as it was, so what follows is prepared on the same memory.
    exact ihg a ⟨f, f', hM, hok⟩ ((hx.asked hM hok).memory.trans hM) htwins
  | mono _ _ ih => exact ih hM hfg

omit [Kernel κ] in
theorem alike_run (c : Commit) (hc : ∀ e ∈ c.effects, e.Blind R) (hfg : f.Twins R g) :
    Alike R (c.run f) (c.run g) := by
  cases c with
  | write offset b => exact alike_edit (·.write? offset b) hfg
  | fill offset length b => exact alike_edit (·.writePadded? offset length b) hfg
  | log entry => exact alike_advance (·.log entry) hfg
  | halt output => exact alike_advance (·.halt output) hfg
  | destroy beneficiary =>
    exact (alike_refund Gas.selfDestruct hfg).bind fun _ _ _ _ htwins =>
      alike_advance (·.selfDestruct beneficiary) htwins
  | put p value => exact alike_put (hc _ (List.mem_singleton_self _)) hfg
  | remove p => exact alike_remove (hc _ (List.mem_singleton_self _)) hfg
  | clear p =>
    have hdelete : (Effect.delete p).Blind R := hc _ (List.mem_singleton_self _)
    exact (alike_refund Gas.slotClearing hfg).bind fun _ _ _ _ htwins => alike_remove hdelete htwins

theorem Transacts.alike {x : Host τ κ α} (h : Transacts M pays P C n x) (hP : ∀ e, P e → e.Blind R)
    (hC : ∀ c, C c → ∀ e ∈ c.effects, e.Blind R) (hM : f.memory = M) (hfg : f.Twins R g) :
    Alike R (x f) (x g) := by
  induction h generalizing f g with
  | prepares hx => exact hx.alike hP hM hfg
  | commit c hc => exact alike_run c (hC c hc) hfg
  | bind hx _ _ ihg =>
    refine (hx.alike hP hM hfg).bind fun a f' g' hok htwins => ?_
    exact ihg a ⟨f, f', hM, hok⟩ ((hx.asked hM hok).memory.trans hM) htwins
  | report _ _ ih => exact (ih hM hfg).bind fun _ _ _ _ htwins => .ok _ htwins
  | mono _ _ ih => exact ih hM hfg

/-- An invocation does the same on twins if what it serves does. -/
theorem alike_invoke_of_serve {op : Operation} {args : List UInt64}
    (hserve : ∀ (r : Request) (f' g' : Frame τ κ), f'.memory = f.memory → f'.Twins R g' →
      Alike R (serve m r f') (serve m r g'))
    (hfg : f.Twins R g) : Alike R (invoke m op args f) (invoke m op args g) := by
  have hprogress := hfg.progress_eq
  by_cases hrun : f.progress.status = .running
  · have hrun' : g.progress.status = .running := hprogress ▸ hrun
    cases hr : Request.ofArgs? op args with
    | none =>
      rw [invoke_of_arity hrun hr, invoke_of_arity hrun' hr]
      exact .error _ hfg
    | some r =>
      rw [invoke_eq hrun hr, invoke_eq hrun' hr]
      refine Alike.trapping ((alike_charge op.cost hfg).bind fun _ f' g' hok htwins => ?_)
      obtain ⟨-, rfl⟩ := of_charge_ok hok
      exact hserve r _ _ rfl htwins
  · have hrun' : g.progress.status ≠ .running := hprogress ▸ hrun
    rw [invoke_of_terminal hrun, invoke_of_terminal hrun', hprogress]
    exact .error _ hfg

/-- An invocation whose effects are all blind does the same on twins. -/
theorem alike_invoke {op : Operation} {args : List UInt64}
    (hP : ∀ r e, Request.Asks m f.memory r e → e.Blind R)
    (hC : ∀ r c, Request.Commits m f.memory r c → ∀ e ∈ c.effects, e.Blind R) (hfg : f.Twins R g) :
    Alike R (invoke m op args f) (invoke m op args g) :=
  alike_invoke_of_serve (fun r _ _ hM htwins => (transacts_serve m f.memory r).alike (hP r) (hC r) hM htwins) hfg

/-! ### Turns and runs -/

theorem twins_turn_of_invoke {t : Turn}
    (hinvoke : ∀ f' g' : Frame τ κ, f'.memory = t.memory → f'.Twins R g' →
      Alike R (invoke m t.op t.args f') (invoke m t.op t.args g')) (hfg : f.Twins R g) :
    (turn m f t).1 = (turn m g t).1 ∧ (turn m f t).2.Twins R (turn m g t).2 := by
  have hstart : Frame.Twins R { f with memory := t.memory } { g with memory := t.memory } := by
    obtain ⟨tree, hR, rfl⟩ := hfg
    exact ⟨tree, hR, rfl⟩
  have halike := hinvoke _ _ rfl hstart
  unfold turn
  generalize invoke m t.op t.args { f with memory := t.memory } = resultf at halike ⊢
  generalize invoke m t.op t.args { g with memory := t.memory } = resultg at halike ⊢
  cases halike with
  | ok a htwins => exact ⟨rfl, htwins⟩
  | error e htwins => exact ⟨rfl, htwins⟩

theorem twins_turn {t : Turn} (hP : ∀ r e, Request.Asks m t.memory r e → e.Blind R)
    (hC : ∀ r c, Request.Commits m t.memory r c → ∀ e ∈ c.effects, e.Blind R) (hfg : f.Twins R g) :
    (turn m f t).1 = (turn m g t).1 ∧ (turn m f t).2.Twins R (turn m g t).2 := by
  refine twins_turn_of_invoke (fun f' g' hM htwins => ?_) hfg
  rw [← hM] at hP hC
  exact alike_invoke hP hC htwins

/-- If every turn goes the same way on twins and leaves twins, so does a run. -/
theorem perform_twins (hturn : ∀ (f g : Frame τ κ) (t : Turn), f.Twins R g →
      (turn m f t).1 = (turn m g t).1 ∧ (turn m f t).2.Twins R (turn m g t).2)
    (plans : List Plan) (hfg : f.Twins R g) :
    (perform m f plans).1 = (perform m g plans).1 ∧ (perform m f plans).2.Twins R (perform m g plans).2 := by
  induction plans generalizing f g with
  | nil => exact ⟨rfl, hfg⟩
  | cons plan plans ih =>
    obtain ⟨hanswer, htwins⟩ := hturn f g (plan f.memory) hfg
    obtain ⟨hhistory, hlast⟩ := ih htwins
    simp only [perform, hfg.memory_eq, hanswer, hhistory]
    exact ⟨trivial, hlast⟩

end Host

end ContractHost
