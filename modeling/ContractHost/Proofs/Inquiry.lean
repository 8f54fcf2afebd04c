import ContractHost.Proofs.Shape

/-!
# What preparing changes

`Frame.Asked` says how a frame may have changed while an operation prepares: gas is spent and questions are on
record, and nothing else.  `Prepares.inquiry` shows it by induction on the shape of the operation.
-/

namespace ContractHost

variable {τ κ : Type}

/-- Whether the effect changes the state tree. -/
def Effect.isWrite : Effect → Bool
  | set .. | delete .. => true
  | _ => false

/-- The state tree and the kernel after the effect. -/
def Effect.carry [Tree τ] [Kernel κ] (w : τ × κ) : Effect → τ × κ
  | get p => ((Tree.get w.1 p).2, w.2)
  | hash p => ((Tree.hash w.1 p).2, w.2)
  | set p value => ((Tree.set w.1 p value).2, w.2)
  | delete p => ((Tree.delete w.1 p).2, w.2)
  | send m => (w.1, (Kernel.send w.2 m).2)

namespace Frame

variable [Tree τ] [Kernel κ]

/-- The state tree and the kernel of a frame. -/
def world (f : Frame τ κ) : τ × κ := (f.tree, f.kernel)

/-- `g` is `f` after at most `n` questions, all of them in `P`, and with some gas spent, but only if `pays`. -/
structure Asked (pays : Prop) (P : Effect → Prop) (n : Nat) (f g : Frame τ κ) : Prop where
  memory : g.memory = f.memory
  progress : g.progress = f.progress
  limit : g.meter.limit = f.meter.limit
  refunded : g.meter.refunded = f.meter.refunded
  remaining : g.meter.remaining ≤ f.meter.remaining
  paid : pays ∨ g.meter.remaining = f.meter.remaining
  asked : ∃ l : List Effect, l.length ≤ n ∧ (∀ e ∈ l, P e ∧ e.isWrite = false) ∧
    g.effects.toList = f.effects.toList ++ l ∧ g.world = l.foldl Effect.carry f.world

namespace Asked

variable {pays : Prop} {P : Effect → Prop} {n k : Nat} {f g h : Frame τ κ}

protected theorem refl (f : Frame τ κ) : Asked pays P 0 f f where
  memory := rfl
  progress := rfl
  limit := rfl
  refunded := rfl
  remaining := UInt64.le_refl _
  paid := .inr rfl
  asked := ⟨[], Nat.le_refl 0, by simp, by simp, rfl⟩

protected theorem trans (hfg : Asked pays P n f g) (hgh : Asked pays P k g h) : Asked pays P (n + k) f h where
  memory := hgh.memory.trans hfg.memory
  progress := hgh.progress.trans hfg.progress
  limit := hgh.limit.trans hfg.limit
  refunded := hgh.refunded.trans hfg.refunded
  remaining := UInt64.le_trans hgh.remaining hfg.remaining
  paid := by
    rcases hfg.paid with hp | hfg
    · exact .inl hp
    · rcases hgh.paid with hp | hgh
      · exact .inl hp
      · exact .inr (hgh.trans hfg)
  asked := by
    obtain ⟨l, hlength, hl, heffects, hworld⟩ := hfg.asked
    obtain ⟨l', hlength', hl', heffects', hworld'⟩ := hgh.asked
    refine ⟨l ++ l', ?_, ?_, ?_, ?_⟩
    · rw [List.length_append]
      omega
    · intro e he
      rcases List.mem_append.1 he with he | he
      · exact hl e he
      · exact hl' e he
    · rw [heffects', heffects, List.append_assoc]
    · rw [hworld', hworld, List.foldl_append]

theorem mono (hfg : Asked pays P n f g) (hn : n ≤ k) : Asked pays P k f g :=
  { hfg with
    asked := by
      obtain ⟨l, hlength, hl⟩ := hfg.asked
      exact ⟨l, Nat.le_trans hlength hn, hl⟩ }

theorem weaken (hfg : Asked pays P n f g) : Asked True P n f g :=
  { hfg with paid := .inl trivial }

theorem spend (hpays : pays) (f : Frame τ κ) (amount : Nat) : Asked pays P 0 f (f.spend amount) :=
  { (Asked.refl f : Asked pays P 0 f f) with
    remaining := remaining_spend_le ..
    paid := .inl hpays }

theorem question {e : Effect} (hP : P e) (hwrite : e.isWrite = false) (hg : g = { f with
    tree := (Effect.carry f.world e).1, kernel := (Effect.carry f.world e).2, effects := f.effects.push e }) :
    Asked pays P 1 f g := by
  subst hg
  exact { (Asked.refl f : Asked pays P 0 f f) with
    asked := ⟨[e], Nat.le_refl 1, by simp [hP, hwrite], by simp, rfl⟩ }

theorem world_eq (h : Asked pays P 0 f g) : g.world = f.world := by
  obtain ⟨l, hlength, -, -, hworld⟩ := h.asked
  obtain rfl := List.eq_nil_of_length_eq_zero (Nat.le_zero.1 hlength)
  exact hworld

end Asked

end Frame

namespace Host

variable {α β : Type} {pays : Prop}

/-- `x` leaves the frame `g`, and fails only by a trap; for want of gas only if it `pays`. -/
inductive EndsAt (pays : Prop) (x : Host τ κ α) (f g : Frame τ κ) : Prop
  | ok (a : α) (h : x f = .ok a g)
  | trap (why : Trap) (h : x f = .error (.trap why) g) (hpays : why = .outOfGas → pays)

theorem EndsAt.of_eq {x y : Host τ κ α} {f f' g : Frame τ κ} (h : EndsAt pays y f' g) (heq : x f = y f') :
    EndsAt pays x f g := by
  cases h with
  | ok a h => exact .ok a (heq.trans h)
  | trap why h hpays => exact .trap why (heq.trans h) hpays

variable [Tree τ] [Kernel κ] {M : Memory} {P : Effect → Prop} {C : Commit → Prop} {n : Nat}

theorem Prepares.inquiry {x : Host τ κ α} (h : Prepares M pays P n x) {f : Frame τ κ} (hM : f.memory = M) :
    ∃ g, f.Asked pays P n g ∧ EndsAt pays x f g := by
  induction h generalizing f with
  | pure a => exact ⟨f, .refl f, .ok a rfl⟩
  | invalid => exact ⟨f, .refl f, .trap .invalidArgument rfl (by simp)⟩
  | charge amount hpays =>
    rcases Nat.lt_or_ge f.meter.remaining.toNat amount.toNat with hlt | hle
    · exact ⟨f, .refl f, .trap .outOfGas (charge_of_lt hlt) fun _ => hpays⟩
    · exact ⟨_, .spend hpays f _, .ok () (charge_of_le hle)⟩
  | payCall c hpays =>
    by_cases hvalue : c.value = 0
    · exact ⟨f, .refl f, .ok () (payCall_of_eq hvalue f)⟩
    · rcases Nat.lt_or_ge f.meter.remaining.toNat (min (6700 + c.gas.toNat) Gas.cap) with hlt | hle
      · exact ⟨f, .refl f, .trap .outOfGas (payCall_of_lt hvalue hlt) fun _ => hpays⟩
      · exact ⟨_, .spend hpays f _, .ok () (payCall_of_le hvalue hle)⟩
  | view read =>
    cases hread : read f.memory with
    | none => exact ⟨f, .refl f, .trap .memoryFault (view_of_none hread) (by simp)⟩
    | some a => exact ⟨f, .refl f, .ok a (view_of_some hread)⟩
  | fetch hP => exact ⟨_, .question hP rfl rfl, .ok _ rfl⟩
  | fetchHash hP => exact ⟨_, .question hP rfl rfl, .ok _ rfl⟩
  | send hP => exact ⟨_, .question hP rfl rfl, .ok _ rfl⟩
  | bind hx hg hn ihx ihg =>
    rename_i n k l α β x next
    subst hn
    obtain ⟨g, hfg, hend⟩ := ihx hM
    cases hend with
    | ok a hxf =>
      -- The memory is still that of `f`, so the hypothesis on what follows applies.
      obtain ⟨h, hgh, hend⟩ := ihg a ⟨f, g, hM, hxf⟩ (hfg.memory.trans hM)
      exact ⟨h, hfg.trans hgh, hend.of_eq (bind_ok hxf next)⟩
    | trap why hxf hpays => exact ⟨g, hfg.mono (Nat.le_add_right ..), .trap why (bind_error hxf next) hpays⟩
  | mono _ hn ih =>
    obtain ⟨g, hfg, hend⟩ := ih hM
    exact ⟨g, hfg.mono hn, hend⟩

theorem Prepares.asked {x : Host τ κ α} (h : Prepares M pays P n x) {f g : Frame τ κ} (hM : f.memory = M) {a : α}
    (hg : x f = .ok a g) : f.Asked pays P n g := by
  obtain ⟨g', hfg, hend⟩ := h.inquiry hM
  cases hend with
  | ok a' hxf =>
    rw [hxf] at hg
    cases hg
    exact hfg
  | trap why hxf _ =>
    rw [hxf] at hg
    cases hg

end Host

end ContractHost
