import ContractHost.Proofs.Storage
import ContractHost.Proofs.Twins

/-!
# Executions side by side

Two executions that take turns on one state tree in memory do not notice each other if their code lies in different
accounts: each is answered as it would be alone, has the same memory and the same messages sent, and comes to the same
final report, whatever the order of their turns.  The tree holds what each has stored alone (`siblings_independent`).

What the one changes are slots of its account (`agreeOff_turn`), and the other never asks for these
(`Effect.Within.blind`); so its frame remains the twin of the frame that it would have alone.
-/

namespace ContractHost

/-! ### Trees that agree -/

/-- The trees have the same nodes, except perhaps for slots of the account of `a`. -/
def NodeTree.AgreeOff (a : Address) (s t : NodeTree) : Prop :=
  ∀ p : Path, ¬ p.IsSlotOf a → s.nodes.get? p = t.nodes.get? p

namespace NodeTree.AgreeOff

variable {a : Address} {s t u : NodeTree}

protected theorem refl (a : Address) (s : NodeTree) : AgreeOff a s s := fun _ _ => rfl

protected theorem symm (h : AgreeOff a s t) : AgreeOff a t s := fun p hp => (h p hp).symm

protected theorem trans (hst : AgreeOff a s t) (htu : AgreeOff a t u) : AgreeOff a s u :=
  fun p hp => (hst p hp).trans (htu p hp)

theorem read (h : AgreeOff a s t) {p : Path} (hp : ¬ p.IsSlotOf a) :
    (s.read p).1 = (t.read p).1 ∧ AgreeOff a (s.read p).2 (t.read p).2 := by
  constructor
  · rw [NodeTree.read, NodeTree.read, h p hp]
  · exact h

theorem insert (h : AgreeOff a s t) (p : Path) (value : Bytes) :
    AgreeOff a { s with nodes := s.nodes.insert p value } { t with nodes := t.nodes.insert p value } := by
  intro q hq
  rw [NodeMap.get?_insert, NodeMap.get?_insert, h q hq]

theorem erase (h : AgreeOff a s t) (p : Path) :
    AgreeOff a { s with nodes := s.nodes.erase p } { t with nodes := t.nodes.erase p } := by
  intro q hq
  rw [NodeMap.get?_erase, NodeMap.get?_erase, h q hq]

end NodeTree.AgreeOff

open NodeTree (AgreeOff)

variable {a b : Address}

/-- What code in another account asks does not tell whether the slots of `b` differ. -/
theorem Effect.Within.blind {e : Effect} (h : e.Within a) (hab : a ≠ b) : e.Blind (AgreeOff b) := by
  cases e with
  | get p =>
    have hp : ¬ p.IsSlotOf b := by
      rcases h with ⟨t, rfl | rfl⟩ | hslot
      · exact Path.not_isSlotOf_ofKeys (by simp)
      · exact Path.not_isSlotOf_ofKeys (by simp)
      · exact fun hb => hab (hslot.unique hb)
    exact fun s t hst => hst.read hp
  | hash p =>
    obtain ⟨n, rfl⟩ := h
    have hp : ¬ (Path.ofKeys ["blockchain", toString n]).IsSlotOf b := Path.not_isSlotOf_ofKeys (by simp)
    intro s t hst
    obtain ⟨hanswer, hafter⟩ := hst.read hp
    have hdigest : (Tree.hash s (.ofKeys ["blockchain", toString n])).1 =
        (Tree.hash t (.ofKeys ["blockchain", toString n])).1 := congrArg (Except.map Blake3.digest) hanswer
    exact ⟨hdigest, hafter⟩
  | set p value => exact fun s t hst => ⟨rfl, hst.insert p value⟩
  | delete p => exact fun s t hst => ⟨rfl, hst.erase p⟩
  | send _ => trivial

namespace Host

section

variable {τ κ κ' : Type} [Tree τ] [Kernel κ] [Kernel κ']

/-- The executions of `m` and `m'` on one state tree: the left plans are those of the former, the right plans those
of the latter, and each finds the tree as the other has left it. -/
def interleave (m m' : Message) (f : Frame τ κ) (f' : Frame τ κ') :
    List (Plan ⊕ Plan) → (List (Turn × Answer) × Frame τ κ) × (List (Turn × Answer) × Frame τ κ')
  | [] => (([], f), ([], f'))
  | .inl plan :: moves =>
    let t := plan f.memory
    let (answer, g) := turn m f t
    let (left, right) := interleave m m' g { f' with tree := g.tree } moves
    (((t, answer) :: left.1, left.2), right)
  | .inr plan :: moves =>
    let t := plan f'.memory
    let (answer, g') := turn m' f' t
    let (left, right) := interleave m m' { f with tree := g'.tree } g' moves
    (left, ((t, answer) :: right.1, right.2))

end

variable {κ κ' : Type} [Kernel κ] [Kernel κ'] {m m' : Message}

/-- Code in the account of `a` changes slots of that account only. -/
theorem agreeOff_turn (hcallee : m.callee = .ofKeys ["accounts", a.key, "code"]) (f : Frame NodeTree κ) (t : Turn) :
    AgreeOff a (turn m f t).2.tree f.tree := by
  intro p hp
  cases hstored : t.stored? (turn m f t).1 with
  | none => rw [nodes_of_not_stored hstored]
  | some s =>
    obtain ⟨k, v⟩ := s
    have hne : p ≠ m.callee.slot k := by
      rintro rfl
      rw [hcallee, Path.slot_code] at hp
      exact hp ⟨k, rfl⟩
    rw [nodes_of_stored hstored, if_neg hne]

/-- A turn of one's own, while the slots of `b` may have changed. -/
theorem own_turn (hcallee : m.callee = .ofKeys ["accounts", a.key, "code"]) (hab : a ≠ b) {f g : Frame NodeTree κ}
    (hfg : f.Twins (AgreeOff b) g) (t : Turn) :
    (turn m f t).1 = (turn m g t).1 ∧ (turn m f t).2.Twins (AgreeOff b) (turn m g t).2 :=
  twins_turn (fun _ _ hasks => (Request.within_of_asks hcallee hasks).blind hab)
    (fun _ _ hcommits e he => (Request.within_of_commits hcallee hcommits e he).blind hab) hfg

omit [Kernel κ'] in
/-- A turn of the other, which changes the shared tree only in slots of `a`. -/
theorem others_turn (hcallee : m.callee = .ofKeys ["accounts", a.key, "code"]) {f : Frame NodeTree κ}
    {f' g' : Frame NodeTree κ'} (hshared : f'.tree = f.tree) (hfg' : f'.Twins (AgreeOff a) g') (t : Turn) :
    Frame.Twins (AgreeOff a) { f' with tree := (turn m f t).2.tree } g' := by
  obtain ⟨tree, hagree, rfl⟩ := hfg'
  have hturn := agreeOff_turn hcallee f t
  rw [hshared] at hagree
  exact ⟨tree, hturn.trans hagree, rfl⟩

/-- Side by side, each execution remains the twin of itself alone. -/
theorem interleave_twins (hab : a ≠ b) (hcallee : m.callee = .ofKeys ["accounts", a.key, "code"])
    (hcallee' : m'.callee = .ofKeys ["accounts", b.key, "code"]) (moves : List (Plan ⊕ Plan))
    {f g : Frame NodeTree κ} {f' g' : Frame NodeTree κ'} (hshared : f'.tree = f.tree)
    (hfg : f.Twins (AgreeOff b) g) (hfg' : f'.Twins (AgreeOff a) g') :
    let both := interleave m m' f f' moves
    let alone := perform m g (moves.filterMap Sum.getLeft?)
    let alone' := perform m' g' (moves.filterMap Sum.getRight?)
    both.2.2.tree = both.1.2.tree ∧ both.1.1 = alone.1 ∧ both.1.2.Twins (AgreeOff b) alone.2 ∧
      both.2.1 = alone'.1 ∧ both.2.2.Twins (AgreeOff a) alone'.2 := by
  induction moves generalizing f g f' g' with
  | nil => exact ⟨hshared, rfl, hfg, rfl, hfg'⟩
  | cons move moves ih =>
    -- Whoever moves keeps its twin by moving like it, and the other keeps its own by not looking at what changed.
    cases move with
    | inl plan =>
      have hmemory := hfg.memory_eq
      obtain ⟨hanswer, htwins⟩ := own_turn hcallee hab hfg (plan f.memory)
      have hother := others_turn hcallee hshared hfg' (plan f.memory)
      obtain ⟨htree, hhistory, hlast, hhistory', hlast'⟩ := ih rfl htwins hother
      simp only [interleave, List.filterMap_cons, Sum.getLeft?_inl, Sum.getRight?_inl, perform, hmemory]
      exact ⟨htree, by rw [hhistory, hanswer], hlast, hhistory', hlast'⟩
    | inr plan =>
      have hmemory := hfg'.memory_eq
      obtain ⟨hanswer, htwins⟩ := own_turn hcallee' hab.symm hfg' (plan f'.memory)
      have hother := others_turn hcallee' hshared.symm hfg (plan f'.memory)
      obtain ⟨htree, hhistory, hlast, hhistory', hlast'⟩ := ih rfl hother htwins
      simp only [interleave, List.filterMap_cons, Sum.getLeft?_inr, Sum.getRight?_inr, perform, hmemory]
      exact ⟨htree, hhistory, hlast, by rw [hhistory', hanswer], hlast'⟩

/-- The slots of `b` are as the right execution leaves them alone, all other nodes as the left one does. -/
theorem nodes_interleave (hab : a ≠ b) (hcallee : m.callee = .ofKeys ["accounts", a.key, "code"])
    (hcallee' : m'.callee = .ofKeys ["accounts", b.key, "code"]) (moves : List (Plan ⊕ Plan))
    {f : Frame NodeTree κ} {f' : Frame NodeTree κ'} (hshared : f'.tree = f.tree) (p : Path) :
    let nodes := (interleave m m' f f' moves).1.2.tree.nodes
    (p.IsSlotOf b → nodes.get? p = (perform m' f' (moves.filterMap Sum.getRight?)).2.tree.nodes.get? p) ∧
      (¬ p.IsSlotOf b → nodes.get? p = (perform m f (moves.filterMap Sum.getLeft?)).2.tree.nodes.get? p) := by
  intro nodes
  obtain ⟨htree, -, hlast, -, hlast'⟩ := interleave_twins hab hcallee hcallee' moves hshared
    (.refl (.refl b f.tree)) (.refl (.refl a f'.tree))
  constructor
  · intro hp
    have hother : ¬ p.IsSlotOf a := fun ha => hab (ha.unique hp)
    have hnodes := hlast'.related p hother
    rw [htree] at hnodes
    exact hnodes
  · intro hp
    exact hlast.related p hp

/-- Two executions whose code lies in different accounts, side by side on one tree, each go the way that they would go
alone. -/
theorem siblings_independent (hab : a ≠ b) (hcallee : m.callee = .ofKeys ["accounts", a.key, "code"])
    (hcallee' : m'.callee = .ofKeys ["accounts", b.key, "code"]) (tree : NodeTree) (kernel : κ) (kernel' : κ')
    (memory memory' : Memory) (moves : List (Plan ⊕ Plan)) :
    let start := Frame.start m tree kernel memory
    let start' := Frame.start m' tree kernel' memory'
    let both := interleave m m' start start' moves
    let alone := perform m start (moves.filterMap Sum.getLeft?)
    let alone' := perform m' start' (moves.filterMap Sum.getRight?)
    (both.1.1 = alone.1 ∧ both.1.2 = { alone.2 with tree := both.1.2.tree } ∧ both.1.2.finish = alone.2.finish) ∧
    (both.2.1 = alone'.1 ∧ both.2.2 = { alone'.2 with tree := both.1.2.tree } ∧
      both.2.2.finish = alone'.2.finish) ∧
    (∀ p, (p.IsSlotOf b → both.1.2.tree.nodes.get? p = alone'.2.tree.nodes.get? p) ∧
      (¬ p.IsSlotOf b → both.1.2.tree.nodes.get? p = alone.2.tree.nodes.get? p)) ∧
    ∀ moves', moves'.filterMap Sum.getLeft? = moves.filterMap Sum.getLeft? →
      moves'.filterMap Sum.getRight? = moves.filterMap Sum.getRight? → ∀ p,
        (interleave m m' start start' moves').1.2.tree.nodes.get? p = both.1.2.tree.nodes.get? p := by
  intro start start' both alone alone'
  have hshared : start'.tree = start.tree := rfl
  obtain ⟨htree, hhistory, hlast, hhistory', hlast'⟩ := interleave_twins hab hcallee hcallee'
    moves hshared (.refl (.refl b start.tree)) (.refl (.refl a start'.tree))
  have heq' := hlast'.eq_with_tree
  rw [htree] at heq'
  have hnodes := nodes_interleave hab hcallee hcallee' moves hshared
  refine ⟨⟨hhistory, hlast.eq_with_tree, hlast.finish_eq⟩, ⟨hhistory', heq', hlast'.finish_eq⟩, hnodes, ?_⟩
  intro moves' hleft hright p
  obtain ⟨hslot, hother⟩ := nodes_interleave hab hcallee hcallee' moves' hshared p
  rw [hright] at hslot
  rw [hleft] at hother
  by_cases hp : p.IsSlotOf b
  · exact (hslot hp).trans ((hnodes p).1 hp).symm
  · exact (hother hp).trans ((hnodes p).2 hp).symm

private def elder : Message where
  callee := .accountField .zero "code"
  sender := .root
  origin := .root
  gas := 50000

private def younger : Message := { elder with callee := .accountField (.replicate 20 1) "code" }

private def storing : Plan := fun M => ⟨M, .storageStore, [0, 32]⟩

private def loading : Plan := fun M => ⟨M, .storageLoad, [0, 32]⟩

/-- Both store, in turns; both slots are there in the end. -/
theorem siblings_independent_stores :
    let start : Frame NodeTree Script := .start elder {} {} (.ofBytes (List.replicate 64 1))
    let start' : Frame NodeTree Script := .start younger {} {} (.ofBytes (List.replicate 64 2))
    let both := interleave elder younger start start' [.inl storing, .inr storing, .inl loading]
    both.1.1 = (perform elder start [storing, loading]).1 ∧ both.2.1 = (perform younger start' [storing]).1 ∧
      both.1.2.tree.nodes.size = 2 := by
  have hab : Address.zero ≠ Vector.replicate 20 1 := by decide
  have helder : elder.callee = .ofKeys ["accounts", Address.zero.key, "code"] := rfl
  have hyounger : younger.callee = .ofKeys ["accounts", Address.key (.replicate 20 1), "code"] := rfl
  have hboth := siblings_independent hab helder hyounger {} ({} : Script) ({} : Script)
    (.ofBytes (List.replicate 64 1)) (.ofBytes (List.replicate 64 2)) [.inl storing, .inr storing, .inl loading]
  dsimp only [List.filterMap_cons, List.filterMap_nil, Sum.getLeft?_inl, Sum.getLeft?_inr, Sum.getRight?_inl,
    Sum.getRight?_inr] at hboth ⊢
  exact ⟨hboth.1.1, hboth.2.1.1, by decide +kernel⟩

end Host

end ContractHost
