import ContractHost.Proofs.Lineage

/-!
# Resolving paths

Resolving a path drops whatever stands before a `root` and every key that a `parent` follows, so that only keys are
left; exactly the paths that have only keys are left as they are.  Whether this is done at once or in steps makes no
difference, and a level that is gone down and up again has no effect (`resolve_key_parent`).  Hence the accounts that
code can reach lie where those lie that its caller can reach, from whatever path a chain of calls sets out
(`sibling_eq_of_begets`).  `resolution_laws` is all of this together.
-/

namespace ContractHost

namespace Path

/-- Nothing is left to be done exactly for what resolving may result in. -/
theorem resolve_nil_eq_self_iff {p : Path} : p.resolve [] = p ↔ p.KeysOnly := by
  constructor
  · intro h
    rw [← h]
    exact keysOnly_resolve p []
  · intro h
    have hkeys := foldl_step_of_keysOnly h []
    rw [resolve, List.append_nil, hkeys, List.nil_append]

/-- From the root of the tree on it does not matter where one was before. -/
theorem resolve_root_cons (p : Path) (r : List Segment) : p.resolve (.root :: r) = root.resolve r := by
  simp only [resolve, root, List.foldl_append, List.foldl_cons, Segment.step, List.nil_append]

/-- A key and a `parent` behind it cancel. -/
theorem resolve_key_parent (p : Path) (r s : List Segment) (name : String) :
    p.resolve (r ++ .key name :: .parent :: s) = p.resolve (r ++ s) := by
  simp only [resolve, List.foldl_append, List.foldl_cons, Segment.step, List.dropLast_concat]

theorem resolve_child_parent (p : Path) (name : String) (r : List Segment) :
    (p.child name).resolve (.parent :: r) = p.resolve r := by
  simp only [resolve, child, List.foldl_append, List.foldl_cons, List.foldl_nil, Segment.step, List.dropLast_concat]

/-- From below an account one finds the accounts that are found from where that account was found. -/
theorem sibling_child_sibling (p : Path) (a b : Address) (name : String) :
    ((p.sibling a).child name).sibling b = p.sibling b := by
  calc ((p.sibling a).child name).sibling b
      = (p.sibling a).resolve [.parent, .key b.key] := resolve_child_parent ..
    _ = p.resolve [.parent, .parent, .key a.key, .parent, .key b.key] := resolve_append p _ _
    _ = p.sibling b := resolve_key_parent p [.parent, .parent] [.key b.key] a.key

end Path

/-- Along a chain of calls, wherever it begins, an account is found at the same path from every message. -/
theorem Message.sibling_eq_of_begets {message : Nat → Message} {errand : Nat → Errand} {n : Nat}
    (h : ∀ i < n, (message i).Begets (errand i) (message (i + 1))) (a : Address) {i : Nat} (hi : i ≤ n) :
    (message i).callee.sibling a = (message 0).callee.sibling a := by
  induction i with
  | zero => rfl
  | succ i ih =>
    have hmessage := (h i hi).eq
    rw [hmessage, Errand.callee_message_eq]
    exact (Path.sibling_child_sibling ..).trans (ih (Nat.le_of_succ_le hi))

namespace Path

/-- Resolving leaves keys only and may be done in steps, and along a chain of calls an account is found at the same
path. -/
theorem resolution_laws :
    (∀ (p : Path) (r : List Segment), (p.resolve r).KeysOnly) ∧
    (∀ (p : Path) (r s : List Segment), (p.resolve r).resolve s = p.resolve (r ++ s)) ∧
    (∀ (p : Path) (r : List Segment), p.resolve ([.root] ++ r) = root.resolve r) ∧
    (∀ p : Path, p.resolve [] = p ↔ p.KeysOnly) ∧
    (∀ (p : Path) (a b : Address) (name : String), ((p.sibling a).child name).sibling b = p.sibling b) ∧
    ∀ (message : Nat → Message) (errand : Nat → Errand) (n : Nat),
      (∀ i < n, (message i).Begets (errand i) (message (i + 1))) →
      ∀ i ≤ n, ∀ a : Address, (message i).callee.sibling a = (message 0).callee.sibling a := by
  refine ⟨keysOnly_resolve, resolve_append, resolve_root_cons, fun p => resolve_nil_eq_self_iff,
    sibling_child_sibling, ?_⟩
  intro message errand n h i hi a
  exact Message.sibling_eq_of_begets h a hi

end Path

private def stray : Message := { callee := .root, sender := .root, origin := .root, gas := 10000 }

private def near : Errand := ⟨.call, 1000, .replicate 20 1, 0, []⟩

private def far : Errand := ⟨.delegate, 100, .replicate 20 2, 0, []⟩

private theorem stray_begets : stray.Begets near (near.message stray) := by
  let memory := Memory.ofBytes (List.replicate 20 1 ++ List.replicate 16 0)
  have hturn : (Turn.mk memory .call [1000, 0, 20, 36, 0, 0, 0]).errand? = some near := by decide +kernel
  exact Message.begets_of_turn ({} : NodeTree) ({} : Script) memory hturn (by decide +kernel)

private theorem near_begets : (near.message stray).Begets far (far.message (near.message stray)) := by
  let memory := Memory.ofBytes (List.replicate 20 2)
  have hturn : (Turn.mk memory .callDelegate [100, 0, 0, 0, 0, 0]).errand? = some far := by decide +kernel
  exact Message.begets_of_turn ({} : NodeTree) ({} : Script) memory hturn (by decide +kernel)

namespace Path

/-- Code at the root of the tree has no level to go up; the code that it calls, and the code called by that, find
accounts at the root as well. -/
theorem resolution_laws_root :
    stray.Begets near (near.message stray) ∧ (near.message stray).Begets far (far.message (near.message stray)) ∧
      (far.message (near.message stray)).callee.sibling .zero = .ofKeys [Address.zero.key] := by
  obtain ⟨-, -, -, -, -, hchain⟩ := resolution_laws
  let message (i : Nat) : Message :=
    if i = 0 then stray else if i = 1 then near.message stray else far.message (near.message stray)
  let errand (i : Nat) := if i = 0 then near else far
  have hbegets : ∀ i < 2, (message i).Begets (errand i) (message (i + 1)) := by
    intro i hi
    obtain rfl | rfl : i = 0 ∨ i = 1 := by omega
    · exact stray_begets
    · exact near_begets
  exact ⟨stray_begets, near_begets, hchain message errand 2 hbegets 2 (Nat.le_refl 2) .zero⟩

end Path

end ContractHost
