import ContractHost.Proofs.Extent
import ContractHost.Proofs.Stores
import ContractHost.Tree.NodeTree

/-!
# Storage as a map

On a tree in memory the storage of a contract is a map from keys to words that is zero wherever nothing was stored.
`stores` lists what a run has stored, and `contents` is the map after it.  The nodes of the tree follow the map
(`Follows`): a turn that stores changes one entry (`nodes_of_stored`), and no other turn changes any
(`nodes_of_not_stored`).

So a load that is carried out puts the word of its key into the memory.  A key stored to has its word in the tree, and
no entry if that is zero; all other entries are as they were, and no two keys share a slot (`storage_map`).
-/

namespace ContractHost

/-- The key and the word that the turn stored, if it stored and was carried out. -/
def Turn.stored? (t : Turn) : Answer → Option (Word × Word)
  | .ok _ =>
    match Request.ofArgs? t.op t.args with
    | some (.storageStore key value) => do
      let k ← t.memory.readVector? 32 key
      let v ← t.memory.readVector? 32 value
      return (k, v)
    | _ => none
  | .error _ => none

/-- What was stored, oldest first. -/
def stores (history : List (Turn × Answer)) : List (Word × Word) :=
  history.filterMap fun (t, answer) => t.stored? answer

/-- The map `σ` after the stores. -/
def contents (σ : Word → Word) (stores : List (Word × Word)) : Word → Word :=
  stores.foldl (fun σ s k => if k = s.1 then s.2 else σ k) σ

/-- The map that the nodes hold below the account of `callee`. -/
def slotWords (callee : Path) (nodes : NodeMap) (k : Word) : Word := .ofEntry (nodes.get? (callee.slot k))

theorem Turn.stored?_eq_some_iff {t : Turn} {answer : Answer} {k v : Word} :
    t.stored? answer = some (k, v) ↔ ∃ a key value, answer = .ok a ∧
      Request.ofArgs? t.op t.args = some (.storageStore key value) ∧
      t.memory.readVector? 32 key = some k ∧ t.memory.readVector? 32 value = some v := by
  cases answer with
  | error e => simp [stored?]
  | ok a =>
    cases hr : Request.ofArgs? t.op t.args with
    | none => simp [stored?, hr]
    | some r =>
      cases r with
      | storageStore key value =>
        simp only [stored?, hr, Option.bind_eq_bind, Option.bind_eq_some_iff, Option.pure_def, Option.some.injEq,
          Prod.mk.injEq, Request.storageStore.injEq]
        constructor
        · rintro ⟨_, hk, _, hv, rfl, rfl⟩
          exact ⟨a, key, value, rfl, ⟨rfl, rfl⟩, hk, hv⟩
        · rintro ⟨_, _, _, -, ⟨rfl, rfl⟩, hk, hv⟩
          exact ⟨k, hk, v, hv, rfl, rfl⟩
      | _ => simp [stored?, hr]

theorem contents_concat (σ : Word → Word) (stores : List (Word × Word)) (k v k' : Word) :
    contents σ (stores ++ [(k, v)]) k' = if k' = k then v else contents σ stores k' := by
  rw [contents, List.foldl_append]
  rfl

theorem contents_of_notMem (σ : Word → Word) {stores : List (Word × Word)} {k : Word}
    (h : k ∉ stores.map Prod.fst) : contents σ stores k = σ k := by
  induction stores generalizing σ with
  | nil => rfl
  | cons s stores ih =>
    rw [List.map_cons, List.mem_cons, not_or] at h
    have hrest := ih (fun k => if k = s.1 then s.2 else σ k) h.2
    exact hrest.trans (if_neg h.1)

/-! ### What follows the map -/

/-- The nodes hold what the stores have left of `initial` below the account of `callee`, and are as they were
elsewhere. -/
structure Follows (callee : Path) (initial : NodeMap) (stores : List (Word × Word)) (nodes : NodeMap) : Prop where
  stored : ∀ k ∈ stores.map Prod.fst,
    nodes.get? (callee.slot k) = (contents (slotWords callee initial) stores k).entry
  others : ∀ p, (∀ k ∈ stores.map Prod.fst, p ≠ callee.slot k) → nodes.get? p = initial.get? p

namespace Follows

variable {callee : Path} {initial nodes nodes' : NodeMap} {stores : List (Word × Word)}

theorem start (callee : Path) (initial : NodeMap) : Follows callee initial [] initial where
  stored := by simp
  others p _ := rfl

theorem slotWords_eq (h : Follows callee initial stores nodes) (k : Word) :
    slotWords callee nodes k = contents (slotWords callee initial) stores k := by
  by_cases hk : k ∈ stores.map Prod.fst
  · rw [slotWords, h.stored k hk, Word.ofEntry_entry]
  · have hother : ∀ k' ∈ stores.map Prod.fst, callee.slot k ≠ callee.slot k' := by
      intro k' hk' heq
      rw [callee.slot_injective heq] at hk
      exact hk hk'
    rw [contents_of_notMem _ hk, slotWords, h.others _ hother, slotWords]

theorem store {k v : Word} (h : Follows callee initial stores nodes)
    (hnodes : ∀ p, nodes'.get? p = if p = callee.slot k then v.entry else nodes.get? p) :
    Follows callee initial (stores ++ [(k, v)]) nodes' where
  stored k' hk' := by
    rw [hnodes, contents_concat]
    by_cases hkey : k' = k
    · rw [if_pos (by rw [hkey]), if_pos hkey]
    · have hold : k' ∈ stores.map Prod.fst := by simpa [hkey] using hk'
      rw [if_neg fun heq => hkey (callee.slot_injective heq), if_neg hkey, h.stored k' hold]
  others p hp := by
    rw [hnodes, if_neg (hp k (by simp))]
    exact h.others p fun k' hk' => hp k' (by simp only [List.map_append, List.mem_append, hk', true_or])

end Follows

namespace Host

variable {κ : Type} [Kernel κ] {m : Message} {f g : Frame NodeTree κ} {t : Turn}

/-! ### Turns that do not store -/

theorem nodes_carry {e : Effect} (w : NodeTree × κ) (h : e.isWrite = false) : (e.carry w).1.nodes = w.1.nodes := by
  cases e with
  | get _ | hash _ | send _ => rfl
  | set _ _ | delete _ => cases h

theorem nodes_of_asked {pays : Prop} {P : Effect → Prop} {n : Nat} (h : f.Asked pays P n g) :
    g.tree.nodes = f.tree.nodes := by
  obtain ⟨l, -, hl, -, hworld⟩ := h.asked
  have hfold (w : NodeTree × κ) : (l.foldl Effect.carry w).1.nodes = w.1.nodes := by
    clear hworld
    induction l generalizing w with
    | nil => rfl
    | cons e l ih =>
      have hrest := ih (fun e he => hl e (List.mem_cons_of_mem _ he)) (e.carry w)
      exact hrest.trans (nodes_carry w (hl e (List.mem_cons_self ..)).2)
  have htree : g.tree = (l.foldl Effect.carry f.world).1 := congrArg Prod.fst hworld
  rw [htree, hfold]
  rfl

omit [Kernel κ] in
/-- A tree in memory refuses nothing. -/
theorem run_ne_internal {c : Commit} (halters : c.Alters) (f : Frame NodeTree κ) (text : String) :
    c.run f ≠ .error (.internal text) g := by
  intro h
  cases c with
  | put p value =>
    have hput : put p value f = .ok () _ := put_of_ok rfl
    cases hput.symm.trans h
  | remove p =>
    have hremove : remove p f = .ok () _ := remove_of_ok rfl
    cases hremove.symm.trans h
  | clear p =>
    have hremove : remove p { f with meter := f.meter.refund Gas.slotClearing } = .ok () _ := remove_of_ok rfl
    cases ((refund_bind ..).trans hremove).symm.trans h
  | write _ _ | fill _ _ _ | log _ | halt _ | destroy _ => cases halters

theorem turn_ne_internal (m : Message) (f : Frame NodeTree κ) (t : Turn) (text : String) :
    (turn m f t).1 ≠ .error (.internal text) := by
  intro h
  rw [turn_fst_eq_error_iff] at h
  by_cases hrun : f.progress.status = .running
  · cases hr : Request.ofArgs? t.op t.args with
    | none =>
      rw [failure?_error (invoke_of_arity (f := { f with memory := t.memory }) hrun hr)] at h
      cases h
    | some r =>
      obtain ⟨k, -, hend, -⟩ := invoke_ending (m := m) (f := { f with memory := t.memory }) hrun hr
      cases hend with
      | done a h' | commit c a k' _ _ h' _ =>
        rw [failure?_ok h'] at h
        cases h
      | trap why h' _ =>
        rw [failure?_error h'] at h
        cases h
      | refuse c text' k' _ halters hrefused _ _ => exact run_ne_internal halters k text' hrefused
  · rw [failure?_error (invoke_of_terminal (f := { f with memory := t.memory }) hrun)] at h
    cases h

theorem nodes_of_not_stored (h : t.stored? (turn m f t).1 = none) : (turn m f t).2.tree.nodes = f.tree.nodes := by
  rw [turn_snd]
  rcases invoke_cases m t.op t.args { f with memory := t.memory } with ⟨e, hinvoke⟩ | ⟨hrun, r, hr⟩
  · rw [after_error hinvoke]
  · obtain ⟨k, hasked, hend, -⟩ := invoke_ending (m := m) hrun hr
    have hnodes : k.tree.nodes = f.tree.nodes := by rw [nodes_of_asked hasked]
    cases hend with
    | done a h' =>
      rw [after_ok h']
      exact hnodes
    | trap why h' _ =>
      rw [after_error h']
      exact hnodes
    | refuse c text k' _ halters hrun' _ _ => exact absurd hrun' (run_ne_internal halters k text)
    | commit c a k' hc _ h' hspared =>
      -- Only a store alters the tree, and this one was carried out, so the turn would have stored.
      rw [after_ok h']
      rcases hspared.tree with halters | htree
      · obtain ⟨key, value, kw, v, rfl, hk, hv⟩ := Request.eq_store_of_alters hc halters
        have hanswer : (turn m f t).1 = .ok a := by rw [turn_of_ok h']
        rw [Turn.stored?_eq_some_iff.2 ⟨a, key, value, hanswer, hr, hk, hv⟩] at h
        cases h
      · rw [htree]
        exact hnodes

/-! ### Turns that store or load -/

omit [Kernel κ] in
theorem nodes_applyWrite {callee : Path} {k v : Word} {write : SlotWrite} {a : Unit}
    (h : applyWrite callee k v write f = .ok a g) (hwrite : v = Word.zero ↔ write = .clear ∨ write = .noop)
    (p : Path) :
    g.tree.nodes.get? p = if p = callee.slot k then v.entry else f.tree.nodes.get? p := by
  cases write with
  | create | update =>
    have hv : v ≠ Word.zero := by simp [hwrite]
    cases h
    rw [Word.entry, if_neg hv]
    exact NodeMap.get?_insert ..
  | clear | noop =>
    have hv : v = Word.zero := by simp [hwrite]
    cases h
    rw [Word.entry, if_pos hv]
    exact NodeMap.get?_erase ..

omit [Kernel κ] in
theorem nodes_storeSlot {callee : Path} {k v : Word} {a : Unit} (h : storeSlot callee k v f = .ok a g) (p : Path) :
    g.tree.nodes.get? p = if p = callee.slot k then v.entry else f.tree.nodes.get? p := by
  rw [storeSlot, bind_ok (lookupSlot_eq callee k f)] at h
  obtain ⟨_, f', hsettle, happly⟩ := of_bind_ok h
  have hwrite := classify_slot (Tree.get f.tree (callee.slot k)).1 v
  rw [nodes_applyWrite happly ?_ p, tree_settle hsettle]
  · rfl
  · rw [hwrite]
    by_cases hv : v = Word.zero <;> by_cases hu : SlotInUse (Tree.get f.tree (callee.slot k)).1 <;> simp [hv, hu]

theorem nodes_of_stored {k v : Word} (h : t.stored? (turn m f t).1 = some (k, v)) (p : Path) :
    (turn m f t).2.tree.nodes.get? p = if p = m.callee.slot k then v.entry else f.tree.nodes.get? p := by
  obtain ⟨a, key, value, hanswer, hr, hk, hv⟩ := Turn.stored?_eq_some_iff.1 h
  obtain ⟨r, hr', hserve⟩ := of_invoke_ok (of_turn_ok hanswer)
  obtain rfl : .storageStore key value = r := Option.some.inj (hr.symm.trans hr')
  rw [serve_store hk hv] at hserve
  obtain ⟨_, g', hstore, hsilent⟩ := of_bind_ok hserve
  cases hsilent
  rw [nodes_storeSlot hstore p]
  rfl

theorem value_slot_get (tree : NodeTree) (p : Path) :
    (Reading.slot (Tree.get tree p).1).value = Word.ofEntry (tree.nodes.get? p) := by
  change (Reading.slot (tree.read p).1).value = _
  rw [NodeTree.read]
  cases tree.nodes.get? p with
  | none => rfl
  | some b =>
    rw [Word.ofEntry, Option.bind_some]
    cases hb : Bytes.toVector? 32 b <;> simp [Reading.slot, Reading.ofAnswer, Reading.value, hb]

theorem memory_of_load {key result : UInt32} {a : Option UInt64} (hanswer : (turn m f t).1 = .ok a)
    (hr : Request.ofArgs? t.op t.args = some (.storageLoad key result)) :
    ∃ k, t.memory.readVector? 32 key = some k ∧
      t.memory.Overlaid result.toNat (slotWords m.callee f.tree.nodes k).toList (turn m f t).2.memory := by
  obtain ⟨r, hr', hserve⟩ := of_invoke_ok (of_turn_ok hanswer)
  obtain rfl : .storageLoad key result = r := Option.some.inj (hr.symm.trans hr')
  obtain ⟨_, g', hload, hsilent⟩ := of_bind_ok hserve
  cases hsilent
  obtain ⟨k, f', hkey, hload⟩ := of_bind_ok hload
  obtain ⟨hk, rfl⟩ := of_view_ok hkey
  rw [bind_ok (lookupSlot_eq ..)] at hload
  have hwrite := of_edit_ok hload
  rw [value_slot_get] at hwrite
  exact ⟨k, hk, .of_write? hwrite⟩

/-! ### Runs -/

theorem follows_turn {initial : NodeMap} {earlier : List (Word × Word)}
    (h : Follows m.callee initial earlier f.tree.nodes) (t : Turn) :
    Follows m.callee initial (earlier ++ stores [(t, (turn m f t).1)]) (turn m f t).2.tree.nodes := by
  cases hstored : t.stored? (turn m f t).1 with
  | none =>
    have hstores : stores [(t, (turn m f t).1)] = [] := by simp [stores, hstored]
    rw [hstores, List.append_nil, nodes_of_not_stored hstored]
    exact h
  | some s =>
    have hstores : stores [(t, (turn m f t).1)] = [s] := by simp [stores, hstored]
    rw [hstores]
    exact h.store (nodes_of_stored hstored)

theorem follows_play {initial : NodeMap} {earlier : List (Word × Word)} (turns : List Turn)
    (h : Follows m.callee initial earlier f.tree.nodes) :
    Follows m.callee initial (earlier ++ stores (play m f turns).1) (play m f turns).2.tree.nodes := by
  induction turns generalizing f earlier with
  | nil =>
    rw [show stores (play m f []).1 = [] from rfl, List.append_nil]
    exact h
  | cons t turns ih =>
    -- What this turn stored comes before what the others store.
    have hrest := ih (follows_turn h t)
    have hstores : stores (play m f (t :: turns)).1 =
        stores [(t, (turn m f t).1)] ++ stores (play m (turn m f t).2 turns).1 := by
      rw [stores, stores, stores, ← List.filterMap_append]
      rfl
    rw [hstores, ← List.append_assoc]
    exact hrest

/-- After any run on a tree in memory, the storage of the contract is the map that was there in the beginning, with the
stores of the run written over it. -/
theorem storage_map (m : Message) (tree : NodeTree) (kernel : κ) (memory : Memory) (turns : List Turn) :
    let run := play m (.start m tree kernel memory) turns
    let stored := stores run.1
    let σ := contents (slotWords m.callee tree.nodes) stored
    (∀ t key result a, Request.ofArgs? t.op t.args = some (.storageLoad key result) →
      (turn m run.2 t).1 = .ok a →
      ∃ k, t.memory.readVector? 32 key = some k ∧
        t.memory.Overlaid result.toNat (σ k).toList (turn m run.2 t).2.memory) ∧
    (∀ k ∈ stored.map Prod.fst, run.2.tree.nodes.get? (m.callee.slot k) = (σ k).entry) ∧
    (∀ p, (∀ k ∈ stored.map Prod.fst, p ≠ m.callee.slot k) → run.2.tree.nodes.get? p = tree.nodes.get? p) ∧
    ∀ k k', m.callee.slot k = m.callee.slot k' → k = k' := by
  intro run stored σ
  have hstart : Follows m.callee tree.nodes [] (Frame.start m tree kernel memory).tree.nodes := .start ..
  have hfollows : Follows m.callee tree.nodes stored run.2.tree.nodes := follows_play turns hstart
  refine ⟨fun t key result a hr hanswer => ?_, hfollows.stored, hfollows.others,
    fun k k' => m.callee.slot_injective⟩
  obtain ⟨k, hk, hwrite⟩ := memory_of_load hanswer hr
  rw [hfollows.slotWords_eq] at hwrite
  exact ⟨k, hk, hwrite⟩

/-- A word that was stored is loaded again. -/
example :
    let m : Message := { callee := .root, sender := .root, origin := .root, gas := 20050 }
    let M : Memory := .ofBytes (List.replicate 32 0 ++ List.replicate 32 7 ++ List.replicate 32 1)
    let turns : List Turn := [⟨M, .storageStore, [0, 32]⟩, ⟨M, .storageLoad, [0, 64]⟩]
    (play m (.start m ({} : NodeTree) ({} : Script) M) turns).2.memory.read? 64 32 =
      some (List.replicate 32 7) := by
  decide +kernel

end Host

end ContractHost
