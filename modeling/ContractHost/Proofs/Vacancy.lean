import ContractHost.Proofs.Twins

/-!
# Vacant entries

An entry of the state tree is vacant if it is as good as none: a balance that is not there, is too long or comes to
zero, code that is not there or empty, a slot that is not in use, and each of these if it cannot be read.  On trees
that accept writes (`WritableTree`) a contract never finds out what a vacant entry holds (`vacancy_unnoticed`): the
look-ups give the same for all of them, the price of a store is the same, and whatever is written is there from then
on.  So trees that differ in vacant entries only remain so through every run (`Interchangeable`).
-/

namespace ContractHost

/-! ### Trees that accept writes -/

/-- A tree that accepts writes: what is written at a path is read there from then on, and nowhere else.  Apart from
that it may answer as it likes, and not always in the same way. -/
class WritableTree (τ : Type) [Tree τ] where
  /-- What the tree will answer about the value at a path when it has been asked the given questions before, the
  oldest first, and nothing is written there. -/
  value : τ → List Effect → Path → Except TreeError Bytes
  /-- What it will answer about the hash of a path, if nothing is written there or below. -/
  digest : τ → List Effect → Path → Except TreeError Word
  get_answer (t : τ) (p : Path) : (Tree.get t p).1 = value t [] p
  value_get (t : τ) (p : Path) (asked : List Effect) : value (Tree.get t p).2 asked = value t (.get p :: asked)
  digest_get (t : τ) (p : Path) (asked : List Effect) : digest (Tree.get t p).2 asked = digest t (.get p :: asked)
  hash_answer (t : τ) (p : Path) : (Tree.hash t p).1 = digest t [] p
  value_hash (t : τ) (p : Path) (asked : List Effect) : value (Tree.hash t p).2 asked = value t (.hash p :: asked)
  digest_hash (t : τ) (p : Path) (asked : List Effect) : digest (Tree.hash t p).2 asked = digest t (.hash p :: asked)
  set_answer (t : τ) (p : Path) (v : Bytes) : (Tree.set t p v).1 = .ok ()
  value_set (t : τ) (p : Path) (v : Bytes) (asked : List Effect) (q : Path) :
    value (Tree.set t p v).2 asked q = if q = p then .ok v else value t asked q
  digest_set (t : τ) (p : Path) (v : Bytes) (asked : List Effect) {q : Path} (h : ¬ q.segments <+: p.segments) :
    digest (Tree.set t p v).2 asked q = digest t asked q
  delete_answer (t : τ) (p : Path) : (Tree.delete t p).1 = .ok ()
  value_delete (t : τ) (p : Path) (asked : List Effect) (q : Path) :
    value (Tree.delete t p).2 asked q = if q = p then .error (.notFound p) else value t asked q
  digest_delete (t : τ) (p : Path) (asked : List Effect) {q : Path} (h : ¬ q.segments <+: p.segments) :
    digest (Tree.delete t p).2 asked q = digest t asked q

/-- The tree in memory always answers in the same way. -/
instance : WritableTree NodeTree where
  value t _ p := (t.read p).1
  digest t _ p := (t.read p).1.map Blake3.digest
  get_answer _ _ := rfl
  value_get _ _ _ := rfl
  digest_get _ _ _ := rfl
  hash_answer _ _ := rfl
  value_hash _ _ _ := rfl
  digest_hash _ _ _ := rfl
  set_answer _ _ _ := rfl
  value_set t p v _ q := by
    simp only [Tree.set, NodeTree.read, NodeMap.get?_insert]
    by_cases hq : q = p
    · simp only [if_pos hq]
    · simp only [if_neg hq]
  digest_set t p v _ q h := by
    have hne : q ≠ p := fun hq => h (hq ▸ List.prefix_rfl)
    simp only [Tree.set, NodeTree.read, NodeMap.get?_insert, if_neg hne]
  delete_answer _ _ := rfl
  value_delete t p _ q := by
    simp only [Tree.delete, NodeTree.read, NodeMap.get?_erase]
    by_cases hq : q = p
    · simp only [if_pos hq]
      rw [hq]
    · simp only [if_neg hq]
  digest_delete t p _ q h := by
    have hne : q ≠ p := fun hq => h (hq ▸ List.prefix_rfl)
    simp only [Tree.delete, NodeTree.read, NodeMap.get?_erase, if_neg hne]

/-- A tree that answers whatever is laid down for it, until something else is written. -/
structure Foretold where
  value : List Effect → Path → Except TreeError Bytes
  digest : List Effect → Path → Except TreeError Word

namespace Foretold

/-- The tree once it has been asked the question. -/
def past (e : Effect) (t : Foretold) : Foretold :=
  ⟨fun asked => t.value (e :: asked), fun asked => t.digest (e :: asked)⟩

/-- The tree with another answer about the value at `p`. -/
def amend (p : Path) (answer : Except TreeError Bytes) (t : Foretold) : Foretold :=
  { t with value := fun asked q => if q = p then answer else t.value asked q }

instance : Tree Foretold where
  get t p := (t.value [] p, t.past (.get p))
  hash t p := (t.digest [] p, t.past (.hash p))
  set t p v := (.ok (), t.amend p (.ok v))
  delete t p := (.ok (), t.amend p (.error (.notFound p)))

instance : WritableTree Foretold where
  value := value
  digest := digest
  get_answer _ _ := rfl
  value_get _ _ _ := rfl
  digest_get _ _ _ := rfl
  hash_answer _ _ := rfl
  value_hash _ _ _ := rfl
  digest_hash _ _ _ := rfl
  set_answer _ _ _ := rfl
  value_set _ _ _ _ _ := rfl
  digest_set _ _ _ _ _ _ := rfl
  delete_answer _ _ := rfl
  value_delete _ _ _ _ := rfl
  digest_delete _ _ _ _ _ := rfl

end Foretold

/-! ### Entries that are as good as none -/

/-- Whether the answer of the state tree shows no balance. -/
def NoBalance : Except TreeError Bytes → Prop
  | .ok b => 16 < b.length ∨ b.isZero = true
  | .error _ => True

/-- Whether the answer of the state tree shows no code. -/
def NoCode : Except TreeError Bytes → Prop
  | .ok b => b = []
  | .error _ => True

/-- Whether the answer about `p` shows a vacant entry: a balance or code of any account, or a slot of the account of
`a`. -/
def Vacant (a : Address) (p : Path) (answer : Except TreeError Bytes) : Prop :=
  (∃ t : Address, p = .ofKeys ["accounts", t.key, "balance"] ∧ NoBalance answer) ∨
    (∃ t : Address, p = .ofKeys ["accounts", t.key, "code"] ∧ NoCode answer) ∨
    p.IsSlotOf a ∧ ¬ SlotInUse answer

theorem Bytes.toNat_of_isZero {b : Bytes} (h : b.isZero = true) : b.toNat = 0 := by
  induction b with
  | nil => rfl
  | cons d r ih =>
    simp only [isZero, List.all_cons, Bool.and_eq_true, beq_iff_eq] at h
    obtain ⟨rfl, hr⟩ := h
    exact ih hr

theorem value_balance_of_noBalance {answer : Except TreeError Bytes} (h : NoBalance answer) :
    (Reading.balance answer).value = 0 := by
  cases answer with
  | error e => rfl
  | ok b =>
    rcases Nat.lt_or_ge 16 b.length with hlong | hshort
    · have hnone : Amount.ofBytes? b = none := if_neg (by omega)
      simp only [Reading.balance, Reading.ofAnswer, hnone, Reading.value]
    · have hzero : b.isZero = true := h.resolve_left (by omega)
      have hsome : Amount.ofBytes? b = some 0 := by
        rw [Amount.ofBytes?, if_pos hshort, Bytes.toNat_of_isZero hzero]
        rfl
      simp only [Reading.balance, Reading.ofAnswer, hsome, Reading.value]

theorem value_code_of_noCode {answer : Except TreeError Bytes} (h : NoCode answer) :
    (Reading.code answer).value = [] := by
  cases answer with
  | error e => rfl
  | ok b => exact h

theorem value_slot_of_not_slotInUse {answer : Except TreeError Bytes} (h : ¬ SlotInUse answer) :
    (Reading.slot answer).value = Word.zero := by
  rw [slotInUse_iff_value_ne] at h
  exact Decidable.not_not.1 h

namespace Vacant

variable {a t : Address} {k : Word} {answer : Except TreeError Bytes}

theorem value_balance (h : Vacant a (.ofKeys ["accounts", t.key, "balance"]) answer) :
    (Reading.balance answer).value = 0 := by
  rcases h with ⟨_, -, h⟩ | ⟨_, hp, -⟩ | ⟨hp, -⟩
  · exact value_balance_of_noBalance h
  · exact absurd (Path.ofKeys_injective hp) (by simp)
  · exact absurd hp (Path.not_isSlotOf_ofKeys (by simp))

theorem value_code (h : Vacant a (.ofKeys ["accounts", t.key, "code"]) answer) :
    (Reading.code answer).value = [] := by
  rcases h with ⟨_, hp, -⟩ | ⟨_, -, h⟩ | ⟨hp, -⟩
  · exact absurd (Path.ofKeys_injective hp) (by simp)
  · exact value_code_of_noCode h
  · exact absurd hp (Path.not_isSlotOf_ofKeys (by simp))

theorem not_slotInUse (h : Vacant a (.ofKeys ["accounts", a.key, "storage", k.key]) answer) :
    ¬ SlotInUse answer := by
  rcases h with ⟨_, hp, -⟩ | ⟨_, hp, -⟩ | ⟨-, h⟩
  · exact absurd (Path.ofKeys_injective hp) (by simp)
  · exact absurd (Path.ofKeys_injective hp) (by simp)
  · exact h

end Vacant

/-! ### Trees that differ in vacant entries -/

/-- The trees answer the same about every path for which they do not both show a vacant entry, whatever they are asked
before, and the same about the hashes of blocks.  The hashes of nodes above the entries may well differ. -/
structure Interchangeable {τ : Type} [Tree τ] [WritableTree τ] (a : Address) (s t : τ) : Prop where
  value (asked : List Effect) (p : Path) : WritableTree.value s asked p = WritableTree.value t asked p ∨
    Vacant a p (WritableTree.value s asked p) ∧ Vacant a p (WritableTree.value t asked p)
  digest (asked : List Effect) (name : String) : WritableTree.digest s asked (.ofKeys ["blockchain", name]) =
    WritableTree.digest t asked (.ofKeys ["blockchain", name])

variable {τ κ : Type} [Tree τ] [WritableTree τ] {a : Address}

namespace Interchangeable

open WritableTree

variable {s t : τ} {p : Path}

theorem get (h : Interchangeable a s t) (p : Path) : Interchangeable a (Tree.get s p).2 (Tree.get t p).2 where
  value asked q := by
    rw [value_get, value_get]
    exact h.value (.get p :: asked) q
  digest asked name := by
    rw [digest_get, digest_get]
    exact h.digest (.get p :: asked) name

theorem hash (h : Interchangeable a s t) (p : Path) : Interchangeable a (Tree.hash s p).2 (Tree.hash t p).2 where
  value asked q := by
    rw [value_hash, value_hash]
    exact h.value (.hash p :: asked) q
  digest asked name := by
    rw [digest_hash, digest_hash]
    exact h.digest (.hash p :: asked) name

/-- No block lies above a slot. -/
theorem not_prefix_of_isSlotOf (hp : p.IsSlotOf a) (name : String) :
    ¬ (Path.ofKeys ["blockchain", name]).segments <+: p.segments := by
  obtain ⟨k, rfl⟩ := hp
  simp [Path.ofKeys, List.cons_prefix_cons]

theorem set (h : Interchangeable a s t) (hp : p.IsSlotOf a) (v : Bytes) :
    Interchangeable a (Tree.set s p v).2 (Tree.set t p v).2 where
  value asked q := by
    rw [value_set, value_set]
    split
    · exact .inl rfl
    · exact h.value asked q
  digest asked name := by
    have hprefix := not_prefix_of_isSlotOf hp name
    rw [digest_set s p v asked hprefix, digest_set t p v asked hprefix]
    exact h.digest asked name

theorem delete (h : Interchangeable a s t) (hp : p.IsSlotOf a) :
    Interchangeable a (Tree.delete s p).2 (Tree.delete t p).2 where
  value asked q := by
    rw [value_delete, value_delete]
    split
    · exact .inl rfl
    · exact h.value asked q
  digest asked name := by
    have hprefix := not_prefix_of_isSlotOf hp name
    rw [digest_delete s p asked hprefix, digest_delete t p asked hprefix]
    exact h.digest asked name

end Interchangeable

open WritableTree in
/-- Only what is read out of entries can tell the trees apart. -/
theorem Effect.Within.blind_of_ne_get {e : Effect} (h : e.Within a) (hget : ∀ p, e ≠ .get p) :
    e.Blind (Interchangeable (τ := τ) a) := by
  cases e with
  | get p => exact absurd rfl (hget p)
  | hash p =>
    obtain ⟨n, rfl⟩ := h
    intro s t hst
    rw [hash_answer, hash_answer]
    exact ⟨hst.digest [] (toString n), hst.hash _⟩
  | set p v =>
    intro s t hst
    rw [set_answer, set_answer]
    exact ⟨rfl, hst.set h v⟩
  | delete p =>
    intro s t hst
    rw [delete_answer, delete_answer]
    exact ⟨rfl, hst.delete h⟩
  | send _ => trivial

namespace Host

variable {α β : Type} {p self : Path} {x : Host τ κ α} {k : α → Host τ κ β}

/-! ### Steps that are indifferent to vacant entries -/

/-- `x` does the same, whatever vacant entries hold. -/
def Indifferent (a : Address) (x : Host τ κ α) : Prop :=
  ∀ f g, f.Twins (Interchangeable a) g → Alike (Interchangeable a) (x f) (x g)

namespace Indifferent

protected theorem pure (b : α) : Indifferent a (pure b : Host τ κ α) := fun _ _ hfg => .ok b hfg

protected theorem bind (hx : Indifferent a x) (hk : ∀ b, Indifferent a (k b)) : Indifferent a (x >>= k) :=
  fun f g hfg => (hx f g hfg).bind fun b f' g' _ htwins => hk b f' g' htwins

theorem charge (amount : UInt64) : Indifferent a (charge amount : Host τ κ Unit) := fun _ _ hfg => alike_charge amount hfg

theorem refund (amount : UInt64) : Indifferent a (refund amount : Host τ κ Unit) := fun _ _ hfg => alike_refund amount hfg

theorem view (read : Memory → Option α) : Indifferent a (view read : Host τ κ α) := fun _ _ hfg => alike_view read hfg

theorem edit (write : Memory → Option Memory) : Indifferent a (edit write : Host τ κ Unit) :=
  fun _ _ hfg => alike_edit write hfg

theorem silently {x : Host τ κ Unit} (hx : Indifferent a x) : Indifferent a (silently x) := hx.bind fun _ => .pure none

end Indifferent

/-! ### Looking up -/

/-- Whatever follows a look-up must make the same of every vacant entry. -/
theorem indifferent_lookup {decode : Except TreeError Bytes → Reading α} {k : Reading α → Host τ κ β}
    (hsame : ∀ x y, Vacant a p x → Vacant a p y → k (decode x) = k (decode y)) (hk : ∀ r, Indifferent a (k r)) :
    Indifferent a ((do return decode (← fetch p)) >>= k) := by
  rintro f g ⟨tree, hst, rfl⟩
  have hanswer : k (decode (Tree.get f.tree p).1) = k (decode (Tree.get tree p).1) := by
    rcases hst.value [] p with hvalue | ⟨hx, hy⟩
    · rw [WritableTree.get_answer, WritableTree.get_answer, hvalue]
    · rw [← WritableTree.get_answer] at hx hy
      exact hsame _ _ hx hy
  have hlookup (h : Frame τ κ) : ((do return decode (← fetch p)) >>= k) h = k (decode (Tree.get h.tree p).1) { h with
      tree := (Tree.get h.tree p).2, effects := h.effects.push (.get p) } := rfl
  rw [hlookup, hlookup, hanswer]
  exact hk _ _ _ ⟨_, hst.get p, rfl⟩

theorem indifferent_lookupBalance {target : Address} {k : Reading Amount → Host τ κ β}
    (hself : self = .ofKeys ["accounts", a.key, "code"]) (hvalue : ∀ r r', r.value = r'.value → k r = k r')
    (hk : ∀ r, Indifferent a (k r)) : Indifferent a (lookupBalance self target >>= k) := by
  subst hself
  refine indifferent_lookup (fun x y hx hy => hvalue _ _ ?_) hk
  rw [hx.value_balance, hy.value_balance]

theorem indifferent_lookupOwnCode {t : Address} {k : Reading Bytes → Host τ κ β}
    (hp : p = .ofKeys ["accounts", t.key, "code"]) (hvalue : ∀ r r', r.value = r'.value → k r = k r')
    (hk : ∀ r, Indifferent a (k r)) : Indifferent a (lookupOwnCode p >>= k) := by
  subst hp
  refine indifferent_lookup (fun x y hx hy => hvalue _ _ ?_) hk
  rw [hx.value_code, hy.value_code]

theorem indifferent_lookupSlot {key : Word} {k : Reading Word → Host τ κ β}
    (hself : self = .ofKeys ["accounts", a.key, "code"])
    (hsame : ∀ x y, ¬ SlotInUse x → ¬ SlotInUse y → k (.slot x) = k (.slot y)) (hk : ∀ r, Indifferent a (k r)) :
    Indifferent a (lookupSlot self key >>= k) := by
  have hslot : self.slot key = .ofKeys ["accounts", a.key, "storage", key.key] := by rw [hself, Path.slot_code]
  refine indifferent_lookup (fun x y hx hy => ?_) hk
  rw [hslot] at hx hy
  exact hsame x y hx.not_slotInUse hy.not_slotInUse

/-! ### Storing -/

theorem indifferent_settle (write : SlotWrite) : Indifferent a (settle write : Host τ κ Unit) := by
  cases write with
  | create => exact .charge _
  | clear => exact .refund _
  | update | noop => exact .pure ()

theorem indifferent_applyWrite {key : Word} (hslot : (self.slot key).IsSlotOf a) (value : Word) (write : SlotWrite) :
    Indifferent a (applyWrite self key value write : Host τ κ Unit) := by
  intro f g hfg
  have hset : (Effect.set (self.slot key) value.toList).Within a := hslot
  have hdelete : (Effect.delete (self.slot key)).Within a := hslot
  cases write with
  | create | update => exact alike_put (hset.blind_of_ne_get (by simp)) hfg
  | clear | noop => exact alike_remove (hdelete.blind_of_ne_get (by simp)) hfg

/-- Storing into a vacant slot costs the same, whatever the slot held. -/
theorem indifferent_storeSlot (hself : self = .ofKeys ["accounts", a.key, "code"]) (key value : Word) :
    Indifferent a (storeSlot self key value : Host τ κ Unit) := by
  have hslot : (self.slot key).IsSlotOf a := by
    rw [hself, Path.slot_code]
    exact ⟨key, rfl⟩
  refine indifferent_lookupSlot hself (fun x y hx hy => ?_) fun r => ?_
  · simp only [classify_slot, if_neg hx, if_neg hy]
  · exact .bind (indifferent_settle _) fun _ => indifferent_applyWrite hslot value _

/-! ### Requests -/

theorem indifferent_copyWindow {t : Address} {result offset length : UInt32}
    (hp : p = .ofKeys ["accounts", t.key, "code"]) :
    Indifferent a (copyWindow (Reading.value <$> lookupOwnCode p) result offset length : Host τ κ Unit) := by
  unfold copyWindow
  by_cases hlength : length ≠ 0
  · rw [if_pos hlength, bind_map_left]
    exact indifferent_lookupOwnCode hp (fun r r' h => by rw [h]) fun _ => .edit _
  · rw [if_neg hlength]
    exact .pure ()

theorem indifferent_callCode (hself : self = .ofKeys ["accounts", a.key, "code"]) (c : SubCall) :
    Indifferent a (callCode self c : Host τ κ Verdict) := by
  have hcode : Path.codeOf (self.sibling c.target) = .ofKeys ["accounts", c.target.key, "code"] := by
    rw [hself, Path.sibling_code]
    rfl
  have hlookup : Indifferent a (discard (lookupCode self c.target) : Host τ κ Unit) :=
    indifferent_lookupOwnCode hcode (fun _ _ _ => rfl) fun _ => .pure ()
  unfold callCode
  by_cases hvalue : c.value ≠ 0
  · rw [if_pos hvalue]
    exact .bind (.charge _) fun _ => .bind hlookup fun _ => .pure _
  · rw [if_neg hvalue]
    exact .bind hlookup fun _ => .pure _

variable [Kernel κ] {m : Message}

/-- What looks entries up does not tell vacant ones apart, and all else looks none up. -/
theorem indifferent_serve (hcallee : m.callee = .ofKeys ["accounts", a.key, "code"]) (r : Request) :
    Indifferent a (serve m r : Host τ κ (Option UInt64)) := by
  have hblind (hget : ∀ M p, ¬ r.Asks m M (.get p)) : Indifferent a (serve m r : Host τ κ (Option UInt64)) := by
    intro f g hfg
    refine (transacts_serve m f.memory r).alike (fun e he => ?_) (fun c hc e he => ?_) rfl hfg
    · exact (Request.within_of_asks hcallee he).blind_of_ne_get fun p hp => hget f.memory p (hp ▸ he)
    · refine (Request.within_of_commits hcallee hc e he).blind_of_ne_get fun p hp => ?_
      subst hp
      cases c <;> simp [Commit.effects] at he
  have hcode (t : Address) : Path.codeOf (m.callee.sibling t) = .ofKeys ["accounts", t.key, "code"] := by
    rw [hcallee, Path.sibling_code]
    rfl
  cases r with
  | getBalance address result =>
    exact .silently (.bind (.view _) fun target =>
      indifferent_lookupBalance hcallee (fun r r' h => by rw [h]) fun _ => .edit _)
  | getCodeSize => exact indifferent_lookupOwnCode hcallee (fun r r' h => by rw [h]) fun _ => .pure _
  | codeCopy result offset length => exact .silently (.bind (.charge _) fun _ => indifferent_copyWindow hcallee)
  | getExternalCodeSize address =>
    exact .bind (.view _) fun target =>
      indifferent_lookupOwnCode (hcode target) (fun r r' h => by rw [h]) fun _ => .pure _
  | externalCodeCopy address result offset length =>
    exact .silently (.bind (.charge _) fun _ => .bind (.view _) fun target => indifferent_copyWindow (hcode target))
  | callCode gas address value data length _ _ =>
    simp only [serve, readSubCall_eq]
    exact .bind (.view _) fun c => .bind (indifferent_callCode hcallee c) fun _ => .pure _
  | storageStore key value =>
    exact .silently (.bind (.view _) fun k => .bind (.view _) fun v => indifferent_storeSlot hcallee k v)
  | storageLoad key result =>
    refine .silently (.bind (.view _) fun k => indifferent_lookupSlot hcallee (fun x y hx hy => ?_) fun _ => .edit _)
    rw [value_slot_of_not_slotInUse hx, value_slot_of_not_slotInUse hy]
  | _ => exact hblind fun M p => by simp [Request.Asks]

/-- Trees that differ in vacant entries only: code in the account of `a` gets the same answers from both, at every
turn of any run, and leaves frames that are the same but for the trees, which again differ in vacant entries only. -/
theorem vacancy_unnoticed (hcallee : m.callee = .ofKeys ["accounts", a.key, "code"]) {s t : τ}
    (h : Interchangeable a s t) (kernel : κ) (memory : Memory) (plans : List Plan) :
    let left := perform m (.start m s kernel memory) plans
    let right := perform m (.start m t kernel memory) plans
    left.1 = right.1 ∧ left.2 = { right.2 with tree := left.2.tree } ∧ left.2.finish = right.2.finish ∧
      Interchangeable a left.2.tree right.2.tree := by
  intro left right
  have hturn (f g : Frame τ κ) (t : Turn) (hfg : f.Twins (Interchangeable a) g) :
      (turn m f t).1 = (turn m g t).1 ∧ (turn m f t).2.Twins (Interchangeable a) (turn m g t).2 :=
    twins_turn_of_invoke (fun _ _ _ htwins =>
      alike_invoke_of_serve (fun r f' g' _ => indifferent_serve hcallee r f' g') htwins) hfg
  have hstart : (Frame.start m s kernel memory).Twins (Interchangeable a) (.start m t kernel memory) := ⟨t, h, rfl⟩
  obtain ⟨hhistory, hlast⟩ := perform_twins hturn plans hstart
  exact ⟨hhistory, hlast.eq_with_tree, hlast.finish_eq, hlast.related⟩

private def settler : Message where
  callee := .accountField .zero "code"
  sender := .root
  origin := .root
  gas := 30000

/-- Zero in one slot, and nothing else. -/
private def zeroSlot : Foretold where
  value _ p := if p = settler.callee.slot (.replicate 32 1) then .ok (List.replicate 32 0) else .error (.notFound p)
  digest _ p := .error (.notFound p)

/-- The same, but the slot cannot be read when it is asked for first, and is empty later. -/
private def lostSlot : Foretold where
  value asked p :=
    if p = settler.callee.slot (.replicate 32 1) ∧ asked = [] then .error (.unavailable "down")
    else .error (.notFound p)
  digest _ p := .error (.notFound p)

/-- The slot is taken into use at the same price on both trees, and is read afterwards. -/
theorem vacancy_unnoticed_lost :
    let memory := Memory.ofBytes (List.replicate 64 1)
    let plans : List Plan := [fun M => ⟨M, .storageStore, [0, 32]⟩, fun M => ⟨M, .storageLoad, [0, 32]⟩]
    let left := perform settler (.start settler zeroSlot ({} : Script) memory) plans
    let right := perform settler (.start settler lostSlot ({} : Script) memory) plans
    left.1 = right.1 ∧ left.2.finish = right.2.finish ∧ right.1.map Prod.snd = [.ok none, .ok none] := by
  intro memory plans left right
  have hcallee : settler.callee = .ofKeys ["accounts", Address.zero.key, "code"] := rfl
  have hslot : settler.callee.slot (.replicate 32 1) =
      .ofKeys ["accounts", Address.zero.key, "storage", Word.key (.replicate 32 1)] := by
    rw [hcallee, Path.slot_code]
  have hrelated : Interchangeable .zero zeroSlot lostSlot := by
    refine ⟨fun asked p => ?_, fun _ _ => rfl⟩
    by_cases hp : p = settler.callee.slot (.replicate 32 1)
    · have hentry : p.IsSlotOf .zero := ⟨_, hp.trans hslot⟩
      have hzero : WritableTree.value zeroSlot asked p = .ok (List.replicate 32 0) := if_pos hp
      have hlost : ∃ e, WritableTree.value lostSlot asked p = .error e := by
        simp only [WritableTree.value, lostSlot]
        split <;> exact ⟨_, rfl⟩
      obtain ⟨e, hlost⟩ := hlost
      rw [hzero, hlost]
      exact .inr ⟨.inr (.inr ⟨hentry, by decide⟩), .inr (.inr ⟨hentry, id⟩)⟩
    · left
      simp [WritableTree.value, zeroSlot, lostSlot, hp]
  obtain ⟨hhistory, -, hfinish, -⟩ := vacancy_unnoticed hcallee hrelated ({} : Script) memory plans
  exact ⟨hhistory, hfinish, by decide +kernel⟩

end Host

end ContractHost
