import ContractHost.Path.Layout
import ContractHost.Proofs.Spelling

/-!
# Locations seen from the code of an account

Code at `accounts / <key> / code` finds everything from its own path: it goes two levels up to reach another account
(`Path.sibling_code`), and reads its own address off the path to reach its slots (`Path.slot_code`), since the address
that a key spells is read back from it (`Address.parse?_key`).

In any path it is the segment behind the first key `accounts` that spells the address, if there is such a segment and
it spells one, whatever else the path consists of.  The path of this account, spelled by the key in lower case, lies in
itself, and the path has no slots but those of the account (`Path.accounts_by_spelling`).
-/

namespace ContractHost

/-- The address that a segment spells. -/
def Segment.address? : Segment → Option Address
  | key name => Address.parse? name
  | root | parent => none

namespace Path

/-! ### The account that a path lies in -/

theorem addressIn_cons_of_ne {s : Segment} (h : s ≠ .key "accounts") (r : List Segment) :
    addressIn (s :: r) = addressIn r := by
  cases s with
  | root | parent => rfl
  | key name =>
    have hname : name ≠ "accounts" := fun hname => h (congrArg Segment.key hname)
    simp [addressIn, hname]

/-- What stands before the first key `accounts` does not matter. -/
theorem addressIn_append {before : List Segment} (h : .key "accounts" ∉ before) (r : List Segment) :
    addressIn (before ++ r) = addressIn r := by
  induction before with
  | nil => rfl
  | cons s before ih =>
    rw [List.mem_cons, not_or] at h
    rw [List.cons_append, addressIn_cons_of_ne (Ne.symm h.1), ih h.2]

theorem addressIn_accounts (s : Segment) (r : List Segment) : addressIn (.key "accounts" :: s :: r) = s.address? := by
  cases s <;> rfl

theorem address?_account (a : Address) : (account a).address? = some a :=
  (addressIn_accounts (.key a.key) []).trans a.parse?_key

/-- The account that a path lies in lies in itself. -/
theorem accountRoot?_account (a : Address) : (account a).accountRoot? = some (account a) := by
  rw [accountRoot?, address?_account, Option.map_some]

theorem slot_of_accountRoot? {p q : Path} (h : p.accountRoot? = some q) (k : Word) : p.slot k = slotOf q k := by
  rw [slot, h, Option.getD_some]

/-- Paths that lie in the same account have the same slots. -/
theorem slot_eq_of_accountRoot? {p q : Path} (h : p.accountRoot? = some q) :
    q.accountRoot? = some q ∧ ∀ k, p.slot k = q.slot k := by
  obtain ⟨a, -, rfl⟩ := Option.map_eq_some_iff.1 h
  have hroot := accountRoot?_account a
  exact ⟨hroot, fun k => (slot_of_accountRoot? h k).trans (slot_of_accountRoot? hroot k).symm⟩

theorem accountRoot?_code (a : Address) : (ofKeys ["accounts", a.key, "code"]).accountRoot? = some (account a) := by
  have haddress : (ofKeys ["accounts", a.key, "code"]).address? = Address.parse? a.key := rfl
  rw [accountRoot?, haddress, Address.parse?_key, Option.map_some]

/-- The slots of code lie below the account that the code lies in. -/
theorem slot_code (a : Address) (k : Word) :
    (ofKeys ["accounts", a.key, "code"]).slot k = .ofKeys ["accounts", a.key, "storage", k.key] := by
  rw [slot_of_accountRoot? (accountRoot?_code a)]
  rfl

/-- Two levels up and down again is the account of that name. -/
theorem sibling_code (a t : Address) : (ofKeys ["accounts", a.key, "code"]).sibling t = account t := rfl

/-- Whether the path is that of a slot of the account of `a`. -/
def IsSlotOf (p : Path) (a : Address) : Prop := ∃ k : Word, p = .ofKeys ["accounts", a.key, "storage", k.key]

theorem ofKeys_injective {names names' : List String} (h : ofKeys names = ofKeys names') : names = names' :=
  (List.map_inj_right fun _ _ => Segment.key.inj).1 (congrArg Path.segments h)

/-- Accounts have no slot in common. -/
theorem IsSlotOf.unique {p : Path} {a b : Address} (ha : p.IsSlotOf a) (hb : p.IsSlotOf b) : a = b := by
  obtain ⟨k, hk⟩ := ha
  obtain ⟨k', hk'⟩ := hb
  have hnames := ofKeys_injective (hk.symm.trans hk')
  simp only [List.cons.injEq] at hnames
  exact Address.key_injective hnames.2.1

/-- The path of a slot has four keys. -/
theorem not_isSlotOf_ofKeys {names : List String} {a : Address} (h : names.length ≠ 4) :
    ¬ (ofKeys names).IsSlotOf a := by
  rintro ⟨k, hk⟩
  have hnames := ofKeys_injective hk
  rw [hnames] at h
  exact h rfl

/-- The number of a block that is not negative, as it stands in the path. -/
theorem block_toUInt64 {n : Int64} (h : 0 ≤ n.toInt) :
    block n.toUInt64 = .ofKeys ["blockchain", toString n.toInt] := by
  have hnat : (n.toUInt64.toNat : Int) = n.toInt := by
    have hlt := n.toBitVec.isLt
    have hbits : n.toUInt64.toNat = n.toBitVec.toNat := rfl
    have hint : n.toInt = n.toBitVec.toInt := rfl
    have hcond := BitVec.toInt_eq_toNat_cond n.toBitVec
    -- The sign is not set, so the number is read the same with and without one.
    split at hcond <;> omega
  rw [← hnat]
  rfl

/-- A text is read as the address that its forty digits spell, and a path lies in the account that is spelled behind
its first key `accounts`. -/
theorem accounts_by_spelling :
    (∀ (s : String) (a : Address), Address.parse? s = some a ↔
      (Address.bare s).length = 40 ∧ Hex.Spells (Address.bare s) a.toList) ∧
    (∀ s : String, Address.parse? s = none ↔
      ¬ ((Address.bare s).length = 40 ∧ ∀ c ∈ Address.bare s, ∃ n, Hex.Digit c n)) ∧
    (∀ a b : Address, (Address.parse? a.key = some a ∧ Address.parse? a.display = some a) ∧
      (a.key = b.key → a = b) ∧ (a.display = b.display → a = b)) ∧
    (∀ before : List Segment, .key "accounts" ∉ before →
      (Path.mk before).address? = none ∧ (Path.mk (before ++ [.key "accounts"])).address? = none ∧
      ∀ (s : Segment) (rest : List Segment),
        (Path.mk (before ++ .key "accounts" :: s :: rest)).address? = s.address?) ∧
    (∀ (a : Address) (rest : List Segment), (Path.mk (.key "accounts" :: .key a.key :: rest)).address? = some a) ∧
    ∀ p q : Path, p.accountRoot? = some q →
      (∃ a : Address, p.address? = some a ∧ q = .ofKeys ["accounts", a.key] ∧
        ∀ c ∈ a.key.toList, '0' ≤ c ∧ c ≤ '9' ∨ 'a' ≤ c ∧ c ≤ 'f') ∧
      q.accountRoot? = some q ∧ ∀ k, p.slot k = q.slot k := by
  refine ⟨fun s a => Address.parse?_eq_some_iff, fun s => Address.parse?_eq_none_iff,
    fun a b => ⟨⟨a.parse?_key, a.parse?_display⟩, Address.key_injective, Address.display_injective⟩,
    fun before hbefore => ⟨?_, addressIn_append hbefore _, fun s rest => ?_⟩,
    fun a rest => (addressIn_accounts (.key a.key) rest).trans a.parse?_key,
    fun p q hroot => ⟨?_, slot_eq_of_accountRoot? hroot⟩⟩
  · have happend := addressIn_append hbefore []
    rwa [List.append_nil] at happend
  · exact (addressIn_append hbefore _).trans (addressIn_accounts s rest)
  · obtain ⟨a, ha, rfl⟩ := Option.map_eq_some_iff.1 hroot
    exact ⟨a, ha, rfl, a.lowercase_of_mem_key⟩

/-- An address in mixed case, behind a prefix, in a path that goes on with another account; and a prefix too many. -/
theorem accounts_by_spelling_mixed :
    let a : Address := .replicate 20 171
    let p : Path := ⟨[.parent, .key "accounts", .key "0xABabABabABabABabABabABabABabABabABabABab", .root,
      .key "accounts", .key Address.zero.key]⟩
    p.address? = some a ∧ (account a).accountRoot? = some (account a) ∧ p.slot .zero = (account a).slot .zero ∧
      Address.parse? "0x0xABabABabABabABabABabABabABabABabABabABab" = none := by
  intro a p
  obtain ⟨hsome, hnone, -, hfirst, -, hroot⟩ := accounts_by_spelling
  have hspelled : Address.parse? "0xABabABabABabABabABabABabABabABabABabABab" = some a :=
    (hsome _ a).2 (by rw [← Hex.decode?_eq_some_iff]; decide +kernel)
  have haddress : p.address? = some a := ((hfirst [.parent] (by decide)).2.2 _ _).trans hspelled
  have haccount : p.accountRoot? = some (account a) := congrArg (Option.map account) haddress
  obtain ⟨-, hself, hslots⟩ := hroot p (account a) haccount
  refine ⟨haddress, hself, hslots .zero, (hnone _).2 fun hdigits => ?_⟩
  exact absurd hdigits.1 (by decide +kernel)

end Path

/-- A key is spelled with sixty-four lowercase digits, from which its bytes can be read. -/
theorem Word.key_digits (k : Word) :
    k.key.toList.length = 64 ∧ (∀ c ∈ k.key.toList, '0' ≤ c ∧ c ≤ '9' ∨ 'a' ≤ c ∧ c ≤ 'f') ∧
      Hex.decode? k.key.toList = some k.toList := by
  have hchars : k.key.toList = Hex.encode k.toList := String.toList_ofList
  have hlength : k.toList.length = 32 := Vector.length_toList
  refine ⟨?_, ?_, ?_⟩
  · rw [hchars, Hex.length_encode, hlength]
  · rw [hchars]
    exact Hex.lowercase_of_mem_encode k.toList
  · rw [hchars]
    exact Hex.decode?_encode k.toList

end ContractHost
