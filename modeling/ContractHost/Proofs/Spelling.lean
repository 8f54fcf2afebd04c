import ContractHost.Address

/-!
# Spellings of addresses

Which texts spell which bytes in hexadecimal is said by `Hex.Spells`, two digits of either case for each byte, and
reading finds exactly these bytes (`Hex.decode?_eq_some_iff`).  So an address is read from a text if and only if there
are forty digits left of it once a leading `0x` is taken off (`Address.parse?_eq_some_iff`); the key of an address and
its display are among its spellings.
-/

namespace ContractHost

namespace Hex

/-! ### Digits and texts -/

/-- The digits in lower case, from zero on. -/
def lower : List Char := ['0', '1', '2', '3', '4', '5', '6', '7', '8', '9', 'a', 'b', 'c', 'd', 'e', 'f']

/-- The digits in upper case, from zero on. -/
def upper : List Char := ['0', '1', '2', '3', '4', '5', '6', '7', '8', '9', 'A', 'B', 'C', 'D', 'E', 'F']

/-- Whether `c` is the digit of `n` in one case or the other. -/
def Digit (c : Char) (n : Nat) : Prop := lower[n]? = some c ∨ upper[n]? = some c

instance (c : Char) (n : Nat) : Decidable (Digit c n) := inferInstanceAs (Decidable (_ ∨ _))

/-- Whether the text has two digits for each of the bytes, that of the high half first. -/
inductive Spells : List Char → Bytes → Prop
  | nil : Spells [] []
  | cons {high low : Char} {x y : Nat} {cs : List Char} {b : Bytes} (hhigh : Digit high x) (hlow : Digit low y)
      (hrest : Spells cs b) : Spells (high :: low :: cs) (UInt8.ofNat (16 * x + y) :: b)

/-- Whatever is read as a digit is one of the characters that come before `g`. -/
private theorem toNat_lt_of_value? {c : Char} {n : Nat} (h : value? c = some n) : c.toNat < 103 := by
  have hbound {last : Char} (hlast : last.toNat < 103) (hc : c ≤ last) : c.toNat < 103 :=
    Nat.lt_of_le_of_lt (UInt32.le_iff_toNat_le.1 hc) hlast
  unfold value? at h
  split at h
  · rename_i hdecimal
    exact hbound (by decide) hdecimal.2
  · split at h
    · rename_i hlower
      exact hbound (by decide) hlower.2
    · split at h
      · rename_i hupper
        exact hbound (by decide) hupper.2
      · cases h

theorem value?_eq_some_iff {c : Char} {n : Nat} : value? c = some n ↔ Digit c n := by
  constructor
  · intro h
    -- There are only so many characters, and each that has a value is the digit of that value.
    have hall : ∀ k < 103, ∀ n ∈ value? (Char.ofNat k), Digit (Char.ofNat k) n := by decide
    have hc := hall c.toNat (toNat_lt_of_value? h)
    rw [Char.ofNat_toNat] at hc
    exact hc n h
  · rintro (h | h)
    · obtain ⟨hn, rfl⟩ := List.getElem?_eq_some_iff.1 h
      revert n
      decide
    · obtain ⟨hn, rfl⟩ := List.getElem?_eq_some_iff.1 h
      revert n
      decide

/-- What is read is what the text spells. -/
theorem decode?_eq_some_iff {cs : List Char} {b : Bytes} : decode? cs = some b ↔ Spells cs b := by
  constructor
  · intro h
    induction cs using decode?.induct generalizing b with
    | case1 =>
      cases h
      exact .nil
    | case2 c => cases h
    | case3 high low cs ih =>
      simp only [decode?, Option.bind_eq_bind, Option.bind_eq_some_iff, Option.pure_def, Option.some.injEq] at h
      obtain ⟨x, hx, y, hy, rest, hrest, rfl⟩ := h
      exact .cons (value?_eq_some_iff.1 hx) (value?_eq_some_iff.1 hy) (ih hrest)
  · intro h
    induction h with
    | nil => rfl
    | cons hhigh hlow _ ih =>
      simp only [decode?, value?_eq_some_iff.2 hhigh, value?_eq_some_iff.2 hlow, ih, Option.bind_eq_bind,
        Option.bind_some, Option.pure_def]

theorem spells_encode (b : Bytes) : Spells (encode b) b := decode?_eq_some_iff.1 (decode?_encode b)

namespace Spells

variable {cs : List Char} {b : Bytes}

theorem length_eq (h : Spells cs b) : cs.length = 2 * b.length := by
  induction h with
  | nil => rfl
  | cons _ _ _ ih =>
    simp only [List.length_cons, ih]
    omega

theorem digits (h : Spells cs b) : ∀ c ∈ cs, ∃ n, Digit c n := by
  induction h with
  | nil => simp
  | @cons high low x y cs b hhigh hlow _ ih =>
    intro c hc
    rcases List.mem_cons.1 hc with rfl | hc
    · exact ⟨x, hhigh⟩
    · rcases List.mem_cons.1 hc with rfl | hc
      · exact ⟨y, hlow⟩
      · exact ih c hc

/-- Whatever has an even number of digits and nothing else spells something. -/
theorem exists_of_digits {n : Nat} (hlength : cs.length = 2 * n) (hdigits : ∀ c ∈ cs, ∃ n, Digit c n) :
    ∃ b : Bytes, b.length = n ∧ Spells cs b := by
  induction n generalizing cs with
  | zero =>
    obtain rfl := List.length_eq_zero_iff.1 hlength
    exact ⟨[], rfl, .nil⟩
  | succ n ih =>
    match cs, hlength with
    | high :: low :: cs, hlength =>
      obtain ⟨x, hx⟩ := hdigits high (by simp)
      obtain ⟨y, hy⟩ := hdigits low (by simp)
      simp only [List.length_cons] at hlength
      have heven : cs.length = 2 * n := by omega
      obtain ⟨b, hb, hrest⟩ := ih heven fun c hc => hdigits c (by simp [hc])
      exact ⟨_, congrArg (· + 1) hb, .cons hx hy hrest⟩

end Spells

/-! ### Lower case -/

theorem length_encode (b : Bytes) : (encode b).length = 2 * b.length := (spells_encode b).length_eq

theorem lowercase_digit {n : Nat} (h : n < 16) :
    '0' ≤ digit n ∧ digit n ≤ '9' ∨ 'a' ≤ digit n ∧ digit n ≤ 'f' := by
  revert n
  decide

theorem lowercase_of_mem_encode (b : Bytes) : ∀ c ∈ encode b, '0' ≤ c ∧ c ≤ '9' ∨ 'a' ≤ c ∧ c ≤ 'f' := by
  induction b with
  | nil => simp [encode]
  | cons d r ih =>
    have hd := d.toNat_lt
    intro c hc
    rcases List.mem_cons.1 hc with rfl | hc
    · exact lowercase_digit (by omega)
    · rcases List.mem_cons.1 hc with rfl | hc
      · exact lowercase_digit (by omega)
      · exact ih c hc

end Hex

namespace Address

/-- A text without the one `0x` that may stand before it. -/
def bare (s : String) : List Char := if s.toList.take 2 = ['0', 'x'] then s.toList.drop 2 else s.toList

theorem parse?_eq (s : String) : parse? s = (Hex.decode? (bare s)).bind (Bytes.toVector? 20) := by
  unfold parse? bare
  split
  · rename_i r hs
    simp [hs]
  · rename_i hs
    rw [if_neg]
    intro htake
    refine hs (s.toList.drop 2) ?_
    have happend := List.take_append_drop 2 s.toList
    rw [htake] at happend
    exact happend.symm

theorem parse?_eq_some_iff {s : String} {a : Address} :
    parse? s = some a ↔ (bare s).length = 40 ∧ Hex.Spells (bare s) a.toList := by
  rw [parse?_eq, Option.bind_eq_some_iff]
  constructor
  · rintro ⟨b, hb, ha⟩
    obtain rfl := Bytes.toVector?_eq_some_iff.1 ha
    have hspells := Hex.decode?_eq_some_iff.1 hb
    exact ⟨by rw [hspells.length_eq, Vector.length_toList], hspells⟩
  · rintro ⟨-, hspells⟩
    exact ⟨a.toList, Hex.decode?_eq_some_iff.2 hspells, Bytes.toVector?_eq_some_iff.2 rfl⟩

/-- Nothing but the number of digits counts for whether there is an address. -/
theorem parse?_eq_none_iff {s : String} :
    parse? s = none ↔ ¬ ((bare s).length = 40 ∧ ∀ c ∈ bare s, ∃ n, Hex.Digit c n) := by
  rw [Option.eq_none_iff_forall_ne_some]
  constructor
  · rintro h ⟨hlength, hdigits⟩
    obtain ⟨b, hb, hspells⟩ := Hex.Spells.exists_of_digits (n := 20) hlength hdigits
    have hvector : Bytes.toVector? 20 b = some _ := dif_pos hb
    have htoList := Bytes.toVector?_eq_some_iff.1 hvector
    exact h _ (parse?_eq_some_iff.2 ⟨hlength, by rw [htoList]; exact hspells⟩)
  · intro h a ha
    obtain ⟨hlength, hspells⟩ := parse?_eq_some_iff.1 ha
    exact h ⟨hlength, hspells.digits⟩

/-- Digits are never taken for the prefix `0x`. -/
theorem bare_of_spells {s : String} {b : Bytes} (h : Hex.Spells s.toList b) : bare s = s.toList := by
  refine if_neg fun htake => ?_
  have hx : 'x' ∈ s.toList.take 2 := by
    rw [htake]
    decide
  obtain ⟨n, hn⟩ := h.digits 'x' (List.mem_of_mem_take hx)
  have hnone : Hex.value? 'x' = none := by decide
  rw [← Hex.value?_eq_some_iff, hnone] at hn
  cases hn

theorem spells_key (a : Address) : Hex.Spells a.key.toList a.toList := by
  rw [key, Hex.ofBytes, String.toList_ofList]
  exact Hex.spells_encode a.toList

theorem bare_key (a : Address) : bare a.key = a.key.toList := bare_of_spells a.spells_key

theorem bare_display (a : Address) : bare a.display = a.key.toList := by
  have hchars : a.display.toList = '0' :: 'x' :: a.key.toList := by
    rw [display, String.toList_append]
    rfl
  rw [bare, hchars]
  exact if_pos rfl

theorem length_key (a : Address) : a.key.toList.length = 40 := by
  rw [a.spells_key.length_eq, Vector.length_toList]

theorem lowercase_of_mem_key (a : Address) : ∀ c ∈ a.key.toList, '0' ≤ c ∧ c ≤ '9' ∨ 'a' ≤ c ∧ c ≤ 'f' := by
  rw [key, Hex.ofBytes, String.toList_ofList]
  exact Hex.lowercase_of_mem_encode a.toList

theorem parse?_key (a : Address) : parse? a.key = some a := by
  rw [parse?_eq_some_iff, bare_key]
  exact ⟨a.length_key, a.spells_key⟩

theorem parse?_display (a : Address) : parse? a.display = some a := by
  rw [parse?_eq_some_iff, bare_display]
  exact ⟨a.length_key, a.spells_key⟩

theorem display_injective {a b : Address} (h : a.display = b.display) : a = b := by
  have hparse := congrArg parse? h
  rwa [parse?_display, parse?_display, Option.some.injEq] at hparse

end Address

end ContractHost
