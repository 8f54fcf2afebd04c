import ContractHost.Bytes

/-!
# Hexadecimal text

Bytes are written with lowercase digits, the high half of a byte first, and read from digits of either case.
What is written reads back: `decode?_encode`.
-/

namespace ContractHost.Hex

/-- The lowercase digit of a number below sixteen. -/
def digit (n : Nat) : Char := Char.ofNat (if n < 10 then 48 + n else 87 + n)

/-- The value of a digit of either case. -/
def value? (c : Char) : Option Nat :=
  if '0' ≤ c ∧ c ≤ '9' then some (c.toNat - 48)
  else if 'a' ≤ c ∧ c ≤ 'f' then some (c.toNat - 87)
  else if 'A' ≤ c ∧ c ≤ 'F' then some (c.toNat - 55)
  else none

/-- Two digits a byte. -/
def encode : Bytes → List Char
  | [] => []
  | b :: r => digit (b.toNat / 16) :: digit (b.toNat % 16) :: encode r

/-- Refuses an odd number of characters and any that is no digit. -/
def decode? : List Char → Option Bytes
  | [] => some []
  | [_] => none
  | h :: l :: r => do
    let high ← value? h
    let low ← value? l
    let rest ← decode? r
    return UInt8.ofNat (16 * high + low) :: rest

/-- The text of a byte string. -/
def ofBytes (b : Bytes) : String := String.ofList (encode b)

theorem value?_digit {n : Nat} (h : n < 16) : value? (digit n) = some n := by
  revert n; decide

theorem decode?_encode (b : Bytes) : decode? (encode b) = some b := by
  induction b with
  | nil => rfl
  | cons d r ih =>
    have hd := d.toNat_lt
    simp only [encode, decode?, value?_digit (show d.toNat / 16 < 16 by omega),
      value?_digit (show d.toNat % 16 < 16 by omega), ih, Option.bind_eq_bind, Option.bind_some]
    rw [Nat.div_add_mod, UInt8.ofNat_toNat]
    rfl

theorem ofBytes_injective {a b : Bytes} (h : ofBytes a = ofBytes b) : a = b := by
  have h' := congrArg decode? (String.ofList_injective h)
  simpa only [decode?_encode, Option.some.injEq] using h'

end ContractHost.Hex
