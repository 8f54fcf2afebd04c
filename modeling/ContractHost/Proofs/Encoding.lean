import Mathlib.Data.List.Induction
import Mathlib.Data.Nat.Digits.Defs
import ContractHost.Address

/-!
# Numbers as bytes

Writing a number with the most significant byte first and reading it back gives the number again, as far as the
width goes (`toNat_ofNat`); so an amount is what its sixteen bytes say (`ofBytes?_toBytes`).  The other way round a
byte string is written as it was read (`ofNat_toNat`), so that only zeros in front are lost (`toNat_eq_toNat_iff`).
-/

namespace ContractHost

namespace Bytes

theorem toNat_append_singleton (b : Bytes) (d : UInt8) : toNat (b ++ [d]) = toNat b * 256 + d.toNat := by
  simp [toNat]

theorem toNat_ofNat (width n : Nat) : toNat (ofNat width n) = n % 256 ^ width := by
  induction width generalizing n with
  | zero => simp [ofNat, toNat, Nat.mod_one]
  | succ width ih =>
    have digit : (UInt8.ofNat n).toNat = n % 256 := UInt8.toNat_ofNat'
    rw [ofNat, toNat_append_singleton, ih, digit, Nat.pow_succ, Nat.mul_comm (256 ^ width) 256, Nat.mod_mul]
    omega

theorem toNat_eq_ofDigits (b : Bytes) : toNat b = Nat.ofDigits 256 (b.reverse.map UInt8.toNat) := by
  induction b using List.reverseRecOn with
  | nil => rfl
  | append_singleton b d ih =>
    rw [toNat_append_singleton, ih, List.reverse_concat, List.map_cons, Nat.ofDigits_cons]
    omega

theorem toNat_lt (b : Bytes) : toNat b < 256 ^ b.length := by
  induction b using List.reverseRecOn with
  | nil => decide
  | append_singleton b d ih =>
    have hd := d.toNat_lt
    rw [toNat_append_singleton, List.length_append, List.length_singleton, Nat.pow_succ]
    omega

/-- A byte string is the row of the digits of its number. -/
theorem ofNat_toNat (b : Bytes) : ofNat b.length (toNat b) = b := by
  induction b using List.reverseRecOn with
  | nil => rfl
  | append_singleton b d ih =>
    have hd := d.toNat_lt
    have hdiv : (toNat b * 256 + d.toNat) / 256 = toNat b := by omega
    have hdigit : UInt8.ofNat (toNat b * 256 + d.toNat) = d := by
      rw [← UInt8.toNat_inj, UInt8.toNat_ofNat']
      omega
    rw [List.length_append, List.length_singleton, ofNat, toNat_append_singleton, hdiv, ih, hdigit]

/-- Zeros in front count for nothing. -/
theorem toNat_zeros_append (n : Nat) (b : Bytes) : toNat (List.replicate n 0 ++ b) = toNat b := by
  induction n with
  | zero => rfl
  | succ n ih =>
    have hcons : toNat (List.replicate (n + 1) 0 ++ b) = toNat (List.replicate n 0 ++ b) := rfl
    rw [hcons, ih]

theorem ofNat_toNat_of_le {b : Bytes} {width : Nat} (h : b.length ≤ width) :
    ofNat width (toNat b) = List.replicate (width - b.length) 0 ++ b := by
  have hlength : (List.replicate (width - b.length) 0 ++ b).length = width := by
    rw [List.length_append, List.length_replicate]
    omega
  have hpadded := ofNat_toNat (List.replicate (width - b.length) 0 ++ b)
  rwa [hlength, toNat_zeros_append] at hpadded

/-- The strings differ at most in how many zeros they begin with. -/
def SameDigits (b c : Bytes) : Prop :=
  ∃ (m n : Nat) (r : Bytes), b = List.replicate m 0 ++ r ∧ c = List.replicate n 0 ++ r

theorem toNat_eq_toNat_iff {b c : Bytes} : toNat b = toNat c ↔ b.SameDigits c := by
  constructor
  · intro h
    rcases Nat.le_total b.length c.length with hle | hle
    · refine ⟨0, c.length - b.length, b, rfl, ?_⟩
      rw [← ofNat_toNat_of_le hle, h, ofNat_toNat]
    · refine ⟨b.length - c.length, 0, c, ?_, rfl⟩
      rw [← ofNat_toNat_of_le hle, ← h, ofNat_toNat]
  · rintro ⟨m, n, r, rfl, rfl⟩
    rw [toNat_zeros_append, toNat_zeros_append]

end Bytes

namespace Amount

theorem ofBytes?_toBytes (v : Amount) : ofBytes? (toBytes v) = some v := by
  have hv : v.toNat % 256 ^ 16 = v.toNat := Nat.mod_eq_of_lt v.isLt
  simp [ofBytes?, toBytes, Bytes.toNat_ofNat, -Nat.reducePow, hv]

theorem ofBytes?_eq_none_iff {b : Bytes} : ofBytes? b = none ↔ 16 < b.length := by
  rw [ofBytes?, ite_eq_right_iff]
  simp

/-- No more than sixteen bytes always fit. -/
theorem toNat_of_ofBytes? {b : Bytes} {v : Amount} (h : ofBytes? b = some v) : v.toNat = Bytes.toNat b := by
  unfold ofBytes? at h
  split at h
  · rename_i hle
    have hpow : 256 ^ b.length ≤ 256 ^ 16 := Nat.pow_le_pow_right (by decide) hle
    have hlt : Bytes.toNat b < 2 ^ 128 := Nat.lt_of_lt_of_le b.toNat_lt hpow
    cases h
    rw [BitVec.toNat_ofNat, Nat.mod_eq_of_lt hlt]
  · cases h

theorem ofBytes?_of_le {b : Bytes} (h : b.length ≤ 16) : ∃ v, ofBytes? b = some v ∧ v.toNat = Bytes.toNat b := by
  have hsome : ofBytes? b = some (BitVec.ofNat 128 (Bytes.toNat b)) := if_pos h
  exact ⟨_, hsome, toNat_of_ofBytes? hsome⟩

end Amount

end ContractHost
