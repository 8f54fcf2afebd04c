import ContractHost.Gas.Schedule

/-!
# The gas meter

One execution draws its gas from one meter.  A charge that exceeds what remains is refused and changes nothing;
refunds are counted apart and never spent.
-/

namespace ContractHost.Gas

structure Meter where
  limit : UInt64
  remaining : UInt64
  refunded : UInt64

namespace Meter

/-- A full meter. -/
def ofLimit (limit : UInt64) : Meter := ⟨limit, limit, 0⟩

/-- Takes `amount`, unless less than that remains. -/
def charge? (amount : UInt64) (m : Meter) : Option Meter :=
  if m.remaining < amount then none else some { m with remaining := m.remaining - amount }

/-- Gives back `amount` that was charged before. -/
def restore (amount : UInt64) (m : Meter) : Meter := { m with remaining := add m.remaining amount }

/-- Counts `amount` as a refund. -/
def refund (amount : UInt64) (m : Meter) : Meter := { m with refunded := add m.refunded amount }

/-- What has been spent of the limit. -/
def used (m : Meter) : UInt64 := if m.remaining ≤ m.limit then m.limit - m.remaining else 0

theorem charge?_eq_none_iff {amount : UInt64} {m : Meter} :
    m.charge? amount = none ↔ m.remaining.toNat < amount.toNat := by
  simp [charge?, UInt64.lt_iff_toNat_lt]

theorem toNat_remaining_of_charge? {amount : UInt64} {m m' : Meter} (h : m.charge? amount = some m') :
    m'.remaining.toNat + amount.toNat = m.remaining.toNat := by
  unfold charge? at h
  split at h
  · cases h
  · rename_i hlt
    have hle := UInt64.le_iff_toNat_le.1 (UInt64.not_lt.1 hlt)
    cases h
    rw [UInt64.toNat_sub_of_le _ _ (UInt64.not_lt.1 hlt)]
    omega

theorem toNat_remaining_add_used {m : Meter} (h : m.remaining ≤ m.limit) :
    m.remaining.toNat + m.used.toNat = m.limit.toNat := by
  have hle := UInt64.le_iff_toNat_le.1 h
  rw [used, if_pos h, UInt64.toNat_sub_of_le _ _ h]
  omega

end Meter

end ContractHost.Gas
