import ContractHost.Hex

/-!
# Addresses, words and amounts

Accounts are named by addresses of 20 bytes; storage keys and values, hashes and log topics are words of 32 bytes;
values transferred are amounts of 128 bits, written as 16 bytes with the most significant first.
-/

namespace ContractHost

abbrev Address := Vector UInt8 20

abbrev Word := Vector UInt8 32

abbrev Amount := BitVec 128

namespace Address

def zero : Address := Vector.replicate 20 0

/-- The spelling used in paths: forty lowercase digits. -/
def key (a : Address) : String := Hex.ofBytes a.toList

/-- The spelling shown to people: the key behind `0x`. -/
def display (a : Address) : String := "0x" ++ a.key

/-- Reads forty digits of either case, with or without one `0x` before them. -/
def parse? (s : String) : Option Address :=
  let digits := match s.toList with
    | '0' :: 'x' :: r => r
    | cs => cs
  (Hex.decode? digits).bind (Bytes.toVector? 20)

theorem key_injective {a b : Address} (h : a.key = b.key) : a = b :=
  Vector.toList_inj.1 (Hex.ofBytes_injective h)

end Address

namespace Word

def zero : Word := Vector.replicate 32 0

/-- Sixty-four lowercase digits. -/
def key (w : Word) : String := Hex.ofBytes w.toList

def isZero (w : Word) : Bool := Bytes.isZero w.toList

theorem isZero_iff {w : Word} : w.isZero = true ↔ w = zero := by
  rw [← Vector.toList_inj, zero, Vector.toList_replicate, List.eq_replicate_iff, isZero, Bytes.isZero,
    List.all_eq_true]
  simp

theorem key_injective {a b : Word} (h : a.key = b.key) : a = b :=
  Vector.toList_inj.1 (Hex.ofBytes_injective h)

end Word

namespace Amount

/-- The number of amounts. -/
def size : Nat := UInt64.size * UInt64.size

/-- The sixteen bytes of an amount. -/
def toBytes (v : Amount) : Bytes := Bytes.ofNat 16 v.toNat

/-- The amount written by at most sixteen bytes. -/
def ofBytes? (b : Bytes) : Option Amount :=
  if b.length ≤ 16 then some (BitVec.ofNat 128 (Bytes.toNat b)) else none

end Amount

end ContractHost
