/-!
# Byte strings

Byte strings, read as numbers with the most significant byte first, windows and pieces of them, and those of a
fixed size.
-/

namespace ContractHost

/-- A byte string. -/
abbrev Bytes := List UInt8

namespace Bytes

/-- The number whose base 256 digits are `b`, the most significant first. -/
def toNat (b : Bytes) : Nat := b.foldl (fun n d => n * 256 + d.toNat) 0

/-- The last `width` base 256 digits of `n`, the most significant first. -/
def ofNat : (width : Nat) → (n : Nat) → Bytes
  | 0, _ => []
  | width + 1, n => ofNat width (n / 256) ++ [UInt8.ofNat n]

@[simp] theorem length_ofNat (width n : Nat) : (ofNat width n).length = width := by
  induction width generalizing n with
  | zero => rfl
  | succ width ih => simp [ofNat, ih]

/-- Whether all bytes are zero. -/
def isZero (b : Bytes) : Bool := b.all (· == 0)

/-- At most `length` bytes of `source`, from `offset` on.  Both bounds are cut back to the end of the source, and the
sum of offset and length stops at the largest word. -/
def window (source : Bytes) (offset length : UInt64) : Bytes :=
  let start := min offset.toNat source.length
  let stop := min (min (start + length.toNat) (UInt64.size - 1)) source.length
  source.extract start stop

/-- The first `length` bytes of `b`, filled up with zeros. -/
def padTo (length : Nat) (b : Bytes) : Bytes := b.take length ++ List.replicate (length - b.length) 0

@[simp] theorem length_padTo (length : Nat) (b : Bytes) : (padTo length b).length = length := by
  simp [padTo]; omega

/-- Consecutive pieces of `size` bytes, the last perhaps shorter. -/
def chunks (size : Nat) (b : Bytes) : List Bytes :=
  (List.range ((b.length + size - 1) / size)).map fun i => (b.drop (i * size)).take size

/-- The bytes as a string of the fixed size `n`, if there are `n` of them. -/
def toVector? (n : Nat) (b : Bytes) : Option (Vector UInt8 n) :=
  if h : b.length = n then some ⟨b.toArray, by simpa using h⟩ else none

theorem toVector?_eq_some_iff {n : Nat} {b : Bytes} {v : Vector UInt8 n} :
    toVector? n b = some v ↔ v.toList = b := by
  unfold toVector?
  split
  · rename_i h
    simp only [Option.some.injEq]
    constructor
    · rintro rfl; simp
    · rintro rfl; rfl
  · rename_i h
    simp only [reduceCtorEq, false_iff]
    rintro rfl
    exact h (by simp)

end Bytes

end ContractHost
