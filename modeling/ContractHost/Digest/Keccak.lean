import ContractHost.Address

/-!
# The Keccak-256 digest

The permutation of 1600 bits on 25 lanes of 64 bits, the lane of column `x` and row `y` at index `x + 5 * y`, and
the sponge over it that absorbs 136 bytes at a time.
-/

namespace ContractHost.Keccak

abbrev Lanes := Vector UInt64 25

private def rotations : Vector UInt64 25 :=
  #v[0, 1, 62, 28, 27, 36, 44, 6, 55, 20, 3, 10, 43, 25, 39, 41, 45, 15, 21, 8, 18, 2, 61, 56, 14]

private def roundConstants : List UInt64 :=
  [0x0000000000000001, 0x0000000000008082, 0x800000000000808A, 0x8000000080008000, 0x000000000000808B,
    0x0000000080000001, 0x8000000080008081, 0x8000000000008009, 0x000000000000008A, 0x0000000000000088,
    0x0000000080008009, 0x000000008000000A, 0x000000008000808B, 0x800000000000008B, 0x8000000000008089,
    0x8000000000008003, 0x8000000000008002, 0x8000000000000080, 0x000000000000800A, 0x800000008000000A,
    0x8000000080008081, 0x8000000000008080, 0x0000000080000001, 0x8000000080008008]

private def rotateLeft (w n : UInt64) : UInt64 := if n = 0 then w else w <<< n ||| w >>> (64 - n)

/-- Adds to each lane the parities of the two neighbouring columns. -/
private def mixColumns (a : Lanes) : Lanes :=
  let parity : Vector UInt64 5 :=
    .ofFn fun x => a[x.val] ^^^ a[x.val + 5] ^^^ a[x.val + 10] ^^^ a[x.val + 15] ^^^ a[x.val + 20]
  .ofFn fun i =>
    a[i] ^^^ parity[(i.val + 4) % 5] ^^^ rotateLeft parity[(i.val + 1) % 5] 1

/-- Rotates each lane by its own amount and moves it to its new place. -/
private def rotateAndMove (a : Lanes) : Lanes :=
  .ofFn fun i =>
    let x := i.val % 5
    let y := i.val / 5
    let source := (x + 3 * y) % 5 + 5 * x
    rotateLeft a[source] rotations[source]

/-- Combines each lane with the two to its right in the same row. -/
private def mixRows (a : Lanes) : Lanes :=
  .ofFn fun i =>
    let row := 5 * (i.val / 5)
    a[i] ^^^ (~~~ a[row + (i.val + 1) % 5] &&& a[row + (i.val + 2) % 5])

private def round (a : Lanes) (constant : UInt64) : Lanes :=
  let b := mixRows (rotateAndMove (mixColumns a))
  b.set 0 (b[0] ^^^ constant)

/-- The permutation: 24 rounds that differ in a constant. -/
def permute (a : Lanes) : Lanes := roundConstants.foldl round a

/-- The number of bytes absorbed at a time. -/
private def rate : Nat := 136

private def lane (block : Vector UInt8 136) (i : Fin 17) : UInt64 :=
  (List.finRange 8).foldr (fun j w => w <<< 8 ||| block[8 * i.val + j.val].toUInt64) 0

private def absorb (a : Lanes) (block : Bytes) : Lanes :=
  let bytes : Vector UInt8 136 := ⟨(Bytes.padTo 136 block).toArray, by simp⟩
  permute (.ofFn fun i => if h : i.val < 17 then a[i] ^^^ lane bytes ⟨i.val, h⟩ else a[i])

/-- The message followed by a one bit, zeros and a last one bit, up to a whole number of blocks. -/
private def pad (message : Bytes) : Bytes :=
  let missing := rate - message.length % rate
  if missing = 1 then message ++ [0x81] else message ++ 0x01 :: List.replicate (missing - 2) 0 ++ [0x80]

/-- The 32 bytes of the digest. -/
def digest (message : Bytes) : Word :=
  let final := (Bytes.chunks rate (pad message)).foldl absorb (.replicate 25 0)
  .ofFn fun i => (final[i.val / 8] >>> (UInt64.ofNat (8 * (i.val % 8)))).toUInt8

end ContractHost.Keccak
