import ContractHost.Digest.Keccak

/-!
# Addresses of created contracts

The address of a new contract is made from its creator's address and nonce: both are written as a list of two items
in length-prefixed form, and the address is the end of the digest of that text.
-/

namespace ContractHost

/-- The base 256 digits of `n`, the most significant first and without leading zeros. -/
def significantBytes (n : UInt64) : Bytes := (Bytes.ofNat 8 n.toNat).dropWhile (· == 0)

/-- A string of fewer than 56 bytes: a single small byte stands for itself. -/
def shortItem (b : Bytes) : Bytes :=
  match b with
  | [d] => if d < 0x80 then b else [0x81, d]
  | _ => UInt8.ofNat (0x80 + b.length) :: b

/-- A list of items of fewer than 56 bytes in all. -/
def shortList (items : List Bytes) : Bytes :=
  let body := (items.map shortItem).flatten
  UInt8.ofNat (0xC0 + body.length) :: body

/-- The address of the contract that `creator` makes at `nonce`. -/
def creationAddress (creator : Address) (nonce : UInt64) : Address :=
  (Keccak.digest (shortList [creator.toList, significantBytes nonce])).drop 12

end ContractHost
