import ContractHost.Address

/-!
# The BLAKE3 digest

The input is cut into chunks of 1024 bytes and each chunk into blocks of 64.  The chunks are the leaves of a binary
tree in which every left subtree is full, so the tree is built by joining neighbours level by level; a node that is
left over moves up unchanged.  A node is kept as the input of its last compression, since the root is compressed
with a mark of its own.
-/

namespace ContractHost.Blake3

abbrev Chaining := Vector UInt32 8

abbrev State := Vector UInt32 16

private def initial : Chaining :=
  #v[0x6A09E667, 0xBB67AE85, 0x3C6EF372, 0xA54FF53A, 0x510E527F, 0x9B05688C, 0x1F83D9AB, 0x5BE0CD19]

private def schedule : Vector (Fin 16) 16 := #v[2, 6, 3, 10, 7, 0, 4, 13, 1, 11, 12, 5, 9, 14, 15, 8]

private def chunkStart : UInt32 := 1
private def chunkEnd : UInt32 := 2
private def inner : UInt32 := 4
private def top : UInt32 := 8

private def rotateRight (w n : UInt32) : UInt32 := w >>> n ||| w <<< (32 - n)

/-- Mixes two words of the block into four words of the state. -/
private def quarter (v : State) (a b c d : Fin 16) (x y : UInt32) : State :=
  let v := v.set a (v[a] + v[b] + x)
  let v := v.set d (rotateRight (v[d] ^^^ v[a]) 16)
  let v := v.set c (v[c] + v[d])
  let v := v.set b (rotateRight (v[b] ^^^ v[c]) 12)
  let v := v.set a (v[a] + v[b] + y)
  let v := v.set d (rotateRight (v[d] ^^^ v[a]) 8)
  let v := v.set c (v[c] + v[d])
  v.set b (rotateRight (v[b] ^^^ v[c]) 7)

private def mix (v m : State) : State :=
  let v := quarter v 0 4 8 12 m[0] m[1]
  let v := quarter v 1 5 9 13 m[2] m[3]
  let v := quarter v 2 6 10 14 m[4] m[5]
  let v := quarter v 3 7 11 15 m[6] m[7]
  let v := quarter v 0 5 10 15 m[8] m[9]
  let v := quarter v 1 6 11 12 m[10] m[11]
  let v := quarter v 2 7 8 13 m[12] m[13]
  quarter v 3 4 9 14 m[14] m[15]

/-- Seven rounds, the words of the block in a new order for each. -/
private def rounds : Nat → State → State → State
  | 0, v, _ => v
  | n + 1, v, m => rounds n (mix v m) (schedule.map fun i => m[i])

/-- The input of one compression. -/
structure Node where
  chaining : Chaining
  block : State
  counter : UInt64
  length : UInt32
  flags : UInt32

namespace Node

private def compress (n : Node) (flags : UInt32) : Chaining :=
  let start : State := n.chaining ++ #v[initial[0], initial[1], initial[2], initial[3], n.counter.toUInt32,
    (n.counter >>> 32).toUInt32, n.length, flags]
  let v := rounds 7 start n.block
  .ofFn fun i => v[i.val] ^^^ v[i.val + 8]

/-- The value that the node above works with. -/
private def value (n : Node) : Chaining := n.compress n.flags

/-- The value of the node as the root of the tree. -/
private def rootValue (n : Node) : Chaining := n.compress (n.flags ||| top)

private def join (l r : Node) : Node := ⟨initial, l.value ++ r.value, 0, 64, inner⟩

end Node

/-- The words of a block of at most 64 bytes, their least significant byte first. -/
private def blockWords (block : Bytes) : State :=
  let bytes : Vector UInt8 64 := ⟨(Bytes.padTo 64 block).toArray, by simp⟩
  .ofFn fun i =>
    bytes[4 * i.val].toUInt32 ||| bytes[4 * i.val + 1].toUInt32 <<< 8 ||| bytes[4 * i.val + 2].toUInt32 <<< 16 |||
      bytes[4 * i.val + 3].toUInt32 <<< 24

private def blockNode (chaining : Chaining) (counter : UInt64) (block : Bytes) (flags : UInt32) : Node :=
  ⟨chaining, blockWords block, counter, UInt32.ofNat block.length, flags⟩

/-- The node of a chunk, from its blocks and the chaining value before them. -/
private def chunkNode (counter : UInt64) (chaining : Chaining) (flags : UInt32) : List Bytes → Node
  | [] => blockNode chaining counter [] (flags ||| chunkEnd)
  | [b] => blockNode chaining counter b (flags ||| chunkEnd)
  | b :: r => chunkNode counter (blockNode chaining counter b flags).value 0 r

private def leaf (counter : Nat) (chunk : Bytes) : Node :=
  chunkNode (UInt64.ofNat counter) initial chunkStart (Bytes.chunks 64 chunk)

/-- One level of the tree from the level below. -/
private def level : List Node → List Node
  | l :: r :: rest => l.join r :: level rest
  | rest => rest

/-- The 32 bytes of the digest. -/
def digest (input : Bytes) : Word :=
  let leaves := (Bytes.chunks 1024 input).mapIdx leaf
  let root := ((Nat.repeat level leaves.length leaves).head?.getD (leaf 0 [])).rootValue
  .ofFn fun i => (root[i.val / 4] >>> (UInt32.ofNat (8 * (i.val % 4)))).toUInt8

end ContractHost.Blake3
