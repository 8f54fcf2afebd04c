import ContractHost.Address
import ContractHost.Memory.Cells

/-!
# Linear memory

The memory of a contract is a row of bytes that are read and written by offset and length.  An access that does not
lie wholly inside it is refused, whatever its length.  The view is `toList`; `toList_splice`, `toList_fill` and
`toList_grow` say what the changes do to it, and `read?_eq` what a read sees of it.
-/

namespace ContractHost

structure Memory where
  size : Nat
  cells : Cells
  get_cells_of_le : ∀ i, size ≤ i → cells.get i = 0

namespace Memory

/-- The byte at `i`. -/
def get (m : Memory) (i : Nat) : UInt8 := m.cells.get i

/-- The contents, from offset zero on. -/
def toList (m : Memory) : Bytes := (List.range m.size).map m.get

/-- A memory of `size` zeros. -/
def zeros (size : Nat) : Memory := ⟨size, .blank, fun i _ => Cells.get_blank i⟩

/-- The memory with `count` zeros after it. -/
def grow (m : Memory) (count : Nat) : Memory :=
  ⟨m.size + count, m.cells, fun i h => m.get_cells_of_le i (Nat.le_trans (Nat.le_add_right ..) h)⟩

/-- Whether `length` bytes from `offset` on lie inside. -/
def Fits (m : Memory) (offset length : Nat) : Prop := offset + length ≤ m.size

instance (m : Memory) (offset length : Nat) : Decidable (m.Fits offset length) :=
  inferInstanceAs (Decidable (offset + length ≤ m.size))

/-- Puts `d` at `i`, if that is inside. -/
def put (m : Memory) (i : Nat) (d : UInt8) : Memory :=
  if h : i < m.size then
    ⟨m.size, m.cells.set i d, fun j hj => by
      rw [Cells.get_set, if_neg (by omega), m.get_cells_of_le j hj]⟩
  else m

/-- Puts `b` over the bytes from `offset` on. -/
def splice (m : Memory) (offset : Nat) : Bytes → Memory
  | [] => m
  | d :: r => (m.put offset d).splice (offset + 1) r

/-- Sets `length` bytes from `offset` on to zero. -/
def clear (m : Memory) (offset length : Nat) : Memory :=
  ⟨m.size, m.cells.clear offset length, fun i h => by
    rw [Cells.get_clear, m.get_cells_of_le i h, ite_self]⟩

/-- Puts the first `length` bytes of `b`, filled up with zeros, over the bytes from `offset` on. -/
def fill (m : Memory) (offset length : Nat) (b : Bytes) : Memory :=
  (m.clear offset length).splice offset (b.take length)

def ofBytes (b : Bytes) : Memory := (zeros b.length).splice 0 b

def read? (m : Memory) (offset : UInt32) (length : Nat) : Option Bytes :=
  if m.Fits offset.toNat length then some ((List.range' offset.toNat length).map m.get) else none

/-- Reads a byte string of fixed size. -/
def readVector? (m : Memory) (n : Nat) (offset : UInt32) : Option (Vector UInt8 n) :=
  (m.read? offset n).bind (Bytes.toVector? n)

/-- Reads an amount of sixteen bytes. -/
def readAmount? (m : Memory) (offset : UInt32) : Option Amount := (m.read? offset 16).bind Amount.ofBytes?

def write? (m : Memory) (offset : UInt32) (b : Bytes) : Option Memory :=
  if m.Fits offset.toNat b.length then some (m.splice offset.toNat b) else none

/-- Writes exactly `length` bytes: those of `b` as far as they go, and then zeros. -/
def writePadded? (m : Memory) (offset length : UInt32) (b : Bytes) : Option Memory :=
  if m.Fits offset.toNat length.toNat then some (m.fill offset.toNat length.toNat b) else none

/-! ### What the changes do to each byte -/

@[simp] theorem get_zeros (size i : Nat) : (zeros size).get i = 0 := Cells.get_blank i

@[simp] theorem get_grow (m : Memory) (count i : Nat) : (m.grow count).get i = m.get i := rfl

theorem get_of_le (m : Memory) {i : Nat} (h : m.size ≤ i) : m.get i = 0 := m.get_cells_of_le i h

theorem get_put (m : Memory) (i j : Nat) (d : UInt8) :
    (m.put i d).get j = if j = i ∧ i < m.size then d else m.get j := by
  unfold put
  split
  · simp [get, Cells.get_set, *]
  · simp [*]

@[simp] theorem size_put (m : Memory) (i : Nat) (d : UInt8) : (m.put i d).size = m.size := by
  unfold put
  split <;> rfl

@[simp] theorem size_splice (m : Memory) (offset : Nat) (b : Bytes) : (m.splice offset b).size = m.size := by
  induction b generalizing m offset with
  | nil => rfl
  | cons d r ih => rw [splice, ih, size_put]

theorem get_splice (m : Memory) (offset i : Nat) (b : Bytes) :
    (m.splice offset b).get i =
      if offset ≤ i ∧ i < offset + b.length ∧ i < m.size then b.getD (i - offset) 0 else m.get i := by
  induction b generalizing m offset with
  | nil =>
    rw [if_neg (by simp only [List.length_nil]; omega)]
    rfl
  | cons d r ih =>
    rw [splice, ih, get_put, size_put]
    grind

@[simp] theorem size_clear (m : Memory) (offset length : Nat) : (m.clear offset length).size = m.size := rfl

@[simp] theorem get_clear (m : Memory) (offset length i : Nat) :
    (m.clear offset length).get i = if offset ≤ i ∧ i < offset + length then 0 else m.get i :=
  Cells.get_clear ..

/-! ### What they do to the contents -/

@[simp] theorem length_toList (m : Memory) : m.toList.length = m.size := by simp [toList]

@[simp] theorem getElem_toList (m : Memory) (i : Nat) (h : i < m.toList.length) : m.toList[i] = m.get i := by
  simp [toList]

theorem getElem?_toList (m : Memory) (i : Nat) : m.toList[i]? = if i < m.size then some (m.get i) else none := by
  split <;> simp_all [toList]

theorem toList_zeros (size : Nat) : (zeros size).toList = List.replicate size 0 := by
  apply List.ext_getElem <;> simp
  rfl

theorem toList_grow (m : Memory) (count : Nat) : (m.grow count).toList = m.toList ++ List.replicate count 0 := by
  apply List.ext_getElem
  · simp [grow]
  · intro i h h'
    rw [getElem_toList, get_grow, List.getElem_append]
    split
    · rw [getElem_toList]
    · rename_i hi
      rw [List.getElem_replicate, m.get_of_le (by simpa using hi)]

theorem read?_eq (m : Memory) (offset : UInt32) (length : Nat) :
    m.read? offset length =
      if m.Fits offset.toNat length then some ((m.toList.drop offset.toNat).take length) else none := by
  unfold read?
  split
  · rename_i h
    unfold Fits at h
    congr 1
    apply List.ext_getElem
    · simp; omega
    · intro i _ _
      simp
  · rfl

theorem toList_splice {m : Memory} {offset : Nat} {b : Bytes} (h : m.Fits offset b.length) :
    (m.splice offset b).toList = m.toList.take offset ++ b ++ m.toList.drop (offset + b.length) := by
  unfold Fits at h
  apply List.ext_getElem?
  intro i
  rw [getElem?_toList, size_splice, get_splice]
  simp only [List.getElem?_append, List.getElem?_take, List.getElem?_drop, getElem?_toList, List.length_append,
    List.length_take, length_toList, List.getD_eq_getElem?_getD]
  by_cases hlow : i < offset
  · grind
  · by_cases hhigh : i < offset + b.length <;> grind

theorem toList_fill {m : Memory} {offset length : Nat} {b : Bytes} (h : m.Fits offset length) :
    (m.fill offset length b).toList =
      m.toList.take offset ++ Bytes.padTo length b ++ m.toList.drop (offset + length) := by
  unfold Fits at h
  apply List.ext_getElem?
  intro i
  rw [fill, getElem?_toList, size_splice, size_clear, get_splice, get_clear, size_clear]
  simp only [Bytes.padTo, List.getElem?_append, List.getElem?_take, List.getElem?_drop, List.getElem?_replicate,
    getElem?_toList, List.length_append, List.length_take, List.length_replicate, length_toList,
    List.getD_eq_getElem?_getD]
  by_cases hlow : i < offset
  · grind
  · by_cases hhigh : i < offset + length
    · by_cases hb : i - offset < b.length <;> grind
    · grind

end Memory

end ContractHost
