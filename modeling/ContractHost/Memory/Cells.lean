/-!
# Cells of memory

A row of bytes without an end, one byte for each number, of which all but finitely many are zero.  It is kept in
pages, and what lies behind the written part of a page, or behind the last page, is zero; so a large row costs no
more than what was written of it.  `get_set` and `get_clear` say what a change does to every cell.
-/

namespace ContractHost

/-- The bytes of one page as far as they were written. -/
structure Page where
  bytes : ByteArray

namespace Page

def empty : Page := ⟨.empty⟩

def zeros (length : Nat) : ByteArray := ⟨Array.replicate length 0⟩

def get (p : Page) (i : Nat) : UInt8 := if h : i < p.bytes.size then p.bytes[i] else 0

def set (p : Page) (i : Nat) (d : UInt8) : Page :=
  if h : i < p.bytes.size then ⟨p.bytes.set i d⟩ else ⟨(p.bytes ++ zeros (i - p.bytes.size)).push d⟩

/-- Sets the bytes from `start` on and before `stop` to zero. -/
def clear (p : Page) (start stop : Nat) : Page :=
  if start < stop ∧ start < p.bytes.size then
    ⟨p.bytes.extract 0 start ++ zeros (min stop p.bytes.size - start) ++ p.bytes.extract stop p.bytes.size⟩
  else p

private theorem get_eq (p : Page) (i : Nat) : p.get i = p.bytes.data[i]?.getD 0 := by
  unfold get
  split
  · rename_i h
    rw [Array.getElem?_eq_getElem h]
    rfl
  · rename_i h
    rw [Array.getElem?_eq_none (Nat.not_lt.1 h)]
    rfl

@[simp] theorem get_empty (i : Nat) : empty.get i = 0 := rfl

theorem get_set (p : Page) (i j : Nat) (d : UInt8) : (p.set i d).get j = if j = i then d else p.get j := by
  rw [get_eq, get_eq]
  unfold set
  split
  · rename_i h
    rw [ByteArray.data_set, Array.getElem?_set]
    have := ByteArray.size_data (a := p.bytes)
    grind
  · rename_i h
    rw [ByteArray.data_push, ByteArray.data_append]
    have := ByteArray.size_data (a := p.bytes)
    simp only [zeros, Array.getElem?_push, Array.getElem?_append, Array.getElem?_replicate, Array.size_append,
      Array.size_replicate]
    grind

theorem get_clear (p : Page) (start stop i : Nat) :
    (p.clear start stop).get i = if start ≤ i ∧ i < stop then 0 else p.get i := by
  rw [get_eq, get_eq]
  have := ByteArray.size_data (a := p.bytes)
  unfold clear
  split
  · simp only [zeros, ByteArray.data_append, ByteArray.data_extract, Array.getElem?_append, Array.getElem?_extract,
      Array.getElem?_replicate, Array.size_append, Array.size_extract, Array.size_replicate]
    grind
  · grind

end Page

structure Cells where
  pages : Array Page

namespace Cells

/-- The number of bytes in a page. -/
def pageSize : Nat := 65536

/-- Zero everywhere. -/
def blank : Cells := ⟨#[]⟩

def page (c : Cells) (k : Nat) : Page := c.pages.getD k .empty

def get (c : Cells) (i : Nat) : UInt8 := (c.page (i / pageSize)).get (i % pageSize)

def set (c : Cells) (i : Nat) (d : UInt8) : Cells :=
  let k := i / pageSize
  let pages := if k < c.pages.size then c.pages else c.pages ++ Array.replicate (k + 1 - c.pages.size) .empty
  ⟨pages.modify k (·.set (i % pageSize) d)⟩

/-- Sets `length` cells from `offset` on to zero. -/
def clear (c : Cells) (offset length : Nat) : Cells :=
  ⟨c.pages.mapIdx fun k p => p.clear (offset - k * pageSize) (offset + length - k * pageSize)⟩

@[simp] theorem get_blank (i : Nat) : blank.get i = 0 := by simp [blank, get, page]

private theorem page_set (c : Cells) (i k : Nat) (d : UInt8) :
    (c.set i d).page k = if k = i / pageSize then (c.page k).set (i % pageSize) d else c.page k := by
  simp only [page, set, Array.getD_eq_getD_getElem?, Array.getElem?_modify]
  by_cases hsize : i / pageSize < c.pages.size
  · simp only [hsize, if_true]
    grind
  · simp only [hsize, if_false, Array.getElem?_append, Array.getElem?_replicate]
    grind

theorem get_set (c : Cells) (i j : Nat) (d : UInt8) : (c.set i d).get j = if j = i then d else c.get j := by
  rw [get, page_set, get]
  have hi := Nat.div_add_mod i pageSize
  have hj := Nat.div_add_mod j pageSize
  split
  · rename_i h
    rw [Page.get_set]
    rw [h] at hj
    have : j % pageSize = i % pageSize ↔ j = i := by omega
    simp only [this, h]
  · rename_i h
    rw [if_neg (by rintro rfl; exact h rfl)]

private theorem page_clear (c : Cells) (offset length k : Nat) :
    (c.clear offset length).page k =
      (c.page k).clear (offset - k * pageSize) (offset + length - k * pageSize) := by
  simp only [page, clear, Array.getD_eq_getD_getElem?, Array.getElem?_mapIdx]
  cases c.pages[k]? with
  | none => simp [Page.clear, Page.empty]
  | some p => rfl

theorem get_clear (c : Cells) (offset length i : Nat) :
    (c.clear offset length).get i = if offset ≤ i ∧ i < offset + length then 0 else c.get i := by
  rw [get, page_clear, Page.get_clear, get]
  have hi := Nat.div_add_mod i pageSize
  rw [Nat.mul_comm] at hi
  have : (offset - i / pageSize * pageSize ≤ i % pageSize ∧
      i % pageSize < offset + length - i / pageSize * pageSize) ↔ (offset ≤ i ∧ i < offset + length) := by omega
  simp only [this]

end Cells

end ContractHost
