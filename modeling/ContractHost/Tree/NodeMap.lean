import ContractHost.Path.Layout

/-!
# Finite maps from paths to byte strings

`get?_insert` and `get?_erase` say what an update does to the look-up at every path; paths are compared as they
are, unresolved.
-/

namespace ContractHost

structure NodeMap where
  entries : List (Path × Bytes)
  nodup : (entries.map Prod.fst).Nodup := by decide

namespace NodeMap

def empty : NodeMap := ⟨[], List.nodup_nil⟩

/-- The value at `p`. -/
def get? (m : NodeMap) (p : Path) : Option Bytes := m.entries.lookup p

def size (m : NodeMap) : Nat := m.entries.length

/-- Takes the entry at `p` away, if there is one. -/
def erase (m : NodeMap) (p : Path) : NodeMap :=
  ⟨m.entries.filter fun e => e.1 ≠ p, m.nodup.sublist (List.filter_sublist.map _)⟩

/-- Puts `value` at `p`, in the place of any earlier value. -/
def insert (m : NodeMap) (p : Path) (value : Bytes) : NodeMap :=
  ⟨(p, value) :: (m.erase p).entries, by
    rw [List.map_cons, List.nodup_cons]
    refine ⟨fun h => ?_, (m.erase p).nodup⟩
    obtain ⟨e, he, hp⟩ := List.mem_map.1 h
    have := (List.mem_filter.1 he).2
    simp [hp] at this⟩

def ofList (entries : List (Path × Bytes)) : NodeMap := entries.foldl (fun m e => m.insert e.1 e.2) empty

/-- Writes the fields of an account. -/
def insertAccount (m : NodeMap) (a : Address) (balance : Amount) (nonce : UInt64) (code : Bytes) : NodeMap :=
  ((m.insert (.balanceOf (.account a)) balance.toBytes).insert (.nonceOf (.account a))
    (Bytes.ofNat 8 nonce.toNat)).insert (.codeOf (.account a)) code

@[simp] theorem get?_empty (q : Path) : empty.get? q = none := rfl

private theorem lookup_cons_ite (k q : Path) (v : Bytes) (l : List (Path × Bytes)) :
    ((k, v) :: l).lookup q = if q = k then some v else l.lookup q := by
  by_cases h : q = k
  · simp [h]
  · rw [List.lookup_cons, beq_false_of_ne h]
    simp [h]

private theorem lookup_filter_ne (l : List (Path × Bytes)) (p q : Path) :
    (l.filter fun e => e.1 ≠ p).lookup q = if q = p then none else l.lookup q := by
  induction l with
  | nil => simp
  | cons e l ih =>
    obtain ⟨k, v⟩ := e
    rw [List.filter_cons, lookup_cons_ite]
    by_cases hk : k = p
    · rw [if_neg (by simpa using hk), ih, hk]
      split <;> simp_all
    · rw [if_pos (by simpa using hk), lookup_cons_ite, ih]
      split <;> simp_all

@[simp] theorem get?_erase (m : NodeMap) (p q : Path) :
    (m.erase p).get? q = if q = p then none else m.get? q :=
  lookup_filter_ne m.entries p q

@[simp] theorem get?_insert (m : NodeMap) (p q : Path) (value : Bytes) :
    (m.insert p value).get? q = if q = p then some value else m.get? q := by
  rw [get?, insert, lookup_cons_ite]
  split
  · rfl
  · rename_i h
    exact (get?_erase m p q).trans (if_neg h)

end NodeMap

end ContractHost
