import ContractHost.Proofs.Steps

/-!
# Slots and their words

What the state tree answers about a slot stands for a word: zero, unless 32 bytes are found.  A slot is in use if
that word is not zero, and this together with the new word decides the class of a write (`classify_slot`).
-/

namespace ContractHost

/-- Whether the answer of the state tree shows a slot in use: a word other than zero. -/
def SlotInUse : Except TreeError Bytes → Prop
  | .ok b => b.length = 32 ∧ b.isZero = false
  | .error _ => False

instance (answer : Except TreeError Bytes) : Decidable (SlotInUse answer) := by
  cases answer <;> unfold SlotInUse <;> infer_instance

theorem isFound_slot_iff (answer : Except TreeError Bytes) :
    ((Reading.slot answer).isFound && !(Reading.slot answer).value.isZero) = true ↔ SlotInUse answer := by
  cases answer with
  | error e => simp [Reading.slot, Reading.ofAnswer, Reading.isFound, SlotInUse]
  | ok b =>
    cases hword : Bytes.toVector? 32 b with
    | none =>
      have hlength : b.length ≠ 32 := fun h => by simp [Bytes.toVector?, h] at hword
      simp [Reading.slot, Reading.ofAnswer, hword, Reading.isFound, SlotInUse, hlength]
    | some w =>
      obtain rfl := Bytes.toVector?_eq_some_iff.1 hword
      simp [Reading.slot, Reading.ofAnswer, hword, Reading.isFound, Reading.value, SlotInUse, Word.isZero]

/-- The word for which the entry of a slot stands. -/
def Word.ofEntry (entry : Option Bytes) : Word := (entry.bind (Bytes.toVector? 32)).getD zero

/-- The entry that is kept for a word. -/
def Word.entry (w : Word) : Option Bytes := if w = zero then none else some w.toList

theorem Word.ofEntry_entry (w : Word) : ofEntry w.entry = w := by
  unfold entry
  split
  · rename_i h
    rw [h]
    rfl
  · have hvector : Bytes.toVector? 32 w.toList = some w := Bytes.toVector?_eq_some_iff.2 rfl
    simp only [ofEntry, Option.bind_some, hvector, Option.getD_some]

/-- Different keys have different slots. -/
theorem Path.slot_injective (p : Path) {k k' : Word} (h : p.slot k = p.slot k') : k = k' := by
  have hsegments := congrArg Path.segments h
  simp only [slot, slotOf, child, List.append_cancel_left_eq, List.cons.injEq, Segment.key.injEq,
    and_true] at hsegments
  exact Word.key_injective hsegments

/-- A write is classified by whether the slot was in use and whether it is to be. -/
theorem classify_slot (answer : Except TreeError Bytes) (v : Word) :
    SlotWrite.classify (.slot answer) v =
      if v = Word.zero then if SlotInUse answer then .clear else .noop
      else if SlotInUse answer then .update else .create := by
  have hused := isFound_slot_iff answer
  have hzero := Word.isZero_iff (w := v)
  unfold SlotWrite.classify
  cases hv : v.isZero <;> cases hu : (Reading.slot answer).isFound && !(Reading.slot answer).value.isZero <;>
    simp_all

theorem classify_slot_eq_create_iff (answer : Except TreeError Bytes) (v : Word) :
    SlotWrite.classify (.slot answer) v = .create ↔ v ≠ Word.zero ∧ ¬ SlotInUse answer := by
  rw [classify_slot]
  by_cases hv : v = Word.zero <;> by_cases hu : SlotInUse answer <;> simp [hv, hu]

/-- Zero stands for all that is not in use. -/
theorem slotInUse_iff_value_ne (answer : Except TreeError Bytes) :
    SlotInUse answer ↔ (Reading.slot answer).value ≠ Word.zero := by
  rw [← isFound_slot_iff, ne_eq, ← Word.isZero_iff]
  have hzero : Word.zero.isZero = true := Word.isZero_iff.2 rfl
  cases answer with
  | error e => simp [Reading.slot, Reading.ofAnswer, Reading.isFound, Reading.value, hzero]
  | ok b =>
    cases hb : Bytes.toVector? 32 b <;>
      simp [Reading.slot, Reading.ofAnswer, hb, Reading.isFound, Reading.value, hzero]

end ContractHost
