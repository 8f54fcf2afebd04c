import ContractHost.Proofs.JsonText
import ContractHost.Wire

/-!
# What is written can be read

What a value is encoded as is JSON that can be written, and is decoded to the value again (`Lawful`); this goes from
the parts of a value to the whole.  With what is known of JSON texts it follows that a value can be read from its text,
whatever strings, numbers and lists it is made of, that no other value has this text, and that what was read from any
text is read again from the text that is written for it (`round_trip`).
-/

namespace ContractHost

namespace Wire

/-- The value stands for itself on the wire: what it is encoded as can be written, and is decoded to the value. -/
class Lawful (α : Type) [Wire α] : Prop where
  plain_encode (a : α) : (encode a).Plain
  decode?_encode (a : α) : decode? (encode a) = some a

open Lawful (plain_encode decode?_encode)

variable {α : Type}

/-! ### Numbers, texts and lists -/

instance : Lawful UInt8 where
  plain_encode n := .natural _
  decode?_encode n := by
    simp [encode, decode?, natural?, n.toNat_lt_size]

instance : Lawful UInt64 where
  plain_encode n := .natural _
  decode?_encode n := by
    simp [encode, decode?, natural?, n.toNat_lt_size]

instance : Lawful Amount where
  plain_encode v := .natural _
  decode?_encode v := by
    have hlt : v.toNat < Amount.size := v.isLt
    simp [encode, decode?, natural?, hlt]

instance : Lawful Bool where
  plain_encode b := .bool b
  decode?_encode _ := rfl

instance : Lawful String where
  plain_encode s := .string s
  decode?_encode _ := rfl

instance [Wire α] [Lawful α] : Lawful (List α) where
  plain_encode as := .array fun j hj => by
    obtain ⟨a, -, rfl⟩ := List.mem_map.1 hj
    exact plain_encode a
  decode?_encode as := by
    change (as.map encode).mapM decode? = some as
    induction as with
    | nil => rfl
    | cons a as ih => simp [decode?_encode, ih]

instance {n : Nat} : Lawful (Vector UInt8 n) where
  plain_encode v := plain_encode v.toList
  decode?_encode v := by
    have hbytes : (decode? (encode v) : Option Bytes) = some v.toList := decode?_encode v.toList
    change (decode? (encode v) : Option Bytes).bind (Bytes.toVector? n) = some v
    rw [hbytes]
    exact Bytes.toVector?_eq_some_iff.2 rfl

/-- Bytes are no `null`, so they can be told apart from nothing. -/
instance {n : Nat} : Lawful (Option (Vector UInt8 n)) where
  plain_encode
    | some v => plain_encode v
    | none => .null
  decode?_encode
    | some v => congrArg (Option.map some) (decode?_encode v)
    | none => rfl

/-! ### Records and choices -/

private theorem lookup_of_nodup {fields : List (String × Json)} (h : (fields.map Prod.fst).Nodup) :
    ∀ f ∈ fields, fields.lookup f.1 = some f.2 := by
  induction fields with
  | nil =>
    intro f hf
    cases hf
  | cons g r ih =>
    obtain ⟨name, j⟩ := g
    rw [List.map_cons, List.nodup_cons] at h
    intro f hf
    rcases List.mem_cons.1 hf with rfl | hf
    · exact List.lookup_cons_self
    · have hne : f.1 ≠ name := fun heq => h.1 (List.mem_map.2 ⟨f, hf, heq⟩)
      rw [List.lookup_cons, beq_false_of_ne hne]
      exact ih h.2 f hf

/-- A record that is written with all its fields gives them back. -/
theorem fields?_object {names : List String} {fields : List (String × Json)} (hnames : fields.map Prod.fst = names)
    (h : names.Nodup) : fields? names (.object fields) = some (fields.map fun f => some f.2) := by
  subst hnames
  have hknown : (fields.map Prod.fst).filter (· ∈ fields.map Prod.fst) = fields.map Prod.fst :=
    List.filter_eq_self.2 fun name hname => decide_eq_true hname
  rw [fields?, hknown, if_pos h, List.map_map]
  exact congrArg some (List.map_congr_left (lookup_of_nodup h))

/-- A record is read if what stands for its fields makes it up. -/
theorem decode?_record {names : List String} {fields : List (String × Json)} {a : α}
    {build : List (Option Json) → Option α} (hnames : fields.map Prod.fst = names) (h : names.Nodup)
    (hbuild : build (fields.map fun f => some f.2) = some a) :
    (fields? names (.object fields)).bind build = some a := by
  rw [fields?_object hnames h]
  exact hbuild

instance : Lawful Segment where
  plain_encode s := by
    cases s with
    | root | parent => exact .string _
    | key name => exact .object (by simp [plain_encode])
  decode?_encode s := by cases s <;> simp [encode, decode?, case?, name?, List.lookup_cons]

instance : Lawful Path where
  plain_encode p := plain_encode p.segments
  decode?_encode p := congrArg (Option.map Path.mk) (decode?_encode p.segments)

instance : Lawful Block where
  plain_encode b := .object (by simp [plain_encode])
  decode?_encode b := decode?_record rfl (by simp) (by simp [required?, decode?_encode])

instance : Lawful MessageKind where
  plain_encode k := by cases k <;> exact .string _
  decode?_encode k := by cases k <;> simp [encode, decode?, case?, name?, List.lookup_cons]

instance : Lawful Message where
  plain_encode m := .object (by simp [plain_encode])
  decode?_encode m := decode?_record rfl (by simp) (by simp [required?, decode?_encode])

instance : Lawful Response where
  plain_encode r := .object (by simp [plain_encode])
  decode?_encode r := decode?_record rfl (by simp) (by simp [required?, decode?_encode])

instance : Lawful LogEntry where
  plain_encode e := .object (by simp [plain_encode])
  decode?_encode e := decode?_record rfl (by simp) (by simp [required?, decode?_encode])

instance : Lawful Result where
  plain_encode r := .object (by simp [plain_encode])
  decode?_encode r := decode?_record rfl (by simp) (by simp [required?, optional?, decode?_encode])

instance : Lawful Halt where
  plain_encode h := by cases h <;> exact .string _
  decode?_encode h := by cases h <;> simp [encode, decode?, case?, name?, List.lookup_cons]

instance : Lawful Trap where
  plain_encode t := by cases t <;> exact .string _
  decode?_encode t := by cases t <;> simp [encode, decode?, case?, name?, List.lookup_cons]

instance : Lawful Status where
  plain_encode s := by
    cases s with
    | running => exact .string _
    | halted how | trapped why => exact .object (by simp [plain_encode])
  decode?_encode s := by
    cases s with
    | running => simp [encode, decode?, case?, name?]
    | halted how => exact congrArg (Option.map Status.halted) (decode?_encode how)
    | trapped why => exact congrArg (Option.map Status.trapped) (decode?_encode why)

instance : Lawful Outcome where
  plain_encode o := .object (by simp [plain_encode])
  decode?_encode o := decode?_record rfl (by simp) (by simp [required?, decode?_encode])

/-! ### Texts -/

/-- The text of a value is JSON, and stands for the value that it was written for and for no other. -/
structure RoundTrips (α : Type) [Wire α] : Prop where
  parse?_write (a : α) : Json.parse? (write a).toList = some (encode a)
  read?_write (a : α) : read? α (write a) = some a
  write_injective {a b : α} (h : write a = write b) : a = b
  /-- Writing what was read, perhaps from another text, and reading it again changes nothing. -/
  read?_rewrite {s : String} {a : α} (h : read? α s = some a) : read? α (write a) = read? α s

theorem roundTrips (α : Type) [Wire α] [Lawful α] : RoundTrips α := by
  have hparse (a : α) : Json.parse? (write a).toList = some (encode a) := by
    rw [write, String.toList_ofList]
    exact Json.parse?_render (plain_encode a)
  have hread (a : α) : read? α (write a) = some a := by
    rw [read?, hparse]
    exact decode?_encode a
  refine ⟨hparse, hread, fun {a b} h => ?_, fun {s a} h => (hread a).trans h.symm⟩
  have hsame := hread a
  rw [h, hread b] at hsame
  exact (Option.some.inj hsame).symm

/-- Every value that crosses process boundaries is read back from its text, and no other value has it. -/
theorem round_trip :
    RoundTrips Segment ∧ RoundTrips Path ∧ RoundTrips Block ∧ RoundTrips MessageKind ∧ RoundTrips Message ∧
      RoundTrips Response ∧ RoundTrips LogEntry ∧ RoundTrips Result ∧ RoundTrips Outcome ∧ RoundTrips Status ∧
      RoundTrips Halt ∧ RoundTrips Trap :=
  ⟨roundTrips _, roundTrips _, roundTrips _, roundTrips _, roundTrips _, roundTrips _, roundTrips _, roundTrips _,
    roundTrips _, roundTrips _, roundTrips _, roundTrips _⟩

/-- A quote and a control character in the name of a segment. -/
example : write (Segment.key "a\"\x01") = "\x7b\"Key\":\"a\\\"\\u0001\"\x7d" := by decide +kernel

end Wire

end ContractHost
