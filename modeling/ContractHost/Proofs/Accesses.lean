import ContractHost.Proofs.Encoding
import ContractHost.Proofs.Extent

/-!
# Reading and writing the memory

An access to the memory is carried out exactly if all of its bytes lie inside, counted with numbers that have no end,
and is a fault otherwise (`Host.Reads`, `Host.Lays`).  A read changes nothing, and gives the bytes as they are, as a
string of a fixed size such as an address or a word, or as the number that sixteen of them spell, the highest first.

A write puts its bytes over those that were there, and a fault leaves them alone.  So after any number of writes the
memory is as large as before and each byte is the one that the last write to reach it has put there
(`Memory.lastByte`, `Host.overwriteAll_eq`), and this is what a read finds (`Host.accesses_in_bounds`).
-/

namespace ContractHost

/-- A write to the memory. -/
inductive Memory.Edit
  | write (offset : UInt32) (b : Bytes)
  /-- As many bytes as `length` says: those of `b`, and then zeros. -/
  | fill (offset length : UInt32) (b : Bytes)

namespace Memory

def Edit.offset : Edit → UInt32
  | write offset _ => offset
  | fill offset _ _ => offset

/-- The bytes that come to lie in the memory. -/
def Edit.bytes : Edit → Bytes
  | write _ b => b
  | fill _ length b => Bytes.padTo length.toNat b

/-- What the write puts at `i` in a memory of `size` bytes: nothing unless it lies inside and reaches there. -/
def Edit.byte? (size : Nat) (e : Edit) (i : Nat) : Option UInt8 :=
  if e.offset.toNat + e.bytes.length ≤ size ∧ e.offset.toNat ≤ i then e.bytes[i - e.offset.toNat]? else none

/-- What is at `i` after the writes: what the last of them to reach there has put there, or else what was there
before. -/
def lastByte (M : Memory) (edits : List Edit) (i : Nat) : UInt8 :=
  (edits.reverse.findSome? fun e => e.byte? M.size i).getD (M.get i)

/-- The bytes from `offset` on. -/
def slice (M : Memory) (offset length : Nat) : Bytes := (List.range' offset length).map M.get

end Memory

namespace Host

variable {τ κ : Type} {α : Type}

/-- Makes the write. -/
def overwrite : Memory.Edit → Host τ κ Unit
  | .write offset b => writeBytes offset b
  | .fill offset length b => writePadded offset length b

/-- Makes the writes one after the other, whether or not those before were carried out. -/
def overwriteAll (f : Frame τ κ) (edits : List Memory.Edit) : Frame τ κ :=
  edits.foldl (fun f e => after (overwrite e) f) f

/-- On `f`, the read `x` of `length` bytes from `offset` on gives what `P` says of these bytes, and is a fault if they
do not all lie inside the memory. -/
structure Reads (offset : UInt32) (length : Nat) (P : Bytes → α → Prop) (x : Host τ κ α) (f : Frame τ κ) : Prop where
  inside : offset.toNat + length ≤ f.memory.size → ∃ a, x f = .ok a f ∧ P (f.memory.slice offset.toNat length) a
  outside : f.memory.size < offset.toNat + length → x f = .error (.trap .memoryFault) f

/-- On `f`, the write puts its bytes over those that are there, and is a fault if they do not all lie inside the
memory. -/
structure Lays (e : Memory.Edit) (f : Frame τ κ) : Prop where
  inside : e.offset.toNat + e.bytes.length ≤ f.memory.size →
    ∃ M, overwrite e f = .ok () { f with memory := M } ∧ f.memory.Overlaid e.offset.toNat e.bytes M
  outside : f.memory.size < e.offset.toNat + e.bytes.length → overwrite e f = .error (.trap .memoryFault) f

/-! ### Reads -/

theorem reads_view {length : Nat} {P : Bytes → α → Prop} {decode : Bytes → Option α}
    (hdecode : ∀ b : Bytes, b.length = length → ∃ a, decode b = some a ∧ P b a) (offset : UInt32) (f : Frame τ κ) :
    Reads offset length P (view fun M => (M.read? offset length).bind decode) f where
  inside h := by
    have hread : f.memory.read? offset length = some (f.memory.slice offset.toNat length) := if_pos h
    have hlength : (f.memory.slice offset.toNat length).length = length := by
      rw [Memory.slice, List.length_map, List.length_range']
    obtain ⟨a, ha, hP⟩ := hdecode _ hlength
    refine ⟨a, view_of_some ?_, hP⟩
    rw [hread, Option.bind_some, ha]
  outside h := by
    have hread : f.memory.read? offset length = none := if_neg (Nat.not_le.2 h)
    refine view_of_none ?_
    rw [hread, Option.bind_none]

theorem reads_readBytes (offset length : UInt32) (f : Frame τ κ) :
    Reads offset length.toNat (fun b a => a = b) (readBytes offset length) f := by
  have hview : (view fun M => (M.read? offset length.toNat).bind some : Host τ κ Bytes) = readBytes offset length := by
    simp only [Option.bind_fun_some]
    rfl
  rw [← hview]
  exact reads_view (P := fun b a => a = b) (fun b _ => ⟨b, rfl, rfl⟩) offset f

theorem reads_readVector (n : Nat) (offset : UInt32) (f : Frame τ κ) :
    Reads offset n (fun b (v : Vector UInt8 n) => v.toList = b) (view (·.readVector? n offset)) f := by
  refine reads_view (fun b hb => ?_) offset f
  have hvector : Bytes.toVector? n b = some _ := dif_pos hb
  exact ⟨_, hvector, Bytes.toVector?_eq_some_iff.1 hvector⟩

theorem reads_readAmount (offset : UInt32) (f : Frame τ κ) :
    Reads offset 16 (fun b v => v.toNat = Nat.ofDigits 256 (b.reverse.map UInt8.toNat)) (readAmount offset) f := by
  refine reads_view (fun b hb => ?_) offset f
  obtain ⟨v, hv, hnat⟩ := Amount.ofBytes?_of_le (Nat.le_of_eq hb)
  exact ⟨v, hv, hnat.trans b.toNat_eq_ofDigits⟩

/-! ### Writes -/

theorem overwrite_lays (e : Memory.Edit) (f : Frame τ κ) : Lays e f := by
  cases e with
  | write offset b =>
    obtain ⟨hfault, hdone⟩ := writeBytes_cases offset b f
    exact ⟨hdone, hfault⟩
  | fill offset length b =>
    have hlength : (Memory.Edit.fill offset length b).bytes.length = length.toNat := Bytes.length_padTo ..
    obtain ⟨hfault, hdone⟩ := writePadded_cases offset length b f
    refine ⟨fun h => hdone ?_, fun h => hfault ?_⟩
    · rwa [hlength] at h
    · rwa [hlength] at h

end Host

/-- Of each byte there is only to be asked whether the write reaches it. -/
theorem Memory.Overlaid.get_eq {M M' : Memory} {e : Memory.Edit} (h : M.Overlaid e.offset.toNat e.bytes M')
    (hfits : e.offset.toNat + e.bytes.length ≤ M.size) (i : Nat) :
    M'.get i = (e.byte? M.size i).getD (M.get i) := by
  unfold Edit.byte?
  by_cases hbefore : e.offset.toNat ≤ i
  · rw [if_pos ⟨hfits, hbefore⟩]
    by_cases hreached : i - e.offset.toNat < e.bytes.length
    · have hbyte := h.bytes (i - e.offset.toNat) hreached
      rw [Nat.add_sub_cancel' hbefore] at hbyte
      rw [hbyte, List.getElem?_eq_getElem hreached, Option.getD_some]
    · rw [List.getElem?_eq_none (Nat.not_lt.1 hreached), Option.getD_none]
      exact h.outside i (.inr (by dsimp only; omega))
  · rw [if_neg fun hand => hbefore hand.2, Option.getD_none]
    exact h.outside i (.inl (Nat.not_le.1 hbefore))

/-- What was written is there. -/
theorem Memory.Overlaid.slice_eq {M M' : Memory} {offset : Nat} {b : Bytes} (h : M.Overlaid offset b M') :
    M'.slice offset b.length = b := by
  apply List.ext_getElem
  · rw [slice, List.length_map, List.length_range']
  · intro i _ hi
    simp only [slice, List.getElem_map, List.getElem_range', Nat.one_mul]
    exact h.bytes i hi

namespace Host

variable {τ κ : Type}

/-- What one write does to the memory, whether or not it is carried out. -/
theorem after_overwrite (e : Memory.Edit) (f : Frame τ κ) :
    ∃ M, after (overwrite e) f = { f with memory := M } ∧ M.size = f.memory.size ∧
      ∀ i, M.get i = (e.byte? f.memory.size i).getD (f.memory.get i) := by
  have hlays := overwrite_lays e f
  rcases Nat.lt_or_ge f.memory.size (e.offset.toNat + e.bytes.length) with hout | hfits
  · refine ⟨f.memory, after_error (hlays.outside hout), rfl, fun i => ?_⟩
    rw [Memory.Edit.byte?, if_neg fun hand => Nat.not_le.2 hout hand.1, Option.getD_none]
  · obtain ⟨M, hok, hoverlaid⟩ := hlays.inside hfits
    exact ⟨M, after_ok hok, hoverlaid.size, hoverlaid.get_eq hfits⟩

/-- After any number of writes each byte is the last that was put there. -/
theorem overwriteAll_eq (f : Frame τ κ) (edits : List Memory.Edit) :
    ∃ M, overwriteAll f edits = { f with memory := M } ∧ M.size = f.memory.size ∧
      ∀ i, M.get i = f.memory.lastByte edits i := by
  induction edits generalizing f with
  | nil => exact ⟨f.memory, rfl, rfl, fun _ => rfl⟩
  | cons e edits ih =>
    obtain ⟨M, hfirst, hsize, hget⟩ := after_overwrite e f
    obtain ⟨M', hrest, hsize', hget'⟩ := ih { f with memory := M }
    refine ⟨M', ?_, hsize'.trans hsize, fun i => ?_⟩
    · rw [overwriteAll, List.foldl_cons, hfirst]
      exact hrest
    · -- A byte that none of the others reaches is the one that this write has left there.
      rw [hget', Memory.lastByte, Memory.lastByte, List.reverse_cons, List.findSome?_append, hsize, hget]
      cases edits.reverse.findSome? fun e => e.byte? f.memory.size i with
      | some d => rfl
      | none => simp

/-- Every access is carried out exactly if it lies inside the memory, and a read finds what was written last. -/
theorem accesses_in_bounds (f : Frame τ κ) :
    (∀ offset length : UInt32, Reads offset length.toNat (fun b a => a = b) (readBytes offset length) f) ∧
    (∀ (n : Nat) (offset : UInt32),
      Reads offset n (fun b (v : Vector UInt8 n) => v.toList = b) (view (·.readVector? n offset)) f) ∧
    (∀ offset : UInt32, Reads offset 20 (fun b a => a.toList = b) (readAddress offset) f ∧
      Reads offset 32 (fun b w => w.toList = b) (readWord offset) f ∧
      Reads offset 16 (fun b v => v.toNat = Nat.ofDigits 256 (b.reverse.map UInt8.toNat)) (readAmount offset) f) ∧
    (∀ e : Memory.Edit, Lays e f) ∧
    (∀ edits : List Memory.Edit, ∃ M, overwriteAll f edits = { f with memory := M } ∧ M.size = f.memory.size ∧
      ∀ offset length : UInt32, offset.toNat + length.toNat ≤ M.size →
        readBytes offset length { f with memory := M } =
          .ok ((List.range' offset.toNat length.toNat).map (f.memory.lastByte edits)) { f with memory := M }) ∧
    ∀ (offset length : UInt32) (b : Bytes), b.length = length.toNat → offset.toNat + b.length ≤ f.memory.size →
      ∃ M, (do writeBytes offset b; readBytes offset length) f = .ok b { f with memory := M } := by
  refine ⟨fun offset length => reads_readBytes offset length f, fun n offset => reads_readVector n offset f,
    fun offset => ⟨reads_readVector 20 offset f, reads_readVector 32 offset f, reads_readAmount offset f⟩,
    fun e => overwrite_lays e f, fun edits => ?_, fun offset length b hlength hfits => ?_⟩
  · obtain ⟨M, hall, hsize, hget⟩ := overwriteAll_eq f edits
    refine ⟨M, hall, hsize, fun offset length hinside => ?_⟩
    obtain ⟨a, hread, ha⟩ := (reads_readBytes offset length { f with memory := M }).inside hinside
    rw [hread, ha, Memory.slice, List.map_congr_left fun i _ => hget i]
  · obtain ⟨M, hwrite, hoverlaid⟩ := (overwrite_lays (.write offset b) f).inside hfits
    have hslice : M.slice offset.toNat b.length = b := hoverlaid.slice_eq
    have hinside : offset.toNat + length.toNat ≤ M.size := by rw [hoverlaid.size, ← hlength]; exact hfits
    obtain ⟨a, hread, ha⟩ := (reads_readBytes offset length { f with memory := M }).inside hinside
    refine ⟨M, (bind_ok hwrite _).trans (hread.trans ?_)⟩
    rw [ha, ← hlength, hslice]

private def scribbler : Frame Unit Unit :=
  .start { callee := .root, sender := .root, origin := .root, gas := 0 } () () (.zeros 4)

/-- Writes one over the other, among them one that finds no room; nothing at all, at the end of the memory and behind
it; and two bytes whose offsets are not all of 32 bits. -/
theorem accesses_in_bounds_overlapping :
    (∃ M, overwriteAll scribbler [.fill 0 4 [9], .write 2 [5, 6, 7], .write 1 [7, 8]] = { scribbler with memory := M } ∧
      readBytes 0 4 { scribbler with memory := M } = .ok [9, 7, 8, 0] { scribbler with memory := M }) ∧
    (∃ M, overwrite (.write 4 []) scribbler = .ok () { scribbler with memory := M }) ∧
    overwrite (.write 5 []) scribbler = .error (.trap .memoryFault) scribbler ∧
    readBytes 4294967295 2 scribbler = .error (.trap .memoryFault) scribbler ∧
    ∃ M, (do writeBytes 2 [1, 2]; readBytes 2 2) scribbler = .ok [1, 2] { scribbler with memory := M } := by
  obtain ⟨hread, -, -, hlays, hall, hback⟩ := accesses_in_bounds scribbler
  refine ⟨?_, ?_, (hlays (.write 5 [])).outside (by decide), (hread 4294967295 2).outside (by decide),
    hback 2 2 [1, 2] (by decide) (by decide)⟩
  · obtain ⟨M, hall, hsize, hread⟩ := hall [.fill 0 4 [9], .write 2 [5, 6, 7], .write 1 [7, 8]]
    have hbytes : (List.range' 0 4).map
        (scribbler.memory.lastByte [.fill 0 4 [9], .write 2 [5, 6, 7], .write 1 [7, 8]]) = [9, 7, 8, 0] := by
      decide +kernel
    refine ⟨M, hall, (hread 0 4 ?_).trans ?_⟩
    · rw [hsize]
      decide
    · rw [← hbytes]
      rfl
  · obtain ⟨M, hok, -⟩ := (hlays (.write 4 [])).inside (by decide)
    exact ⟨M, hok⟩

end Host

end ContractHost
