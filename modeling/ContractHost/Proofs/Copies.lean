import ContractHost.Proofs.Exchange
import ContractHost.Proofs.Extent
import ContractHost.Proofs.Locations
import ContractHost.Proofs.Price

/-!
# Copies into memory

A copy puts a window of the data of the message, or of the code of an account, into the memory, with zeros where the
window reaches beyond the source; code that the tree does not give is empty (`Request.source?`).  A copy that can pay,
and has a source, is carried out unless there are bytes to be copied to where there is no memory for them
(`copy_window`).  The operations for the running code and for 256 bits of the data are cases of the general ones, at
another price (`general_agree`).
-/

namespace ContractHost

/-! ### Windows -/

namespace Bytes

/-- No bound is cut back in vain: a window is what its name says. -/
theorem window_eq {source : Bytes} {offset length : UInt64}
    (h : source.length < UInt64.size ∨ offset.toNat + length.toNat < UInt64.size) :
    window source offset length = (source.drop offset.toNat).take length.toNat := by
  unfold window
  rcases Nat.lt_or_ge source.length offset.toNat with hbehind | hinside
  · rw [List.drop_eq_nil_of_le (Nat.le_of_lt hbehind), List.take_nil, Nat.min_eq_right (Nat.le_of_lt hbehind),
      List.extract_eq_take_drop, List.drop_length, List.take_nil]
  · rw [Nat.min_eq_left hinside, List.extract_eq_take_drop, List.take_eq_take_iff, List.length_drop]
    have hsize : 0 < UInt64.size := by decide
    omega

theorem getElem?_window {source : Bytes} {offset length : UInt64} {i : Nat}
    (h : offset.toNat + length.toNat < UInt64.size) (hi : i < length.toNat) :
    (window source offset length)[i]? = source[offset.toNat + i]? := by
  rw [window_eq (.inr h), List.getElem?_take_of_lt hi, List.getElem?_drop]

theorem getElem_padTo {b : Bytes} {n i : Nat} (hi : i < (padTo n b).length) : (padTo n b)[i] = b[i]?.getD 0 := by
  rw [length_padTo] at hi
  rcases Nat.lt_or_ge i b.length with hb | hb
  · simp only [padTo, List.getElem_append, List.length_take, List.getElem_take, List.getElem?_eq_getElem hb]
    rw [dif_pos (by omega)]
    rfl
  · simp only [padTo, List.getElem_append, List.length_take, List.getElem_replicate, List.getElem?_eq_none hb]
    rw [dif_neg (by omega)]
    rfl

end Bytes

/-- What a copy is told: where the bytes go, where they begin in the source, and how many they are. -/
structure Excerpt where
  result : UInt32
  offset : UInt32
  length : UInt32

/-- There are bytes to be copied to where there is no memory for them. -/
def Excerpt.Overruns (x : Excerpt) (M : Memory) : Prop :=
  0 < x.length.toNat ∧ M.size < x.result.toNat + x.length.toNat

instance (x : Excerpt) (M : Memory) : Decidable (x.Overruns M) := inferInstanceAs (Decidable (_ ∧ _))

/-- `M'` is `M` with the bytes of the source that the excerpt asks for, and zeros for those behind its end. -/
structure Excerpt.Copied (x : Excerpt) (source : Bytes) (M M' : Memory) : Prop where
  size : M'.size = M.size
  inside : ∀ i < x.length.toNat, M'.get (x.result.toNat + i) = source[x.offset.toNat + i]?.getD 0
  outside : ∀ i, i < x.result.toNat ∨ x.result.toNat + x.length.toNat ≤ i → M'.get i = M.get i

/-- Offsets of 32 bits never come near the largest word. -/
theorem Excerpt.Copied.of_overlaid {x : Excerpt} {source : Bytes} {M M' : Memory}
    (h : M.Overlaid x.result.toNat
      (Bytes.padTo x.length.toNat (Bytes.window source x.offset.toUInt64 x.length.toUInt64)) M') :
    x.Copied source M M' := by
  have hlength := Bytes.length_padTo x.length.toNat (Bytes.window source x.offset.toUInt64 x.length.toUInt64)
  have hsum : x.offset.toUInt64.toNat + x.length.toUInt64.toNat < UInt64.size := by
    have hoffset := x.offset.toNat_lt
    have hlength := x.length.toNat_lt
    rw [UInt32.toNat_toUInt64, UInt32.toNat_toUInt64, show UInt64.size = 2 ^ 64 from rfl]
    omega
  refine ⟨h.size, fun i hi => ?_, fun i hi => h.outside i ?_⟩
  · rw [h.bytes i (by rw [hlength]; exact hi), Bytes.getElem_padTo, Bytes.getElem?_window hsum hi]
    rfl
  · rw [hlength]
    exact hi

variable {τ κ : Type}

/-- The code at a path as a tree gives it; where it does not answer, the code is empty. -/
def codeAt [Tree τ] (tree : τ) (p : Path) : Bytes :=
  match (Tree.get tree p).1 with
  | .ok code => code
  | .error _ => []

theorem Reading.value_code [Tree τ] (tree : τ) (p : Path) :
    (Reading.code (Tree.get tree p).1).value = codeAt tree p := by
  unfold codeAt
  cases (Tree.get tree p).1 <;> rfl

namespace Request

/-- The excerpt that the request asks for, if it is a copy. -/
def excerpt? : Request → Option Excerpt
  | callDataCopy result offset length | codeCopy result offset length | externalCodeCopy _ result offset length =>
    some ⟨result, offset, length⟩
  | _ => none

/-- What a copy takes its bytes from: the data of the message, or the code of an account.  There is none if the address
of the account does not lie inside the memory. -/
def source? [Tree τ] (m : Message) (f : Frame τ κ) : Request → Option Bytes
  | callDataCopy .. => some m.data
  | codeCopy .. => some (codeAt f.tree m.callee)
  | externalCodeCopy address .. =>
    (f.memory.readVector? 20 address).map fun target => codeAt f.tree (.codeOf (m.callee.sibling target))
  | _ => none

end Request

namespace Host

variable {f g : Frame τ κ}

/-- Who can pay goes on with what is left. -/
theorem silently_charge {amount : UInt64} {x : Host τ κ Unit} (h : amount.toNat ≤ f.meter.remaining.toNat) :
    silently (do charge amount; x) f = silently x (f.spend amount.toNat) :=
  silently_congr (bind_ok (charge_of_le h) _)

/-! ### Copying -/

/-- A window is copied, unless that is a fault. -/
theorem copyWindow_cases {source : Host τ κ Bytes} {b : Bytes} (x : Excerpt) (hsource : source f = .ok b g)
    (hmemory : g.memory = f.memory) :
    (x.Overruns f.memory →
      ∃ h, copyWindow source x.result x.offset x.length f = .error (.trap .memoryFault) h) ∧
    (¬ x.Overruns f.memory →
      ∃ h, copyWindow source x.result x.offset x.length f = .ok () h ∧ x.Copied b f.memory h.memory) := by
  unfold copyWindow Excerpt.Overruns
  by_cases hzero : x.length = 0
  · have hlength : x.length.toNat = 0 := congrArg UInt32.toNat hzero
    rw [if_neg (not_not_intro hzero)]
    refine ⟨fun hout => absurd hlength (Nat.ne_of_gt hout.1), fun _ => ⟨f, rfl, rfl, fun i hi => ?_, fun _ _ => rfl⟩⟩
    rw [hlength] at hi
    exact absurd hi (Nat.not_lt_zero i)
  · have hlength : 0 < x.length.toNat := Nat.pos_of_ne_zero fun h => hzero (UInt32.toNat_inj.1 h)
    rw [if_pos hzero, bind_ok hsource, ← hmemory]
    obtain ⟨hfault, hdone⟩ :=
      writePadded_cases x.result x.length (Bytes.window b x.offset.toUInt64 x.length.toUInt64) g
    refine ⟨fun hout => ⟨g, hfault hout.2⟩, fun hin => ?_⟩
    obtain ⟨memory, hok, hoverlaid⟩ := hdone (Nat.not_lt.1 fun hlt => hin ⟨hlength, hlt⟩)
    exact ⟨_, hok, .of_overlaid hoverlaid⟩

variable [Tree τ] [Kernel κ] {m : Message} {r : Request} {x : Excerpt}

/-- A copy first pays, then finds its source, if it is to be found, and puts it into the memory. -/
theorem serve_copy (m : Message) (f : Frame τ κ) (hx : r.excerpt? = some x) :
    ∃ (amount : UInt64) (rest : Host τ κ Unit),
      amount.toNat = r.surcharge m f ∧ serve m r = silently (do charge amount; rest) ∧
      (r.source? m f = none → rest (f.spend amount.toNat) = .error (.trap .memoryFault) (f.spend amount.toNat)) ∧
      ∀ b, r.source? m f = some b → ∃ (source : Host τ κ Bytes) (g : Frame τ κ),
        source (f.spend amount.toNat) = .ok b g ∧ g.memory = f.memory ∧
        rest (f.spend amount.toNat) = copyWindow source x.result x.offset x.length (f.spend amount.toNat) := by
  cases r with
  | callDataCopy result offset length =>
    obtain rfl := Option.some.inj hx
    refine ⟨_, _, Gas.toNat_copyCost _, rfl, fun h => absurd h (Option.some_ne_none _), fun b hb => ?_⟩
    obtain rfl := Option.some.inj hb
    exact ⟨pure m.data, _, rfl, rfl, rfl⟩
  | codeCopy result offset length =>
    obtain rfl := Option.some.inj hx
    refine ⟨_, _, Gas.toNat_copyCost _, rfl, fun h => absurd h (Option.some_ne_none _), fun b hb => ?_⟩
    obtain rfl := Option.some.inj hb
    rw [← Reading.value_code]
    exact ⟨Reading.value <$> lookupOwnCode m.callee, _, rfl, rfl, rfl⟩
  | externalCodeCopy address result offset length =>
    obtain rfl := Option.some.inj hx
    refine ⟨_, _, Gas.toNat_externalCopyCost _, rfl, fun h => ?_, fun b hb => ?_⟩
    · have hnone : f.memory.readVector? 20 address = none := Option.map_eq_none_iff.1 h
      exact bind_error (view_of_none hnone) _
    · obtain ⟨target, htarget, rfl⟩ := Option.map_eq_some_iff.1 hb
      rw [← Reading.value_code]
      exact ⟨Reading.value <$> lookupCode m.callee target, _, rfl, rfl, bind_ok (view_of_some htarget) _⟩
  | _ => cases hx

theorem serve_copy_of_lt (hx : r.excerpt? = some x) (hlt : f.meter.remaining.toNat < r.surcharge m f) :
    serve m r f = .error (.trap .outOfGas) f := by
  obtain ⟨amount, rest, hamount, hserve, -⟩ := serve_copy m f hx
  rw [hserve]
  exact bind_error (bind_error (charge_of_lt (hamount ▸ hlt)) _) _

/-- A copy that can pay is a fault if it has no source, or no memory to copy to, and is carried out otherwise. -/
theorem serve_copy_of_le (hx : r.excerpt? = some x) (hle : r.surcharge m f ≤ f.meter.remaining.toNat) :
    (r.source? m f = none → ∃ g, serve m r f = .error (.trap .memoryFault) g) ∧
    ∀ b, r.source? m f = some b →
      (x.Overruns f.memory → ∃ g, serve m r f = .error (.trap .memoryFault) g) ∧
      (¬ x.Overruns f.memory → ∃ g, serve m r f = .ok none g ∧ x.Copied b f.memory g.memory) := by
  obtain ⟨amount, rest, hamount, hserve, hunread, hread⟩ := serve_copy m f hx
  have hpaid : serve m r f = silently rest (f.spend amount.toNat) := by
    rw [hserve]
    exact silently_charge (hamount ▸ hle)
  rw [hpaid]
  refine ⟨fun hnone => ⟨_, bind_error (hunread hnone) _⟩, fun b hb => ?_⟩
  obtain ⟨source, g, hsource, hmemory, hrest⟩ := hread b hb
  obtain ⟨hfault, hcopied⟩ := copyWindow_cases x hsource hmemory
  refine ⟨fun hout => ?_, fun hin => ?_⟩
  · obtain ⟨k, hk⟩ := hfault hout
    exact ⟨k, bind_error (hrest.trans hk) _⟩
  · obtain ⟨k, hk, hwindow⟩ := hcopied hin
    exact ⟨k, bind_ok (hrest.trans hk) _, hwindow⟩

/-- The price of a copy and its source do not depend on the gas. -/
theorem copy_spend (m : Message) (f : Frame τ κ) (amount : Nat) (hx : r.excerpt? = some x) :
    r.surcharge m (f.spend amount) = r.surcharge m f ∧ r.source? m (f.spend amount) = r.source? m f := by
  cases r with
  | callDataCopy _ _ _ | codeCopy _ _ _ | externalCodeCopy _ _ _ _ => exact ⟨rfl, rfl⟩
  | _ => cases hx

variable {op : Operation} {args : List UInt64}

theorem copied_of_ok {a : Option UInt64} (hr : Request.ofArgs? op args = some r) (hx : r.excerpt? = some x)
    (h : invoke m op args f = .ok a g) :
    ∃ source, r.source? m f = some source ∧ x.Copied source f.memory g.memory := by
  obtain ⟨r', hr', hserve⟩ := of_invoke_ok h
  obtain rfl := Option.some.inj (hr.symm.trans hr')
  obtain ⟨hsurcharge, hsource⟩ := copy_spend m f op.cost.toNat hx
  -- What was carried out had no reason to fail.
  rcases Nat.lt_or_ge (f.spend op.cost.toNat).meter.remaining.toNat (r.surcharge m f) with hlt | hle
  · rw [serve_copy_of_lt hx (hsurcharge ▸ hlt)] at hserve
    cases hserve
  · obtain ⟨hunread, hread⟩ := serve_copy_of_le (m := m) (f := f.spend op.cost.toNat) hx (hsurcharge ▸ hle)
    rw [hsource] at hunread hread
    cases hb : r.source? m f with
    | none =>
      obtain ⟨k, hk⟩ := hunread hb
      rw [hk] at hserve
      cases hserve
    | some b =>
      refine ⟨b, rfl, ?_⟩
      obtain ⟨hfault, hcopied⟩ := hread b hb
      by_cases hout : x.Overruns f.memory
      · obtain ⟨k, hk⟩ := hfault hout
        rw [hk] at hserve
        cases hserve
      · obtain ⟨k, hk, hwindow⟩ := hcopied hout
        rw [hk] at hserve
        cases hserve
        exact hwindow

theorem invoke_copy {source : Bytes} (hrun : f.progress.status = .running) (hr : Request.ofArgs? op args = some r)
    (hx : r.excerpt? = some x) (hsource : r.source? m f = some source)
    (hgas : op.cost.toNat + r.surcharge m f ≤ f.meter.remaining.toNat) :
    (x.Overruns f.memory → failure? (invoke m op args) f = some (.trap .memoryFault)) ∧
    (¬ x.Overruns f.memory → ∃ g, invoke m op args f = .ok none g) := by
  obtain ⟨hsurcharge, hspend⟩ := copy_spend m f op.cost.toNat hx
  have hremaining := f.toNat_remaining_spend op.cost.toNat
  have hinvoke := invoke_of_le (m := m) hrun hr (by omega)
  obtain ⟨hfault, hcopied⟩ := (serve_copy_of_le (f := f.spend op.cost.toNat) hx (by omega)).2 source
    (hspend.trans hsource)
  refine ⟨fun hout => ?_, fun hin => ?_⟩
  · obtain ⟨g, hg⟩ := hfault hout
    exact failure?_error (hinvoke.trans (trapping_trap hg))
  · obtain ⟨g, hg, -⟩ := hcopied hin
    exact ⟨g, hinvoke.trans (trapping_ok hg)⟩

/-- A window of a byte sequence is what its name says, and a copy puts the window of its source into the memory, with
zeros behind the end of the source. -/
theorem copy_window :
    (∀ (source : Bytes) (offset length : UInt64), source.length < UInt64.size →
      Bytes.window source offset length = (source.drop offset.toNat).take length.toNat) ∧
    ∀ (m : Message) (f : Frame τ κ) (op : Operation) (args : List UInt64) (r : Request) (x : Excerpt),
      f.progress.status = .running → Request.ofArgs? op args = some r → r.excerpt? = some x →
      (∀ a g, invoke m op args f = .ok a g →
        ∃ source, r.source? m f = some source ∧ x.Copied source f.memory g.memory) ∧
      ∀ source, r.source? m f = some source → op.cost.toNat + r.surcharge m f ≤ f.meter.remaining.toNat →
        (failure? (invoke m op args) f = some (.trap .memoryFault) ↔ x.Overruns f.memory) ∧
        (¬ x.Overruns f.memory → ∃ g, invoke m op args f = .ok none g) := by
  refine ⟨fun source offset length hlength => Bytes.window_eq (.inl hlength),
    fun m f op args r x hrun hr hx => ⟨fun a g h => copied_of_ok hr hx h, fun source hsource hgas => ?_⟩⟩
  obtain ⟨hfault, hcopied⟩ := invoke_copy (m := m) hrun hr hx hsource hgas
  refine ⟨⟨fun hfail => ?_, hfault⟩, hcopied⟩
  refine Classical.byContradiction fun hin => ?_
  obtain ⟨g, hg⟩ := hcopied hin
  rw [failure?_ok hg] at hfail
  cases hfail

private def reader : Message where
  callee := .accountField .zero "code"
  sender := .root
  origin := .root
  data := [1, 2, 3, 4]
  gas := 100

/-- The code of the reader lies in the tree, and its address in the memory. -/
private def readerStart : Frame NodeTree Script :=
  .start reader { nodes := .ofList [(reader.callee, [5, 6, 7])] } {}
    (.ofBytes (List.replicate 20 0 ++ List.replicate 10 9))

/-- The code is copied with zeros behind its end, by its own path or by the address; where the memory ends, to copy is
a fault. -/
theorem copy_window_crossing :
    (∃ g, invoke reader .codeCopy [22, 1, 4] readerStart = .ok none g ∧
      g.memory.get 21 = 9 ∧ g.memory.get 22 = 6 ∧ g.memory.get 23 = 7 ∧ g.memory.get 24 = 0 ∧ g.memory.get 26 = 9) ∧
    (∃ g, invoke reader .externalCodeCopy [0, 22, 2, 2] readerStart = .ok none g ∧
      g.memory.get 22 = 7 ∧ g.memory.get 23 = 0 ∧ g.memory.get 24 = 9) ∧
    failure? (invoke reader .callDataCopy [27, 3, 4]) readerStart = some (.trap .memoryFault) ∧
    Bytes.window reader.data 3 18446744073709551615 = [4] := by
  obtain ⟨hwindow, hcopy⟩ := copy_window (τ := NodeTree) (κ := Script)
  have hown : Request.ofArgs? .codeCopy [22, 1, 4] = some (.codeCopy 22 1 4) := rfl
  have hexternal : Request.ofArgs? .externalCodeCopy [0, 22, 2, 2] = some (.externalCodeCopy 0 22 2 2) := rfl
  have hdata : Request.ofArgs? .callDataCopy [27, 3, 4] = some (.callDataCopy 27 3 4) := rfl
  refine ⟨?_, ?_, ?_, ?_⟩
  · obtain ⟨hcopied, hdone⟩ := hcopy reader readerStart _ _ _ _ rfl hown rfl
    obtain ⟨g, hg⟩ := (hdone [5, 6, 7] (by decide +kernel) (by decide +kernel)).2 (by decide +kernel)
    obtain ⟨source, hsource, hcopied⟩ := hcopied none g hg
    obtain rfl : [5, 6, 7] = source := Option.some.inj (Eq.trans (by decide +kernel) hsource)
    exact ⟨g, hg, (hcopied.outside 21 (by decide)).trans (by decide +kernel), hcopied.inside 0 (by decide),
      hcopied.inside 1 (by decide), hcopied.inside 2 (by decide),
      (hcopied.outside 26 (by decide)).trans (by decide +kernel)⟩
  · obtain ⟨hcopied, hdone⟩ := hcopy reader readerStart _ _ _ _ rfl hexternal rfl
    obtain ⟨g, hg⟩ := (hdone [5, 6, 7] (by decide +kernel) (by decide +kernel)).2 (by decide +kernel)
    obtain ⟨source, hsource, hcopied⟩ := hcopied none g hg
    obtain rfl : [5, 6, 7] = source := Option.some.inj (Eq.trans (by decide +kernel) hsource)
    exact ⟨g, hg, hcopied.inside 0 (by decide), hcopied.inside 1 (by decide),
      (hcopied.outside 24 (by decide)).trans (by decide +kernel)⟩
  · obtain ⟨-, hdone⟩ := hcopy reader readerStart _ _ _ _ rfl hdata rfl
    exact (hdone reader.data rfl (by decide +kernel)).1.2 (by decide +kernel)
  · exact (hwindow reader.data 3 18446744073709551615 (by decide)).trans (by decide)

/-! ### The same at another price -/

/-- `y` is the answer and the frame of `x`, only that `amount` more of the gas is gone. -/
structure Dearer (amount : Nat) (x y : Answer × Frame τ κ) : Prop where
  answer : y.1 = x.1
  left : y.2 = x.2.spend amount
  gas : y.2.meter.remaining.toNat + amount = x.2.meter.remaining.toNat

section

variable {α : Type} {P : Effect → Prop} {C : Commit → Prop} {n : Nat}

theorem remaining_of_unpaid {y : Host τ κ α} (hy : Transacts f.memory False P C n y)
    (hrun : f.progress.status = .running) : (after (trapping y) f).meter.remaining = f.meter.remaining := by
  obtain ⟨g, hasked, hend⟩ := hy.ending rfl hrun
  have hprepared : g.meter.remaining = f.meter.remaining := hasked.paid.resolve_left id
  cases hend.trapping with
  | done a h => rw [after_ok h, hprepared]
  | trap why h _ =>
    rw [after_error h]
    exact hprepared
  | commit c a k _ _ h hspared => rw [after_ok h, hspared.remaining, hprepared]
  | refuse c text k _ _ _ h hspared => rw [after_error h, hspared.remaining, hprepared]

/-- Turns that differ only in what they pay beforehand. -/
theorem dearer_of_unpaid {M : Memory} {y : Host τ κ (Option UInt64)} {op op' : Operation} {args args' : List UInt64}
    {amount : Nat} (hy : Transacts g.memory False P C n y) (hP : ∀ message, ¬ P (.send message))
    (hrun : g.progress.status = .running) (hle : amount ≤ g.meter.remaining.toNat)
    (h : invoke m op args { f with memory := M } = trapping y g)
    (h' : invoke m op' args' { f with memory := M } = trapping y (g.spend amount)) :
    Dearer amount (turn m f ⟨M, op, args⟩) (turn m f ⟨M, op', args'⟩) := by
  have hspend : Unnoticed (fun k => k.spend amount) (trapping y) g := by
    rw [Frame.spend_eq]
    exact (hy.unnoticed False.elim hP rfl).trapping
  have hremaining := remaining_of_unpaid hy hrun
  rw [Unnoticed] at hspend
  rw [hspend] at h'
  cases hg : trapping y g with
  | ok a k =>
    rw [hg] at h h'
    rw [turn_of_ok h, turn_of_ok h']
    rw [after_ok hg] at hremaining
    refine ⟨rfl, rfl, ?_⟩
    rw [Frame.toNat_remaining_spend, hremaining]
    omega
  | error e k =>
    rw [hg] at h h'
    rw [turn_of_error h, turn_of_error h']
    rw [after_error hg] at hremaining
    refine ⟨rfl, rfl, ?_⟩
    rw [Frame.toNat_remaining_spend, hremaining]
    omega

end

omit [Kernel κ] in
/-- From its own path the running code finds itself. -/
theorem lookupCode_own {a : Address} (hcallee : m.callee = .ofKeys ["accounts", a.key, "code"]) :
    (lookupCode m.callee a : Host τ κ (Reading Bytes)) = lookupOwnCode m.callee := by
  rw [lookupCode, lookupOwnCode, hcallee, Path.sibling_code]
  rfl

/-- A copy that can pay is served with what is left. -/
theorem invoke_charged {amount : UInt64} {rest : Host τ κ Unit} (hrun : f.progress.status = .running)
    (hr : Request.ofArgs? op args = some r) (hcost : op.cost = 0)
    (hserve : serve m r = silently (do charge amount; rest)) (hle : amount.toNat ≤ f.meter.remaining.toNat) :
    invoke m op args f = trapping (silently rest) (f.spend amount.toNat) := by
  have hinvoke := invoke_of_le (m := m) hrun hr (by rw [hcost]; exact Nat.zero_le _)
  rw [hcost, show (0 : UInt64).toNat = 0 from rfl, Frame.spend_zero] at hinvoke
  rw [hinvoke, hserve]
  exact trapping_congr (silently_charge hle)

section

variable {M : Memory} {a : Address} {address : UInt64}

theorem codeSize_agree (hcallee : m.callee = .ofKeys ["accounts", a.key, "code"])
    (hrun : f.progress.status = .running) (ha : M.readVector? 20 address.toUInt32 = some a)
    (hgas : 20 ≤ f.meter.remaining.toNat) :
    Dearer 18 (turn m f ⟨M, .getCodeSize, []⟩) (turn m f ⟨M, .getExternalCodeSize, [address]⟩) ∧
      ∃ size, (turn m f ⟨M, .getCodeSize, []⟩).1 = .ok (some size) := by
  let found : Frame τ κ := { f with memory := M }
  have hfound : 20 ≤ found.meter.remaining.toNat := hgas
  have hremaining := found.toNat_remaining_spend 2
  have hbase : 2 ≤ found.meter.remaining.toNat := by omega
  have hown : invoke m .getCodeSize [] found = trapping (serve m .getCodeSize) (found.spend 2) :=
    invoke_of_le (f := found) hrun rfl hbase
  have hgeneral : invoke m .getExternalCodeSize [address] found =
      trapping (serve m .getCodeSize) ((found.spend 2).spend 18) := by
    have hinvoke : invoke m .getExternalCodeSize [address] found =
      trapping (serve m (.getExternalCodeSize address.toUInt32)) (found.spend 20) := invoke_of_le hrun rfl hfound
    rw [hinvoke, ← Frame.spend_add]
    refine trapping_congr ((bind_ok (view_of_some ha) _).trans ?_)
    rw [lookupCode_own hcallee]
    rfl
  have hsends (message : Message) : ¬ Request.Asks m M .getCodeSize (.send message) := by simp [Request.Asks]
  exact ⟨dearer_of_unpaid (f := f) (g := found.spend 2) (transacts_serve m M .getCodeSize) hsends hrun (by omega)
    hown hgeneral, _, congrArg Prod.fst (turn_of_ok (hown.trans rfl))⟩

theorem codeCopy_agree (hcallee : m.callee = .ofKeys ["accounts", a.key, "code"])
    (hrun : f.progress.status = .running) (ha : M.readVector? 20 address.toUInt32 = some a)
    (result offset length : UInt64) (hgas : 20 + Request.wordsPrice length.toUInt32 ≤ f.meter.remaining.toNat) :
    Dearer 17 (turn m f ⟨M, .codeCopy, [result, offset, length]⟩)
      (turn m f ⟨M, .externalCodeCopy, [address, result, offset, length]⟩) := by
  let found : Frame τ κ := { f with memory := M }
  let amount := Gas.copyCost length.toUInt32.toUInt64
  let copying : Host τ κ Unit :=
    copyWindow (Reading.value <$> lookupOwnCode m.callee) result.toUInt32 offset.toUInt32 length.toUInt32
  have hfound : 20 + Request.wordsPrice length.toUInt32 ≤ found.meter.remaining.toNat := hgas
  have hamount : amount.toNat = 3 + Request.wordsPrice length.toUInt32 := Gas.toNat_copyCost _
  have hremaining := found.toNat_remaining_spend amount.toNat
  have hown : invoke m .codeCopy [result, offset, length] found =
      trapping (silently copying) (found.spend amount.toNat) := invoke_charged (f := found) hrun rfl rfl rfl (by omega)
  have hgeneral : invoke m .externalCodeCopy [address, result, offset, length] found =
      trapping (silently copying) ((found.spend amount.toNat).spend 17) := by
    have hexternal : (Gas.externalCopyCost length.toUInt32.toUInt64).toNat = amount.toNat + 17 := by
      have hprice : (Gas.externalCopyCost length.toUInt32.toUInt64).toNat = 20 + Request.wordsPrice length.toUInt32 :=
        Gas.toNat_externalCopyCost _
      omega
    have hle : (Gas.externalCopyCost length.toUInt32.toUInt64).toNat ≤ found.meter.remaining.toNat := by omega
    have hr : Request.ofArgs? .externalCodeCopy [address, result, offset, length] =
      some (.externalCodeCopy address.toUInt32 result.toUInt32 offset.toUInt32 length.toUInt32) := rfl
    rw [← Frame.spend_add, ← hexternal]
    refine (invoke_charged (f := found) hrun hr rfl rfl hle).trans (trapping_congr (silently_congr ?_))
    refine (bind_ok (view_of_some ha) _).trans ?_
    rw [lookupCode_own hcallee]
  have hasked : Prepares M False (fun e => e = .get m.callee) 1
      (lookupOwnCode m.callee : Host τ κ (Reading Bytes)) := .lookupOwnCode rfl
  have hshape : Transacts M False (fun e => e = .get m.callee) (fun _ => True) 1 (silently copying) :=
    .silently (.copyWindow (.map hasked _) fun _ _ => trivial)
  exact dearer_of_unpaid (f := f) (g := found.spend amount.toNat) hshape (by simp) hrun (by omega) hown hgeneral

theorem callDataCopy_agree (hrun : f.progress.status = .running) (M : Memory) (result offset : UInt64)
    (hgas : 6 ≤ f.meter.remaining.toNat) :
    Dearer 3 (turn m f ⟨M, .callDataCopy256, [result, offset]⟩)
      (turn m f ⟨M, .callDataCopy, [result, offset, 32]⟩) := by
  let found : Frame τ κ := { f with memory := M }
  let window := Bytes.window m.data offset.toUInt32.toUInt64 32
  let copying : Host τ κ Unit := writePadded result.toUInt32 32 window
  have hfound : 6 ≤ found.meter.remaining.toNat := hgas
  have hremaining := found.toNat_remaining_spend 3
  have hbase : 3 ≤ found.meter.remaining.toNat := by omega
  have hr : Request.ofArgs? .callDataCopy256 [result, offset] =
    some (.callDataCopy256 result.toUInt32 offset.toUInt32) := rfl
  have hspecial : invoke m .callDataCopy256 [result, offset] found = trapping (silently copying) (found.spend 3) :=
    invoke_of_le (f := found) hrun hr hbase
  have hgeneral : invoke m .callDataCopy [result, offset, 32] found =
      trapping (silently copying) ((found.spend 3).spend 3) := by
    have hprice : (Gas.copyCost 32).toNat = 6 := by decide
    have hr : Request.ofArgs? .callDataCopy [result, offset, 32] =
      some (.callDataCopy result.toUInt32 offset.toUInt32 32) := rfl
    have hserve : serve m (.callDataCopy result.toUInt32 offset.toUInt32 32) =
      silently (do charge (Gas.copyCost 32); copying : Host τ κ Unit) := rfl
    have hcharged := invoke_charged (f := found) hrun hr rfl hserve (Nat.le_trans (Nat.le_of_eq hprice) hfound)
    rw [hprice] at hcharged
    rw [← Frame.spend_add]
    exact hcharged
  have hshape : Transacts M False (fun _ => False) (fun _ => True) 0 (silently copying) :=
    .silently (.commit (.fill result.toUInt32 32 window) trivial)
  exact dearer_of_unpaid (f := f) (g := found.spend 3) hshape (fun _ => id) hrun (by omega) hspecial hgeneral

end

/-- The operations for the running code and for 256 bits of the data do the same as the general ones that are told
the address of the code and the number of bytes, for less gas. -/
theorem general_agree {a : Address} (hcallee : m.callee = .ofKeys ["accounts", a.key, "code"]) (f : Frame τ κ)
    (hrun : f.progress.status = .running) {M : Memory} {address : UInt64}
    (ha : M.readVector? 20 address.toUInt32 = some a) :
    (20 ≤ f.meter.remaining.toNat →
      Dearer 18 (turn m f ⟨M, .getCodeSize, []⟩) (turn m f ⟨M, .getExternalCodeSize, [address]⟩) ∧
      ∃ size, (turn m f ⟨M, .getCodeSize, []⟩).1 = .ok (some size)) ∧
    (∀ result offset length : UInt64,
      20 + Request.wordsPrice length.toUInt32 ≤ f.meter.remaining.toNat →
      Dearer 17 (turn m f ⟨M, .codeCopy, [result, offset, length]⟩)
        (turn m f ⟨M, .externalCodeCopy, [address, result, offset, length]⟩)) ∧
    ∀ result offset : UInt64, 6 ≤ f.meter.remaining.toNat →
      Dearer 3 (turn m f ⟨M, .callDataCopy256, [result, offset]⟩)
        (turn m f ⟨M, .callDataCopy, [result, offset, 32]⟩) :=
  ⟨codeSize_agree hcallee hrun ha, codeCopy_agree hcallee hrun ha, callDataCopy_agree hrun M⟩

private def readerAtHome : Frame NodeTree Script :=
  .start reader { nodes := .ofList [(reader.callee, [5, 6, 7])] } {} (.zeros 0)

/-- The code and its size, by its own path and by the address in the memory; and the data across its end. -/
theorem general_agree_reader :
    let after (op : Operation) (args : List UInt64) := turn reader readerAtHome ⟨.zeros 60, op, args⟩
    (after .getExternalCodeSize [0]).1 = .ok (some 3) ∧
    (after .externalCodeCopy [0, 30, 1, 4]).2.memory.get 31 = 7 ∧
    (after .externalCodeCopy [0, 30, 1, 4]).2.meter.remaining.toNat + 17 =
      (after .codeCopy [30, 1, 4]).2.meter.remaining.toNat ∧
    (after .callDataCopy [30, 1, 32]).1 = .error (.trap .memoryFault) := by
  intro after
  have hcallee : reader.callee = .ofKeys ["accounts", Address.zero.key, "code"] := rfl
  have haddress : (Memory.zeros 60).readVector? 20 (0 : UInt64).toUInt32 = some Address.zero := by decide +kernel
  obtain ⟨hsize, hcode, hdata⟩ := general_agree hcallee readerAtHome rfl haddress
  have hcopied := hcode 30 1 4 (by decide +kernel)
  refine ⟨(hsize (by decide +kernel)).1.answer.trans (by decide +kernel), ?_, hcopied.gas,
    (hdata 30 1 (by decide +kernel)).answer.trans (by decide +kernel)⟩
  rw [show (after .externalCodeCopy [0, 30, 1, 4]).2 = _ from hcopied.left]
  decide +kernel

end Host

end ContractHost
