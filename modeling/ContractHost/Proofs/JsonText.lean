import ContractHost.Json.Parser

/-!
# Reading back a text

The compact text of a value is read as that value (`parse?_render`), provided that no part of the value is one that
no reader takes (`Plain`).  In the induction a value is read off the front of a longer text, and what comes behind it
must not look like more of a numeral: it is at its end, or goes on with a comma or a closing bracket (`Ends`).
-/

namespace ContractHost.Json

/-- Nothing in the value is `other`. -/
inductive Plain : Json → Prop
  | null : Plain .null
  | bool (b : Bool) : Plain (.bool b)
  | natural (n : Nat) : Plain (.natural n)
  | string (s : String) : Plain (.string s)
  | array {items : List Json} (h : ∀ j ∈ items, Plain j) : Plain (.array items)
  | object {fields : List (String × Json)} (h : ∀ f ∈ fields, Plain f.2) : Plain (.object fields)

/-- What may stand behind a value. -/
def Ends : List Char → Prop
  | [] => True
  | c :: _ => c = ',' ∨ c = ']' ∨ c = '\x7d'

/-- How the text of a value begins: with no blank, and not with what closes an array or an object. -/
def Starts : List Char → Prop
  | [] => False
  | c :: _ => isBlank c = false ∧ c ≠ ']' ∧ c ≠ '\x7d'

theorem skipBlanks_cons {c : Char} (h : isBlank c = false) (r : List Char) : skipBlanks (c :: r) = c :: r := by
  simp [skipBlanks, h]

theorem skipBlanks_of_ends {rest : List Char} (h : Ends rest) : skipBlanks rest = rest := by
  cases rest with
  | nil => rfl
  | cons c r =>
    refine skipBlanks_cons ?_ r
    rcases h with rfl | rfl | rfl <;> rfl

/-! ### Strings -/

private theorem not_half (c : Char) : isHighHalf c.toNat = false ∧ isLowHalf c.toNat = false := by
  have hvalid : c.toNat < 0xD800 ∨ 0xDFFF < c.toNat ∧ c.toNat < 0x110000 := c.valid
  simp only [isHighHalf, isLowHalf, Bool.and_eq_false_iff, decide_eq_false_iff_not]
  omega

theorem characters?_map_toNat (cs : List Char) : characters? (cs.map Char.toNat) = some cs := by
  induction cs with
  | nil => rfl
  | cons c cs ih =>
    obtain ⟨hhigh, hlow⟩ := not_half c
    rw [List.map_cons, characters?.eq_def]
    simp [hhigh, hlow, ih]

/-- How a character is spelled: by a backslash and a letter, by four digits, or by itself. -/
private theorem escape_cases (c : Char) :
    (∃ e, unescape? e = some c ∧ escape c = ['\\', e]) ∨
    (c.toNat < 0x20 ∧
      escape c = ['\\', 'u', '0', '0', Nat.digitChar (c.toNat / 16), Nat.digitChar (c.toNat % 16)]) ∨
    (c ≠ '"' ∧ c ≠ '\\' ∧ 0x20 ≤ c.toNat ∧ escape c = [c]) := by
  unfold escape
  iterate 7
    split
    · subst_vars
      exact .inl ⟨_, rfl, rfl⟩
  split
  · rename_i hcontrol
    exact .inr (.inl ⟨hcontrol, rfl⟩)
  · rename_i hquote hslash _ _ _ _ _ hcontrol
    exact .inr (.inr ⟨hquote, hslash, Nat.not_lt.1 hcontrol, rfl⟩)

private theorem value?_digitChar {n : Nat} (h : n < 16) : Hex.value? (Nat.digitChar n) = some n := by
  revert n
  decide

/-- The code points of a string that begins with a letter behind a backslash. -/
private theorem codePoints_unescape {e c : Char} (h : unescape? e = some c) (r : List Char) :
    codePoints ('\\' :: e :: r) = (codePoints r).map fun p => (c.toNat :: p.1, p.2) := by
  have hu : ∀ a b d f s, e = 'u' → r = a :: b :: d :: f :: s → False := by
    rintro _ _ _ _ _ rfl -
    cases h
  rw [codePoints.eq_3 e r hu, h, Option.map_eq_bind]
  rfl

private theorem codePoints_raw {c : Char} (hquote : c ≠ '"') (hslash : c ≠ '\\') (hc : 0x20 ≤ c.toNat)
    (r : List Char) : codePoints (c :: r) = (codePoints r).map fun p => (c.toNat :: p.1, p.2) := by
  have hlt : ¬ c.toNat < 0x20 := Nat.not_lt.2 hc
  cases hrest : codePoints r <;> simp [codePoints, hslash, hlt, hrest]

theorem codePoints_escape (c : Char) (r : List Char) :
    codePoints (escape c ++ r) = (codePoints r).map fun p => (c.toNat :: p.1, p.2) := by
  rcases escape_cases c with ⟨e, he, hescape⟩ | ⟨hc, hescape⟩ | ⟨hquote, hslash, hc, hescape⟩
  · rw [hescape]
    exact codePoints_unescape he r
  · have hhigh := value?_digitChar (n := c.toNat / 16) (by omega)
    have hlow := value?_digitChar (n := c.toNat % 16) (by omega)
    have hzero : Hex.value? '0' = some 0 := rfl
    have hdigits : 16 * (c.toNat / 16) + c.toNat % 16 = c.toNat := Nat.div_add_mod ..
    cases hrest : codePoints r <;> simp [hescape, codePoints, hhigh, hlow, hzero, hdigits, hrest]
  · rw [hescape]
    exact codePoints_raw hquote hslash hc r

theorem codePoints_quoted (s rest : List Char) : codePoints (quoted s ++ rest) = some (s.map Char.toNat, rest) := by
  induction s with
  | nil => rfl
  | cons c s ih =>
    have hquoted : quoted (c :: s) ++ rest = escape c ++ (quoted s ++ rest) := by simp [quoted]
    rw [hquoted, codePoints_escape, ih]
    rfl

theorem text_quoted (s : String) (rest : List Char) : text (quoted s.toList ++ rest) = some (some s, rest) := by
  simp [text, codePoints_quoted, characters?_map_toNat]

/-! ### Numerals -/

private theorem exists_digit (n : Nat) : ∃ d ds, Nat.toDigits 10 n = d :: ds ∧ d.isDigit = true := by
  obtain ⟨d, ds, hds⟩ := List.exists_cons_of_ne_nil (Nat.toDigits_ne_nil (n := n) (b := 10))
  exact ⟨d, ds, hds, Nat.isDigit_of_mem_toDigits (by decide) (by decide) (hds ▸ List.mem_cons_self)⟩

private theorem digitChar_ne_zero : ∀ n < 10, n ≠ 0 → Nat.digitChar n ≠ '0' := by decide

/-- Only zero is written with a zero in front. -/
private theorem head?_toDigits {n : Nat} (h : n ≠ 0) : (Nat.toDigits 10 n).head? ≠ some '0' := by
  induction n using Nat.strongRecOn with
  | ind n ih =>
    rw [Nat.toDigits_eq_if (by decide)]
    split
    · rename_i hlt
      have hdigit := digitChar_ne_zero n hlt h
      simpa using hdigit
    · have hhead := ih (n / 10) (by omega) (by omega)
      obtain ⟨d, ds, hds, -⟩ := exists_digit (n / 10)
      rw [hds] at hhead ⊢
      exact hhead

private theorem digits_append {ds rest : List Char} (hds : ds ≠ []) (hdigit : ∀ c ∈ ds, c.isDigit = true)
    (h : Ends rest) : digits (ds ++ rest) = some (ds, rest) := by
  have hrest : rest.takeWhile Char.isDigit = [] ∧ rest.dropWhile Char.isDigit = rest := by
    cases rest with
    | nil => exact ⟨rfl, rfl⟩
    | cons c r => rcases h with rfl | rfl | rfl <;> exact ⟨rfl, rfl⟩
  rw [digits, List.takeWhile_append_of_pos hdigit, List.dropWhile_append_of_pos hdigit, hrest.1, hrest.2,
    List.append_nil]
  split
  · contradiction
  · rfl

theorem wholePart_toDigits (n : Nat) {rest : List Char} (h : Ends rest) :
    wholePart (Nat.toDigits 10 n ++ rest) = some (Nat.toDigits 10 n, rest) := by
  have hdigit (c : Char) (hc : c ∈ Nat.toDigits 10 n) : c.isDigit = true :=
    Nat.isDigit_of_mem_toDigits (by decide) (by decide) hc
  have hzero : ¬ ((Nat.toDigits 10 n).head? = some '0' ∧ Nat.toDigits 10 n ≠ ['0']) := by
    rintro ⟨hhead, hne⟩
    by_cases hn : n = 0
    · subst hn
      exact hne (Nat.toDigits_zero 10)
    · exact head?_toDigits hn hhead
  simp only [wholePart, digits_append Nat.toDigits_ne_nil hdigit h, Option.bind_eq_bind, Option.bind_some,
    if_neg hzero]
  rfl

theorem numeral_toDigits (n : Nat) {rest : List Char} (h : Ends rest) :
    numeral (Nat.toDigits 10 n ++ rest) = some (natural n, rest) := by
  have hwhole := wholePart_toDigits n h
  have hn : Nat.ofDigitChars 10 (Nat.toDigits 10 n) 0 = n := Nat.ofDigitChars_ten_toDigits
  have hminus : ∀ r, Nat.toDigits 10 n ++ rest ≠ '-' :: r := by
    intro r hr
    obtain ⟨d, ds, hds, hd⟩ := exists_digit n
    rw [hds] at hr
    cases hr
    cases hd
  have hend : ∀ c r, rest = c :: r → c ≠ '.' ∧ c ≠ 'e' ∧ c ≠ 'E' := by
    rintro c r rfl
    rcases h with rfl | rfl | rfl <;> decide
  unfold numeral
  split
  · rename_i r hr
    exact absurd hr (hminus r)
  · simp only [hwhole, Option.bind_eq_bind, Option.bind_some]
    split
    · exact absurd rfl (hend _ _ rfl).1
    · exact absurd rfl (hend _ _ rfl).2.1
    · exact absurd rfl (hend _ _ rfl).2.2
    · rw [hn]
      rfl

/-! ### Values -/

/-- Pieces with commas between them, and what closes the row. -/
def separated {α : Type} (close : Char) (piece : α → List Char) : List α → List Char
  | [] => [close]
  | [a] => piece a ++ [close]
  | a :: r => piece a ++ ',' :: separated close piece r

theorem separated_cons {α : Type} {close : Char} {piece : α → List Char} {a : α} {r : List α} (h : r ≠ []) :
    separated close piece (a :: r) = piece a ++ ',' :: separated close piece r := by
  cases r with
  | nil => exact absurd rfl h
  | cons b r => rfl

theorem renderItems_eq (items : List Json) : renderItems items = separated ']' render items := by
  induction items with
  | nil => rw [renderItems, separated]
  | cons j r ih =>
    cases r with
    | nil => rw [renderItems, separated]
    | cons k r =>
      rw [renderItems, separated_cons (List.cons_ne_nil k r), ih]
      simp

/-- The text of one field of an object. -/
def renderField (f : String × Json) : List Char := '"' :: quoted f.1.toList ++ ':' :: render f.2

theorem renderFields_eq (fields : List (String × Json)) :
    renderFields fields = separated '\x7d' renderField fields := by
  induction fields with
  | nil => rw [renderFields, separated]
  | cons f r ih =>
    cases r with
    | nil => rw [renderFields, separated, renderField]
    | cons k r =>
      rw [renderFields, separated_cons (List.cons_ne_nil k r), ih, renderField]
      simp

section

variable {α β : Type} {close : Char} {piece : α → List Char} {item : List Char → Option (β × List Char)}
variable {meaning : α → β}

theorem length_le_length_separated (close : Char) (piece : α → List Char) (as : List α) :
    as.length ≤ (separated close piece as).length := by
  induction as with
  | nil => simp
  | cons a r ih =>
    cases r with
    | nil => simp [separated]
    | cons b r =>
      rw [separated_cons (List.cons_ne_nil b r)]
      simp only [List.length_cons, List.length_append] at ih ⊢
      omega

theorem length_piece_lt (close : Char) (piece : α → List Char) {a : α} {as : List α} (h : a ∈ as) :
    (piece a).length < (separated close piece as).length := by
  induction as with
  | nil => cases h
  | cons b r ih =>
    by_cases hr : r = []
    · subst hr
      obtain rfl := List.mem_singleton.1 h
      simp [separated]
    · rw [separated_cons hr, List.length_append, List.length_cons]
      rcases List.mem_cons.1 h with rfl | h
      · omega
      · have hlt := ih h
        omega

theorem itemsUntil_separated (hclose : close = ']' ∨ close = '\x7d') {as : List α} (hne : as ≠ [])
    (hitem : ∀ a ∈ as, ∀ rest, Ends rest → item (piece a ++ rest) = some (meaning a, rest)) {n : Nat}
    (hn : as.length ≤ n) (rest : List Char) :
    itemsUntil close item n (separated close piece as ++ rest) = some (as.map meaning, rest) := by
  induction as generalizing n with
  | nil => exact absurd rfl hne
  | cons a r ih =>
    obtain ⟨n, rfl⟩ : ∃ k, n = k + 1 := Nat.exists_eq_add_one.2 (Nat.lt_of_lt_of_le (Nat.succ_pos _) hn)
    have ha := hitem a List.mem_cons_self
    by_cases hr : r = []
    · subst hr
      have hends : Ends (close :: rest) := .inr hclose
      rw [separated, List.append_assoc, List.singleton_append, itemsUntil, ha _ hends]
      simp only [Option.bind_eq_bind, Option.bind_some, skipBlanks_of_ends hends]
      rcases hclose with rfl | rfl <;> simp
    · have hrest := ih hr (fun b hb => hitem b (List.mem_cons_of_mem a hb)) (Nat.le_of_succ_le_succ hn)
      have hends : Ends (',' :: (separated close piece r ++ rest)) := .inl rfl
      rw [separated_cons hr, List.append_assoc, List.cons_append, itemsUntil, ha _ hends]
      simp [skipBlanks_of_ends hends, hrest]

/-- A row of pieces, each of which is read back, is read back as a whole. -/
theorem sequence_separated (hclose : close = ']' ∨ close = '\x7d') {as : List α}
    (hstarts : ∀ a ∈ as, Starts (piece a))
    (hitem : ∀ a ∈ as, ∀ rest, Ends rest → item (piece a ++ rest) = some (meaning a, rest)) {n : Nat}
    (hn : (separated close piece as).length ≤ n) (rest : List Char) :
    sequence close item n (separated close piece as ++ rest) = some (as.map meaning, rest) := by
  cases as with
  | nil =>
    have hends : Ends (close :: rest) := .inr hclose
    rw [separated, List.singleton_append, sequence, skipBlanks_of_ends hends]
    exact if_pos rfl
  | cons a r =>
    have hall := itemsUntil_separated hclose (List.cons_ne_nil a r) hitem
      (Nat.le_trans (length_le_length_separated close piece (a :: r)) hn) rest
    have ha := hstarts a List.mem_cons_self
    obtain ⟨t, ht⟩ : ∃ t, separated close piece (a :: r) = piece a ++ t := by
      cases r with
      | nil => exact ⟨_, rfl⟩
      | cons b r => exact ⟨_, rfl⟩
    rw [ht, List.append_assoc] at hall ⊢
    cases hpiece : piece a with
    | nil => simp [hpiece, Starts] at ha
    | cons c p =>
      rw [hpiece] at ha hall
      obtain ⟨hblank, hitems, hfields⟩ := ha
      have hc : c ≠ close := by rcases hclose with rfl | rfl <;> assumption
      rw [List.cons_append, sequence, skipBlanks_cons hblank]
      exact (if_neg hc).trans hall

end

theorem member_renderField {value : List Char → Option (Json × List Char)} {f : String × Json} {rest : List Char}
    (h : value (render f.2 ++ rest) = some (f.2, rest)) :
    member value (renderField f ++ rest) = some ((some f.1, f.2), rest) := by
  have hquote : isBlank '"' = false := rfl
  have hcolon : isBlank ':' = false := rfl
  have htext := text_quoted f.1 (':' :: (render f.2 ++ rest))
  have hfield : renderField f ++ rest = '"' :: (quoted f.1.toList ++ ':' :: (render f.2 ++ rest)) := by
    simp [renderField]
  rw [hfield, member, skipBlanks_cons hquote]
  simp only [htext, Option.bind_eq_bind, Option.bind_some, skipBlanks_cons hcolon, h]
  rfl

theorem ofMembers_map (fields : List (String × Json)) :
    ofMembers (fields.map fun f => (some f.1, f.2)) = object fields := by
  have hall : (fields.map fun f => (some f.1, f.2)).mapM
      (fun f : Option String × Json => f.1.map (·, f.2)) = some fields := by
    induction fields with
    | nil => rfl
    | cons f r ih => simp [ih]
  rw [ofMembers, hall]

private theorem starts_of_isDigit {d : Char} (h : d.isDigit = true) (ds : List Char) : Starts (d :: ds) := by
  refine ⟨?_, ?_, ?_⟩
  · simp only [isBlank, Bool.or_eq_false_iff, decide_eq_false_iff_not]
    refine ⟨⟨⟨?_, ?_⟩, ?_⟩, ?_⟩ <;> rintro rfl <;> cases h
  · rintro rfl
    cases h
  · rintro rfl
    cases h

theorem starts_render {j : Json} (h : Plain j) : Starts (render j) := by
  cases h with
  | natural n =>
    obtain ⟨d, ds, hds, hd⟩ := exists_digit n
    rw [render, hds]
    exact starts_of_isDigit hd ds
  | bool b => cases b <;> simp [render, Starts, isBlank]
  | null | string _ | array _ | object _ => simp [render, Starts, isBlank]

/-- A digit can only be the beginning of a numeral. -/
private theorem value_of_isDigit {d : Char} (h : d.isDigit = true) (fuel : Nat) (r : List Char) :
    value (fuel + 1) (d :: r) = numeral (d :: r) := by
  rw [value, skipBlanks_cons (starts_of_isDigit h r).1]
  split
  all_goals
    rename_i heq
    first
    | rfl
    | cases heq; cases h

/-- A value is read off the front of a text that begins with its own. -/
theorem value_render {j : Json} (h : Plain j) {fuel : Nat} (hfuel : (render j).length ≤ fuel) {rest : List Char}
    (hrest : Ends rest) : value (fuel + 1) (render j ++ rest) = some (j, rest) := by
  induction h generalizing fuel rest with
  | null => simp [render, value, skipBlanks, isBlank]
  | bool b => cases b <;> simp [render, value, skipBlanks, isBlank]
  | natural n =>
    obtain ⟨d, ds, hds, hd⟩ := exists_digit n
    have hnumeral := numeral_toDigits n hrest
    rw [render, hds] at *
    exact (value_of_isDigit hd fuel (ds ++ rest)).trans hnumeral
  | string s =>
    have htext := text_quoted s rest
    simp [render, value, skipBlanks, isBlank, htext]
  | @array items hitems ih =>
    rw [render, List.length_cons, renderItems_eq] at hfuel
    have hitem (j) (hj : j ∈ items) (rest) (hrest : Ends rest) : value fuel (render j ++ rest) = some (j, rest) := by
      have hlt := length_piece_lt ']' render hj
      obtain ⟨k, rfl⟩ : ∃ k, fuel = k + 1 := Nat.exists_eq_add_one.2 (by omega)
      exact ih j hj (by omega) hrest
    have hall : sequence ']' (value fuel) fuel (separated ']' render items ++ rest) = some (items.map id, rest) :=
      sequence_separated (.inl rfl) (fun j hj => starts_render (hitems j hj)) hitem (Nat.le_of_succ_le hfuel) rest
    simp [render, value, skipBlanks, isBlank, renderItems_eq, hall]
  | @object fields hfields ih =>
    rw [render, List.length_cons, renderFields_eq] at hfuel
    have hfield (f) (hf : f ∈ fields) (rest) (hrest : Ends rest) :
        member (value fuel) (renderField f ++ rest) = some ((some f.1, f.2), rest) := by
      have hlt := length_piece_lt '\x7d' renderField hf
      have hle : (render f.2).length ≤ (renderField f).length := by
        simp only [renderField, List.length_append, List.length_cons]
        omega
      obtain ⟨k, rfl⟩ : ∃ k, fuel = k + 1 := Nat.exists_eq_add_one.2 (by omega)
      exact member_renderField (ih f hf (by omega) hrest)
    have hstarts (f) (_ : f ∈ fields) : Starts (renderField f) := ⟨rfl, by decide, by decide⟩
    have hall := sequence_separated (.inr rfl) hstarts hfield (Nat.le_of_succ_le hfuel) rest
    simp [render, value, skipBlanks, isBlank, renderFields_eq, hall, ofMembers_map]

/-- The text of a value is the text of that value and of no other. -/
theorem parse?_render {j : Json} (h : Plain j) : parse? (render j) = some j := by
  have hvalue : value ((render j).length + 1) (render j ++ []) = some (j, []) :=
    value_render h (Nat.le_refl _) trivial
  rw [List.append_nil] at hvalue
  rw [parse?, hvalue]
  rfl

end ContractHost.Json
