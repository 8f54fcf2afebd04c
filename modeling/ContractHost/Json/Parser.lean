import ContractHost.Hex
import ContractHost.Json

/-!
# Reading JSON text

A reader takes a value off the front of a text and gives the rest.  Blanks may stand between any two tokens; a
numeral has no superfluous zero in front; a string holds no control character, and two escapes that spell the halves
of a surrogate pair are one character.
-/

namespace ContractHost.Json

def isBlank (c : Char) : Bool := c = ' ' || c = '\n' || c = '\t' || c = '\r'

def skipBlanks (cs : List Char) : List Char := cs.dropWhile isBlank

/-! ### Strings -/

/-- The character that a backslash and `c` stand for. -/
def unescape? (c : Char) : Option Char :=
  match c with
  | '"' => some '"'
  | '\\' => some '\\'
  | '/' => some '/'
  | 'b' => some '\x08'
  | 'f' => some '\x0c'
  | 'n' => some '\n'
  | 'r' => some '\r'
  | 't' => some '\t'
  | _ => none

/-- The code points of a string behind its opening quote; an escape may stand for half of a surrogate pair. -/
def codePoints : List Char → Option (List Nat × List Char)
  | '"' :: r => some ([], r)
  | '\\' :: 'u' :: a :: b :: c :: d :: r => do
    let unit := 4096 * (← Hex.value? a) + 256 * (← Hex.value? b) + 16 * (← Hex.value? c) + (← Hex.value? d)
    let (points, rest) ← codePoints r
    return (unit :: points, rest)
  | '\\' :: c :: r => do
    let c ← unescape? c
    let (points, rest) ← codePoints r
    return (c.toNat :: points, rest)
  | c :: r => do
    if c.toNat < 0x20 ∨ c = '\\' then none
    let (points, rest) ← codePoints r
    return (c.toNat :: points, rest)
  | [] => none

def isHighHalf (u : Nat) : Bool := 0xD800 ≤ u && u < 0xDC00

def isLowHalf (u : Nat) : Bool := 0xDC00 ≤ u && u < 0xE000

/-- The characters of a row of code points, if every half of a surrogate pair has its partner next to it. -/
def characters? : List Nat → Option (List Char)
  | [] => some []
  | u :: r =>
    if isHighHalf u then
      match r with
      | [] => none
      | v :: r =>
        if isLowHalf v then
          (characters? r).map (Char.ofNat (0x10000 + 0x400 * (u - 0xD800) + (v - 0xDC00)) :: ·)
        else none
    else if isLowHalf u then none
    else (characters? r).map (Char.ofNat u :: ·)

/-- A string behind its opening quote; `none` for what is no text because of half a surrogate pair. -/
def text (cs : List Char) : Option (Option String × List Char) := do
  let (points, rest) ← codePoints cs
  return ((characters? points).map String.ofList, rest)

/-! ### Numerals -/

/-- At least one digit. -/
def digits (cs : List Char) : Option (List Char × List Char) :=
  match cs.takeWhile Char.isDigit with
  | [] => none
  | ds => some (ds, cs.dropWhile Char.isDigit)

/-- The digits of a whole number, with no superfluous zero in front. -/
def wholePart (cs : List Char) : Option (List Char × List Char) := do
  let (ds, rest) ← digits cs
  if ds.head? = some '0' ∧ ds ≠ ['0'] then none
  return (ds, rest)

/-- What follows a fraction, if there is one. -/
def skipFraction : List Char → Option (List Char)
  | '.' :: r => (digits r).map Prod.snd
  | cs => some cs

/-- What follows an exponent, if there is one. -/
def skipExponent : List Char → Option (List Char)
  | 'e' :: '+' :: r | 'e' :: '-' :: r | 'E' :: '+' :: r | 'E' :: '-' :: r | 'e' :: r | 'E' :: r =>
    (digits r).map Prod.snd
  | cs => some cs

/-- A numeral.  It is a natural number if it has no sign, no fraction and no exponent. -/
def numeral (cs : List Char) : Option (Json × List Char) :=
  match cs with
  | '-' :: r => do
    let (_, rest) ← wholePart r
    return (other, ← skipExponent (← skipFraction rest))
  | cs => do
    let (ds, rest) ← wholePart cs
    match rest with
    | '.' :: _ | 'e' :: _ | 'E' :: _ => return (other, ← skipExponent (← skipFraction rest))
    | _ => return (natural (Nat.ofDigitChars 10 ds 0), rest)

/-! ### Values -/

/-- Items with commas between them, and the closing bracket; there is at least one item. -/
def itemsUntil {α : Type} (close : Char) (item : List Char → Option (α × List Char)) :
    Nat → List Char → Option (List α × List Char)
  | 0, _ => none
  | fuel + 1, cs => do
    let (a, rest) ← item cs
    match skipBlanks rest with
    | ',' :: r => do
      let (as, rest) ← itemsUntil close item fuel r
      return (a :: as, rest)
    | c :: r => if c = close then some ([a], r) else none
    | [] => none

/-- What stands behind an opening bracket, up to the closing one. -/
def sequence {α : Type} (close : Char) (item : List Char → Option (α × List Char)) (fuel : Nat) (cs : List Char) :
    Option (List α × List Char) :=
  match skipBlanks cs with
  | [] => none
  | c :: r => if c = close then some ([], r) else itemsUntil close item fuel (c :: r)

/-- A name, a colon and a value. -/
def member (value : List Char → Option (Json × List Char)) (cs : List Char) :
    Option ((Option String × Json) × List Char) :=
  match skipBlanks cs with
  | '"' :: r => do
    let (name, rest) ← text r
    match skipBlanks rest with
    | ':' :: r => do
      let (j, rest) ← value r
      return ((name, j), rest)
    | _ => none
  | _ => none

/-- The object with these fields, if all their names are text. -/
def ofMembers (fields : List (Option String × Json)) : Json :=
  match fields.mapM fun f => f.1.map (·, f.2) with
  | some fields => object fields
  | none => other

/-- A value.  The fuel bounds how deep it is nested and how many items it has; the length of the text is enough. -/
def value : (fuel : Nat) → List Char → Option (Json × List Char)
  | 0, _ => none
  | fuel + 1, cs =>
    match skipBlanks cs with
    | 'n' :: 'u' :: 'l' :: 'l' :: r => some (null, r)
    | 't' :: 'r' :: 'u' :: 'e' :: r => some (bool true, r)
    | 'f' :: 'a' :: 'l' :: 's' :: 'e' :: r => some (bool false, r)
    | '"' :: r => do
      let (s, rest) ← text r
      return (s.elim other string, rest)
    | '[' :: r => do
      let (items, rest) ← sequence ']' (value fuel) fuel r
      return (array items, rest)
    | '\x7b' :: r => do
      let (fields, rest) ← sequence '\x7d' (member (value fuel)) fuel r
      return (ofMembers fields, rest)
    | cs => numeral cs

/-- The value of a text, if it is the text of one value and nothing else. -/
def parse? (cs : List Char) : Option Json := do
  let (j, rest) ← value (cs.length + 1) cs
  if skipBlanks rest = [] then some j else none

end ContractHost.Json
