/-!
# JSON values and their text

The values that a JSON text may stand for, as far as any reader of this library can tell them apart, and the compact
text of a value.
-/

namespace ContractHost

inductive Json
  | null
  | bool (b : Bool)
  /-- A numeral that is a natural number. -/
  | natural (n : Nat)
  | string (s : String)
  | array (items : List Json)
  /-- Fields in the order of the text; a name may occur twice. -/
  | object (fields : List (String × Json))
  /-- A well-formed value that no reader takes: a numeral that is no natural number, or something that holds half
  of a surrogate pair where a string was to be. -/
  | other

namespace Json

/-! ### Writing -/

/-- The text of a character inside a string. -/
def escape (c : Char) : List Char :=
  if c = '"' then ['\\', '"']
  else if c = '\\' then ['\\', '\\']
  else if c = '\n' then ['\\', 'n']
  else if c = '\r' then ['\\', 'r']
  else if c = '\t' then ['\\', 't']
  else if c = '\x08' then ['\\', 'b']
  else if c = '\x0c' then ['\\', 'f']
  else if c.toNat < 0x20 then
    ['\\', 'u', '0', '0', Nat.digitChar (c.toNat / 16), Nat.digitChar (c.toNat % 16)]
  else [c]

/-- The text of a string behind its opening quote. -/
def quoted (s : List Char) : List Char := s.flatMap escape ++ ['"']

mutual

/-- The compact text of a value.  A value that no reader takes is written as `null`. -/
def render : Json → List Char
  | null => ['n', 'u', 'l', 'l']
  | bool true => ['t', 'r', 'u', 'e']
  | bool false => ['f', 'a', 'l', 's', 'e']
  | natural n => Nat.toDigits 10 n
  | string s => '"' :: quoted s.toList
  | array items => '[' :: renderItems items
  | object fields => '\x7b' :: renderFields fields
  | other => ['n', 'u', 'l', 'l']

/-- The text of an array behind its opening bracket. -/
def renderItems : List Json → List Char
  | [] => [']']
  | [j] => render j ++ [']']
  | j :: r => render j ++ ',' :: renderItems r

/-- The text of an object behind its opening brace. -/
def renderFields : List (String × Json) → List Char
  | [] => ['\x7d']
  | [(k, j)] => '"' :: quoted k.toList ++ ':' :: render j ++ ['\x7d']
  | (k, j) :: r => '"' :: quoted k.toList ++ ':' :: render j ++ ',' :: renderFields r

end

end Json

end ContractHost
