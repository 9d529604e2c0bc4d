import TypeFerry.Ejson.Canonical
import TypeFerry.Go.Ejson

/-! # Canonical text in the ports

What `stableStringify`, `stable_stringify`, `stable_stringify::stringify` and the canonical writer
of Go make of one JSON value. All of them write strings as `JSON.stringify` does, and texts are
compared as sequences of UTF-16 code units. -/
namespace TypeFerry.Ejson.Ports
open TypeFerry.Lib.Numeral TypeFerry.Lib.JsonText TypeFerry.Lib.Unicode

/-- A JSON value whose numbers are integers; members keep their order. -/
inductive Json where
  | null
  | bool (b : Bool)
  | int (n : ℤ)
  | string (s : Str)
  | array (items : List Json)
  | object (fields : List (Str × Json))

def intText (n : ℤ) : Text := (if n < 0 then js "-" else []) ++ (digitsOf n.natAbs).map unit

def stringText (s : Str) : Text := quote (utf16 s)

/-! ## Python and Rust -/

/-- With commas between them. -/
def separated : List Text → Text
  | [] => []
  | [x] => x
  | x :: xs => x ++ js "," ++ separated xs

mutual

/-- `json.dumps` with the separators `(",", ":")`, and `serde_json::to_string`. -/
def dumps : Json → Text
  | .null => js "null"
  | .bool true => js "true"
  | .bool false => js "false"
  | .int n => intText n
  | .string s => stringText s
  | .array items => js "[" ++ separated (dumpsItems items) ++ js "]"
  | .object fields => js "\x7b" ++ separated (dumpsFields fields) ++ js "\x7d"

def dumpsItems : List Json → List Text
  | [] => []
  | item :: items => dumps item :: dumpsItems items

def dumpsFields : List (Str × Json) → List Text
  | [] => []
  | (key, value) :: fields => (stringText key ++ js ":" ++ dumps value) :: dumpsFields fields

end

section
variable (sort : List (Str × Json) → List (Str × Json))

mutual

/-- `_sort_value` and `sort_value`, which have their own ways to sort the members of an object. -/
def sortValue : Json → Json
  | .array items => .array (sortItems items)
  | .object fields => .object (sort (sortMembers fields))
  | value => value

def sortItems : List Json → List Json
  | [] => []
  | item :: items => sortValue item :: sortItems items

def sortMembers : List (Str × Json) → List (Str × Json)
  | [] => []
  | (key, value) :: fields => (key, sortValue value) :: sortMembers fields

end

end

namespace Python

/-- `sorted(value.keys())`: by code points. -/
def sorted (fields : List (Str × Json)) : List (Str × Json) := fields.insertionSort fun f g => ¬g.1 < f.1

def stableStringify (value : Json) : Text := dumps (sortValue sorted value)

end Python

namespace Rust

/-- `entries.sort_by(|a, b| a.0.cmp(&b.0))`: by bytes. -/
def stringify (value : Json) : Text := dumps (sortValue sortFields value)

end Rust

/-! ## TypeScript -/

namespace TypeScript
open TypeFerry.Ejson.Clone

mutual

def toValue : Json → Value
  | .null => .null
  | .bool b => .bool b
  | .int n => .num (.finite (ofInt n))
  | .string s => .str (utf16 s)
  | .array items => .arr (toItems items)
  | .object fields => .obj (toMembers fields)

def toItems : List Json → List Value
  | [] => []
  | item :: items => toValue item :: toItems items

def toMembers : List (Str × Json) → List (Text × Value)
  | [] => []
  | (key, value) :: fields => (utf16 key, toValue value) :: toMembers fields

end

def stableStringify (value : Json) : Option Text := Canonical.stableStringify (toValue value)

end TypeScript

/-! ## Go -/

namespace Go
open TypeFerry.Go.Ejson (Value Platform Lexeme)

/-- There are no floats. -/
def platform : Platform Empty where
  integer := Empty.elim
  nearest _ := none
  EncodeToString := Base64.encodeChars
  DecodeString := Base64.decodeChars

mutual

def toValue : Json → Value Empty
  | .null => .null
  | .bool b => .bool b
  | .int n => .int n
  | .string s => .string s
  | .array items => .array (toItems items)
  | .object fields => .object (toFields fields)

def toItems : List Json → List (Value Empty)
  | [] => []
  | item :: items => toValue item :: toItems items

def toFields : List (Str × Json) → List (Str × Value Empty)
  | [] => []
  | (key, value) :: fields => (key, toValue value) :: toFields fields

end

def spell : Lexeme Empty → Text
  | .openBracket => js "["
  | .closeBracket => js "]"
  | .openBrace => js "\x7b"
  | .closeBrace => js "\x7d"
  | .comma => js ","
  | .colon => js ":"
  | .null => js "null"
  | .bool true => js "true"
  | .bool false => js "false"
  | .string s => stringText s
  | .integer n => intText n
  | .real x => x.elim

/-- `Stringify(value, true)` -/
def stringify (value : Json) : Text :=
  (TypeFerry.Go.Ejson.Stringify platform true (toValue value)).flatMap spell

end Go

end TypeFerry.Ejson.Ports
