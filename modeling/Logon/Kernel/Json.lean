import Mathlib.Algebra.Group.Nat.Defs
import Mathlib.Data.List.Sort

namespace Logon

-- A finite number, given by the text that `JSON.stringify` writes for it.
structure Numeral where
  text : String
  wf   : text ≠ "" ∧ text.toList.all fun c => c.isDigit || c ∈ ['+', '-', '.', 'e']

def Numeral.ofNat (n : Nat) : Numeral where
  text := toString n
  wf   := by
    constructor
    case left  => exact fun h => Nat.toDigits_ne_nil <| Nat.toList_repr.symm.trans (congrArg String.toList h)
    case right =>
      rw [List.all_eq_true]
      intro c hc
      have hd := Nat.isDigit_of_mem_toDigits (by decide) (by decide) <| Nat.toList_repr ▸ hc
      simp [hd]

inductive Json
  | null
  | bool (b : Bool)
  | number (n : Numeral)
  | string (s : String)
  | array (items : List Json)
  | object (members : List (String × Json))

-- A JavaScript value as far as `JSON.stringify` and `Object.entries` can tell it from others. The
-- members of an object are its own ones, in the order in which it lists them.
inductive JsValue
  -- Also stands for functions and symbols.
  | undefined
  | null
  | bool (b : Bool)
  | number (n : Numeral)
  -- `NaN` and the infinities
  | nonFinite
  | string (s : String)
  | array (items : List JsValue)
  | object (members : List (String × JsValue))
  -- An object that inherits a `toJSON` method, and what that method makes it serialize to.
  | serializable (members : List (String × JsValue)) (json : Option Json)

namespace Json

-- A character inside a string literal. Characters that need no escape are written as they are.
def escape (c : Char) : String :=
  if c = '"' then "\\\""
  else if c = '\\' then "\\\\"
  else if c.toNat = 8 then "\\b"
  else if c.toNat = 9 then "\\t"
  else if c.toNat = 10 then "\\n"
  else if c.toNat = 12 then "\\f"
  else if c.toNat = 13 then "\\r"
  else if c.toNat < 32 then
    "\\u00" ++ String.ofList [Nat.digitChar (c.toNat / 16), Nat.digitChar (c.toNat % 16)]
  else String.singleton c

def quote (s : String) : String :=
  "\"" ++ String.join (s.toList.map escape) ++ "\""

mutual

def text : Json → String
  | null      => "null"
  | bool b    => if b then "true" else "false"
  | number n  => n.text
  | string s  => quote s
  | array vs  => "[" ++ String.intercalate "," (texts vs) ++ "]"
  | object ms => "\x7b" ++ String.intercalate "," (memberTexts ms) ++ "\x7d"

def texts : List Json → List String
  | []      => []
  | v :: vs => v.text :: texts vs

def memberTexts : List (String × Json) → List String
  | []           => []
  | (k, v) :: ms => (quote k ++ ":" ++ v.text) :: memberTexts ms

end

mutual

-- The strings and names that occur in a value.
def strings : Json → List String
  | null      => []
  | bool _    => []
  | number _  => []
  | string s  => [s]
  | array vs  => itemStrings vs
  | object ms => memberStrings ms

def itemStrings : List Json → List String
  | []      => []
  | v :: vs => v.strings ++ itemStrings vs

def memberStrings : List (String × Json) → List String
  | []           => []
  | (k, v) :: ms => k :: v.strings ++ memberStrings ms

end

end Json

namespace JsValue

mutual

-- The JSON value whose text is what `JSON.stringify` returns.
def toJson : JsValue → Option Json
  | undefined      => none
  | null           => some .null
  | bool b         => some (.bool b)
  | number n       => some (.number n)
  | nonFinite      => some .null
  | string s       => some (.string s)
  | array vs       => some (.array (toJsons vs))
  | object ms      => some (.object (toJsonMembers ms))
  | serializable _ j => j

def toJsons : List JsValue → List Json
  | []      => []
  | v :: vs => v.toJson.getD .null :: toJsons vs

def toJsonMembers : List (String × JsValue) → List (String × Json)
  | []           => []
  | (k, v) :: ms =>
    match v.toJson with
    | some j => (k, j) :: toJsonMembers ms
    | none   => toJsonMembers ms

end

mutual

-- The value that `JSON.parse` returns.
def ofJson : Json → JsValue
  | .null      => null
  | .bool b    => bool b
  | .number n  => number n
  | .string s  => string s
  | .array vs  => array (ofJsons vs)
  | .object ms => object (ofJsonMembers ms)

def ofJsons : List Json → List JsValue
  | []      => []
  | v :: vs => ofJson v :: ofJsons vs

def ofJsonMembers : List (String × Json) → List (String × JsValue)
  | []           => []
  | (k, v) :: ms => (k, ofJson v) :: ofJsonMembers ms

end

-- The number that a name stands for if objects list it before their other members.
def arrayIndex (name : String) : Option Nat :=
  match name.toNat? with
  | some n => if toString n = name ∧ n < 2 ^ 32 - 1 then some n else none
  | none   => none

-- `Object.fromEntries`, for entries of different names.
def fromEntries (entries : List (String × JsValue)) : List (String × JsValue) :=
  let indices := entries.filter fun e => (arrayIndex e.fst).isSome
  let others  := entries.filter fun e => (arrayIndex e.fst).isNone
  indices.insertionSort (fun e e' => (arrayIndex e.fst).getD 0 ≤ (arrayIndex e'.fst).getD 0) ++ others

def sortEntries (localeCompare : String → String → Ordering) (entries : List (String × JsValue)) :
    List (String × JsValue) :=
  entries.insertionSort fun e e' => localeCompare e.fst e'.fst ≠ .gt

section
variable (localeCompare : String → String → Ordering)

mutual

-- The source sorts the entries of an object first and canonicalizes their values then. As the order
-- is by name, this makes no difference.
def canonicalize : JsValue → JsValue
  | array vs          => array (canonicalizeItems vs)
  | object ms         => object (fromEntries (sortEntries localeCompare (canonicalizeMembers ms)))
  | serializable ms _ => object (fromEntries (sortEntries localeCompare (canonicalizeMembers ms)))
  | undefined         => undefined
  | null              => null
  | bool b            => bool b
  | number n          => number n
  | nonFinite         => nonFinite
  | string s          => string s

def canonicalizeItems : List JsValue → List JsValue
  | []      => []
  | v :: vs => canonicalize v :: canonicalizeItems vs

def canonicalizeMembers : List (String × JsValue) → List (String × JsValue)
  | []           => []
  | (k, v) :: ms => (k, canonicalize v) :: canonicalizeMembers ms

end

-- Throws, that is, has no value, for `undefined`.
def canonicalJson (v : JsValue) : Option String :=
  (v.canonicalize localeCompare).toJson.map Json.text

end
end JsValue
end Logon
