import Limn.Text.Symbol
import Limn.Value

/-! # JSON

A JSON value as a request spells it. Its texts are rows of symbols, because an escape may name half
of a surrogate pair. Members of an object keep the order in which their keys first appeared.
-/

namespace Limn

open Limn.Text (Symbol)

inductive Json where
  | null
  | bool (b : Bool)
  | integer (n : Int)
  | real (x : Float)
  | text (symbols : List Symbol)
  | list (items : List Json)
  | object (members : List (List Symbol × Json))
deriving Repr, Inhabited

namespace Json

/-! ## Members -/

/-- Put a value under a key: in place if the key is present, else at the end. -/
def put (key : List Symbol) (value : Json) : List (List Symbol × Json) → List (List Symbol × Json)
  | [] => [(key, value)]
  | (k, v) :: rest => if k == key then (k, value) :: rest else (k, v) :: put key value rest

/-- The object of a row of members, the last value of each key. -/
def ofMembers (members : List (List Symbol × Json)) : Json :=
  .object (members.foldl (fun ms (k, v) => put k v ms) [])

/-- The value under a key of an object; `none` for every other value. -/
def get? (v : Json) (key : String) : Option Json :=
  match v with
  | .object members => members.lookup (Symbol.ofText key)
  | _ => none

def symbols? : Json → Option (List Symbol)
  | .text symbols => some symbols
  | _ => none

/-! ## As a value -/

mutual

def toValue : Json → Value
  | .null => .null
  | .bool b => .bool b
  | .integer n => .int n
  | .real x => .float x
  | .text symbols => .ofWording (.ofSymbols symbols)
  | .list items => .list (itemValues items)
  | .object members => .map (memberValues members)

def itemValues : List Json → List Value
  | [] => []
  | v :: rest => v.toValue :: itemValues rest

def memberValues : List (List Symbol × Json) → List (Value × Value)
  | [] => []
  | (k, v) :: rest => (.ofWording (.ofSymbols k), v.toValue) :: memberValues rest

end

/-! ## Atoms -/

mutual

/-- The texts, numbers and words that a value is made of, keys included. Members are looked at only
if their keys are shown. -/
def atoms (shown : List Symbol → Bool) : Json → List Json
  | .list items => itemAtoms shown items
  | .object members => memberAtoms shown members
  | v => [v]

def itemAtoms (shown : List Symbol → Bool) : List Json → List Json
  | [] => []
  | v :: rest => v.atoms shown ++ itemAtoms shown rest

def memberAtoms (shown : List Symbol → Bool) : List (List Symbol × Json) → List Json
  | [] => []
  | (k, v) :: rest =>
    if shown k then .text k :: (v.atoms shown ++ memberAtoms shown rest)
    else memberAtoms shown rest

end

/-- A number that JSON has no numeral for. -/
def isUnbounded : Json → Bool
  | .real x => (Decimal.wholePart? x).isNone
  | _ => false

/-- A text that is no row of characters. -/
def isBroken : Json → Bool
  | .text symbols => (Symbol.text? symbols).isNone
  | _ => false

end Json

end Limn
