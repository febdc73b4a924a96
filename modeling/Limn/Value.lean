import Limn.Calendar
import Limn.Decimal
import Limn.Text.Bytes
import Limn.Text.Wording

/-! # Values

The values that configuration files, tree snapshots and request bodies are made of. Mappings keep
their entries in the order in which the keys first appeared, and a later entry for a key already
present replaces the value and keeps the place.

Keys are compared by what they denote: a truth value equals the integer 0 or 1, and an integer
equals a floating point number of the same size. A number that is not one differs even from itself.
-/

namespace Limn

/-- A value read from a file or a request. -/
inductive Value where
  | null
  | bool (b : Bool)
  | int (n : Int)
  | float (x : Float)
  | text (s : String)
  /-- A row of symbols that is no text. -/
  | halved (h : Halved)
  | date (d : Date)
  | clock (t : Clock)
  | moment (m : Moment)
  | octets (bytes : Bytes)
  | pair (first second : Value)
  | set (items : List Value)
  | list (items : List Value)
  | map (entries : List (Value × Value))
deriving Repr, Inhabited

namespace Value

def ofWording : Wording → Value
  | .text s => .text s
  | .halved h => .halved h

/-! ## Kinds -/

/-- The name under which messages mention the kind of a value. -/
def kind : Value → String
  | .null => "NoneType"
  | .bool _ => "bool"
  | .int _ => "int"
  | .float _ => "float"
  | .text _ | .halved _ => "str"
  | .date _ => "date"
  | .clock _ => "time"
  | .moment _ => "datetime"
  | .octets _ => "bytes"
  | .pair .. => "tuple"
  | .set _ => "set"
  | .list _ => "list"
  | .map _ => "dict"

/-- A value counts as set unless it is null, false, zero or empty. -/
def isSet : Value → Bool
  | .null => false
  | .bool b => b
  | .int n => n != 0
  | .float x => Decimal.isNonzero x
  | .text s => s != ""
  | .octets bytes => !bytes.isEmpty
  | .set items => !items.isEmpty
  | .list items => !items.isEmpty
  | .map entries => !entries.isEmpty
  | _ => true

/-! ## Keys -/

/-- The number that a value denotes when it is compared as a key, as `±m·2^q`. -/
def number? : Value → Option Decimal.Parts
  | .bool b => some (.finite false (if b then 1 else 0) 0)
  | .int n => some (.finite (n < 0) n.natAbs 0)
  | .float x => some (Decimal.parts x)
  | _ => none

/-- Two numbers are of the same size. -/
def sameNumber : Decimal.Parts → Decimal.Parts → Bool
  | .infinite a, .infinite b => a == b
  | .finite s m p, .finite t n q =>
    let low := min p q
    let a := m * Decimal.pow2 (p - low).toNat
    let b := n * Decimal.pow2 (q - low).toNat
    a == b && (s == t || a == 0)
  | _, _ => false

/-- Two values are the same key. Collections are never keys. -/
def sameKey (a b : Value) : Bool :=
  match a, b with
  | .null, .null => true
  | .text s, .text t => s == t
  | .halved h, .halved k => h == k
  | .octets bs, .octets cs => bs == cs
  | .date d, .date e => d == e
  | .clock t, .clock u => t == u
  | .moment m, .moment n => m.same n
  | _, _ =>
    match a.number?, b.number? with
    | some m, some n => sameNumber m n
    | _, _ => false

/-- Lists, sets and mappings cannot be keys. -/
def isKey : Value → Bool
  | .set _ => false
  | .list _ => false
  | .map _ => false
  | _ => true

end Value

/-! ## Entries -/

namespace Entries

/-- Put a value under a key: in place if the key is present, else at the end. -/
def put {α : Type} (key : Value) (value : α) : List (Value × α) → List (Value × α)
  | [] => [(key, value)]
  | (k, v) :: rest => if k.sameKey key then (k, value) :: rest else (k, v) :: put key value rest

def get? {α : Type} (key : Value) : List (Value × α) → Option α
  | [] => none
  | (k, v) :: rest => if k.sameKey key then some v else get? key rest

/-- Entries in the order of the keys' first appearance, the last value of each. -/
def ofList (pairs : List (Value × Value)) : List (Value × Value) :=
  pairs.foldl (fun es (k, v) => put k v es) []

end Entries

namespace Value

/-- The value under a textual key of a mapping; `none` for every other value. -/
def get? (v : Value) (key : String) : Option Value :=
  match v with
  | .map entries => Entries.get? (.text key) entries
  | _ => none

end Value

end Limn
