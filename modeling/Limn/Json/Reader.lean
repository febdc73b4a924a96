import Limn.Json
import Limn.Text.Digit

/-! # Reading JSON

Request bodies are JSON. A number with a point or an exponent is a floating point number, every
other number an integer; the words for infinity and NaN are accepted as numbers. A key given twice
keeps its last value. Text may not hold control characters.

The reader takes symbols off the front of what remains, and reports the first fault from the left.
Each nested value uses up one unit of the bound, so a bound of the text's length never runs out.
-/

namespace Limn.Json

open Limn.Text (Symbol)

inductive Fault where
  | malformed
  /-- An integer has more digits than are allowed. -/
  | oversized
deriving DecidableEq, Repr

def skip : List Symbol → List Symbol :=
  List.dropWhile fun s => s == .char ' ' || s == .char '\t' || s == .char '\n' || s == .char '\r'

/-! ## Texts -/

def hex? (digits : List Symbol) : Option Nat :=
  (digits.mapM fun (s : Symbol) => s.char?.bind Text.hexValue?).map (Text.ofDigits 16)

/-- What stands for a character after a backslash, hexadecimal forms apart. -/
def escape? : Char → Option Char
  | '\x22' => some '\x22'
  | '\\' => some '\\'
  | '/' => some '/'
  | 'b' => some '\x08'
  | 'f' => some '\x0c'
  | 'n' => some '\n'
  | 'r' => some '\r'
  | 't' => some '\t'
  | _ => none

/-- What has been read of a text, last first; `high` is the first half of a pair that was just
escaped and may still find its other half. -/
structure Reading where
  read : List Symbol := []
  high : Option Text.Half := none

namespace Reading

/-- All that has been read, a half that found no other included. -/
def settled (r : Reading) : List Symbol :=
  match r.high with
  | none => r.read
  | some h => .half h :: r.read

def push (r : Reading) (s : Symbol) : Reading :=
  { read := s :: r.settled }

/-- Go on with an escaped unit. -/
def pushUnit (r : Reading) (n : Nat) : Reading :=
  match r.high, Symbol.ofNat n with
  | some high, .half h =>
    if Text.isLowHalf h.unit then
      { read := .char (Text.joinHalves high.unit h.unit) :: r.read }
    else { read := .half high :: r.read, high := some h }
  | none, .half h => if Text.isHighHalf h.unit then { r with high := some h } else r.push (.half h)
  | _, s => r.push s

end Reading

/-- The rest of a text after its opening quote. -/
def textFrom (r : Reading) : List Symbol → Except Fault (List Symbol × List Symbol)
  | .char '\x22' :: rest => .ok (r.settled.reverse, rest)
  | .char '\\' :: .char 'u' :: a :: b :: c :: d :: rest =>
    match hex? [a, b, c, d] with
    | none => .error .malformed
    | some n => textFrom (r.pushUnit n) rest
  | .char '\\' :: .char c :: rest =>
    match escape? c with
    | none => .error .malformed
    | some c => textFrom (r.push (.char c)) rest
  | .char c :: rest =>
    if c == '\\' || c.toNat < 0x20 then .error .malformed else textFrom (r.push (.char c)) rest
  | .half h :: rest => textFrom (r.push (.half h)) rest
  | [] => .error .malformed

/-! ## Numbers -/

def digits : List Symbol → List Char × List Symbol
  | .char c :: rest =>
    if Text.isAsciiDigit c then
      let (ds, rest) := digits rest
      (c :: ds, rest)
    else ([], .char c :: rest)
  | rest => ([], rest)

def digitRow (ss : List Symbol) : Option (List Char × List Symbol) :=
  match digits ss with
  | ([], _) => none
  | found => some found

/-- The digits before the point: a lone zero, or a row that does not start with zero. -/
def wholeDigits : List Symbol → Option (List Char × List Symbol)
  | .char '0' :: rest => some (['0'], rest)
  | ss => digitRow ss

/-- The digits after a point, if there is a point with digits. -/
def fraction (ss : List Symbol) : List Char × List Symbol :=
  match ss with
  | .char '.' :: rest => (digitRow rest).getD ([], ss)
  | _ => ([], ss)

/-- The exponent, if there is a complete one. -/
def exponent (ss : List Symbol) : Option Int × List Symbol :=
  match ss with
  | s :: rest =>
    if s == .char 'e' || s == .char 'E' then
      let (negative, row) := match rest with
        | .char '-' :: more => (true, more)
        | .char '+' :: more => (false, more)
        | _ => (false, rest)
      match digitRow row with
      | none => (none, ss)
      | some (ds, rest) =>
        let n := (Text.asciiNumber ds : Int)
        (some (if negative then -n else n), rest)
    else (none, ss)
  | [] => (none, ss)

/-- A number after its sign, with at most so many digits if it is an integer. -/
def number (limit : Option Nat) (negative : Bool) (ss : List Symbol) :
    Except Fault (Json × List Symbol) :=
  match wholeDigits ss with
  | none => .error .malformed
  | some (whole, rest) =>
    let (places, rest) := fraction rest
    let (power, rest) := exponent rest
    if places.isEmpty && power.isNone then
      if limit.any (· < whole.length) then .error .oversized
      else
        let n := (Text.asciiNumber whole : Int)
        .ok (.integer (if negative then -n else n), rest)
    else
      let x := Decimal.nearest (Text.asciiNumber (whole ++ places)) (power.getD 0 - places.length)
      .ok (.real (if negative then -x else x), rest)

/-! ## Values -/

def afterWord? (word : String) (ss : List Symbol) : Option (List Symbol) :=
  let w := Symbol.ofText word
  if w.isPrefixOf ss then some (ss.drop w.length) else none

def words : List (String × Json) := [
  ("null", .null), ("true", .bool true), ("false", .bool false), ("NaN", .real Decimal.nan),
  ("Infinity", .real Decimal.infinity), ("-Infinity", .real (-Decimal.infinity))]

/-- A value that is not nested: a text, a word or a number. -/
def scalar (limit : Option Nat) (ss : List Symbol) : Except Fault (Json × List Symbol) :=
  match ss with
  | .char '\x22' :: rest => (textFrom {} rest).map fun (s, rest) => (.text s, rest)
  | _ =>
    match words.findSome? fun (w, v) => (afterWord? w ss).map fun rest => (v, rest) with
    | some found => .ok found
    | none =>
      match ss with
      | .char '-' :: rest => number limit true rest
      | _ => number limit false ss

mutual

def value (limit : Option Nat) : Nat → List Symbol → Except Fault (Json × List Symbol)
  | 0, _ => .error .malformed
  | bound + 1, ss =>
    match ss with
    | .char '[' :: rest =>
      match skip rest with
      | .char ']' :: rest => .ok (.list [], rest)
      | rest => items limit bound [] rest
    | .char '\x7b' :: rest =>
      match skip rest with
      | .char '\x7d' :: rest => .ok (.object [], rest)
      | rest => members limit bound [] rest
    | _ => scalar limit ss

/-- The items of a list that is not empty; `read` holds those read, last first. -/
def items (limit : Option Nat) :
    Nat → List Json → List Symbol → Except Fault (Json × List Symbol)
  | 0, _, _ => .error .malformed
  | bound + 1, read, ss => do
    let (v, rest) ← value limit bound ss
    match skip rest with
    | .char ',' :: rest => items limit bound (v :: read) (skip rest)
    | .char ']' :: rest => .ok (.list (v :: read).reverse, rest)
    | _ => .error .malformed

/-- The members of an object that is not empty; `read` holds those read, last first. -/
def members (limit : Option Nat) :
    Nat → List (List Symbol × Json) → List Symbol → Except Fault (Json × List Symbol)
  | 0, _, _ => .error .malformed
  | bound + 1, read, ss => do
    match ss with
    | .char '\x22' :: rest =>
      let (key, rest) ← textFrom {} rest
      match skip rest with
      | .char ':' :: rest =>
        let (v, rest) ← value limit bound (skip rest)
        let read := (key, v) :: read
        match skip rest with
        | .char ',' :: rest => members limit bound read (skip rest)
        | .char '\x7d' :: rest => .ok (.ofMembers read.reverse, rest)
        | _ => .error .malformed
      | _ => .error .malformed
    | _ => .error .malformed

end

/-- The value of a JSON text, whose integers have at most so many digits. -/
def read (limit : Option Nat) (ss : List Symbol) : Except Fault Json := do
  let (v, rest) ← value limit (ss.length + 1) (skip ss)
  if (skip rest).isEmpty then .ok v else .error .malformed

end Limn.Json
