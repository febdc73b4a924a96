import Limn.Text.Blank
import Limn.Text.Digit
import Limn.Value.Text

/-! # Integers out of values

Offsets may be given as integers, truth values, floating point numbers or numerals, as text or as
ASCII octets. A number is cut toward zero; an infinite one is refused apart from all other faults. A
numeral may have blanks around it, a sign, digits of any script and single underscores between
digits.
-/

namespace Limn

/-- The digits of a numeral without sign: at least one, with single underscores only between
digits. -/
def Text.numeralDigits? : List Char → Option (List Nat)
  | [] => none
  | [c] => (digitValue? c).map ([·])
  | c :: d :: rest => do
    let n ← digitValue? c
    if d == '_' then
      match rest with
      | [] => none
      | e :: more =>
        let ns ← numeralDigits? (e :: more)
        return n :: ns
    else
      let ns ← numeralDigits? (d :: rest)
      return n :: ns

def Text.natural? (cs : List Char) : Option Nat := do
  let ns ← numeralDigits? cs
  if ns.length ≤ mostDigits then some (ofDigits 10 ns) else none

/-- The integer that the characters of a numeral denote. -/
def Text.integerOf? (cs : List Char) : Option Int :=
  match trimNumeral cs with
  | '-' :: cs => (natural? cs).map fun n => -(n : Int)
  | '+' :: cs => (natural? cs).map fun n => (n : Int)
  | cs => (natural? cs).map fun n => (n : Int)

def Text.integer? (s : String) : Option Int :=
  integerOf? s.toList

/-- The integer that a numeral in ASCII octets denotes. -/
def Text.octetInteger? (bytes : Bytes) : Option Int :=
  if bytes.all (· < 0x80) then integerOf? (bytes.map fun b => Char.ofNat b.toNat) else none

/-- What reading an integer out of a value can give. -/
inductive IntegerReading where
  | integer (n : Int)
  | infinite
  | notInteger
deriving DecidableEq, Repr

def Value.integer : Value → IntegerReading
  | .int n => .integer n
  | .bool b => .integer (if b then 1 else 0)
  | .float x =>
    match Decimal.parts x with
    | .infinite _ => .infinite
    | _ => ((Decimal.wholePart? x).map IntegerReading.integer).getD .notInteger
  | .text s => ((Text.integer? s).map IntegerReading.integer).getD .notInteger
  | .octets bytes => ((Text.octetInteger? bytes).map IntegerReading.integer).getD .notInteger
  | _ => .notInteger

end Limn
