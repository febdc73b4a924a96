import Limn.Text.Bytes
import Limn.Text.Symbol

/-! # Encodings

Octets of a text that may be in UTF-8, or in units of sixteen or thirty-two bits with either end
first. Which it is shows in the zeros among the first four octets, because such a text starts with
two ASCII characters. Only UTF-8 may start with a byte order mark, which is not part of the text.
-/

namespace Limn.Text

/-- A form in which a text is stored; `big` says that the most significant octet comes first. -/
inductive Encoding where
  | utf8
  | utf16 (big : Bool)
  | utf32 (big : Bool)
deriving DecidableEq, Repr

namespace Encoding

/-- The encoding that the first octets show. -/
def detect : Bytes → Encoding
  | [0, _] => .utf16 true
  | [_, 0] => .utf16 false
  | 0 :: 0 :: _ :: _ :: _ => .utf32 true
  | 0 :: _ :: _ :: _ :: _ => .utf16 true
  | _ :: 0 :: 0 :: 0 :: _ => .utf32 false
  | _ :: 0 :: _ :: _ :: _ => .utf16 false
  | _ => .utf8

def number (big : Bool) (octets : Bytes) : Nat :=
  (if big then octets else octets.reverse).foldl (fun n b => n * 256 + b.toNat) 0

/-- The sixteen-bit units of octets, unless one is left over. -/
def units16 (big : Bool) : Bytes → Option (List Nat)
  | [] => some []
  | a :: b :: rest => (units16 big rest).map (number big [a, b] :: ·)
  | [_] => none

/-- The thirty-two-bit units of octets, unless some are left over or no code point is so large. -/
def units32 (big : Bool) : Bytes → Option (List Nat)
  | [] => some []
  | a :: b :: c :: d :: rest =>
    let n := number big [a, b, c, d]
    if n < 0x110000 then (units32 big rest).map (n :: ·) else none
  | _ => none

def dropMark : List Symbol → List Symbol
  | .char '\ufeff' :: rest => rest
  | symbols => symbols

def decode : Encoding → Bytes → Option (List Symbol)
  | .utf8, bs => bs.toText?.map fun s => dropMark (Symbol.ofText s)
  | .utf16 big, bs => (units16 big bs).map Symbol.ofUnits
  | .utf32 big, bs => (units32 big bs).map fun ns => ns.map Symbol.ofNat

end Encoding

end Limn.Text
