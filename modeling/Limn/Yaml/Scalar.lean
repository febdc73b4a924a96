import Limn.Value.Integer
import Limn.Yaml.Cursor

/-! # Scalar types of YAML

The type of a plain scalar is read off its characters: truth values, null, integers in five
notations, floating point numbers, points in time, and the signs of merge and default keys.
Everything else is text. A line feed after these characters does not change the type, although not
every type has a value then. `typeOf` decides the type and `Scalar.value` reads the value; a type
may also be given by a tag, and then the characters may be any.
-/

namespace Limn.Yaml

inductive ScalarType where
  | null
  | bool
  | int
  | float
  | timestamp
  | octets
  | merge
  | default
  /-- A sign of the language, which stands for no value. -/
  | sign
  | text
deriving DecidableEq, Repr, Inhabited

namespace Scalar

/-! ## Shapes -/

def unsigned : List Char → List Char
  | '-' :: cs => cs
  | '+' :: cs => cs
  | cs => cs

/-- Nothing but characters of a class, and at least one. -/
def someOf (p : Char → Bool) (cs : List Char) : Bool :=
  !cs.isEmpty && cs.all p

def isDigitOrBar (c : Char) : Bool :=
  Text.isAsciiDigit c || c == '_'

def isDigitRow : List Char → Bool
  | c :: cs => Text.isAsciiDigit c && cs.all isDigitOrBar
  | [] => false

def isPositiveRow (cs : List Char) : Bool :=
  isDigitRow cs && cs.head? != some '0'

/-- A number below sixty, with one digit or two. -/
def isSixtieth : List Char → Bool
  | [d] => Text.isAsciiDigit d
  | [t, d] => '0' ≤ t && t ≤ '5' && Text.isAsciiDigit d
  | _ => false

def colonParts (cs : List Char) : List (List Char) :=
  cs.splitOn ':'

def isExponent : List Char → Bool
  | e :: s :: ds => (e == 'e' || e == 'E') && (s == '-' || s == '+') && someOf Text.isAsciiDigit ds
  | _ => false

/-- Digits and underscores after the point, and perhaps an exponent. -/
def isFraction (cs : List Char) : Bool :=
  let rest := cs.dropWhile isDigitOrBar
  rest.isEmpty || isExponent rest

/-- An integer: binary, octal, decimal, hexadecimal or in base sixty. -/
def isInt (cs : List Char) : Bool :=
  match unsigned cs with
  | '0' :: 'b' :: ds => someOf (fun c => c == '0' || c == '1' || c == '_') ds
  | '0' :: 'x' :: ds => someOf (fun c => (Text.hexValue? c).isSome || c == '_') ds
  | ['0'] => true
  | '0' :: ds => ds.all fun c => ('0' ≤ c && c ≤ '7') || c == '_'
  | ds =>
    match colonParts ds with
    | [whole] => isPositiveRow whole
    | whole :: sixtieths => isPositiveRow whole && sixtieths.all isSixtieth
    | [] => false

/-- A floating point number: with a point, in base sixty with a point, infinite or not a number. -/
def isFloat (cs : List Char) : Bool :=
  let ds := unsigned cs
  let (whole, rest) := ds.span (· != '.')
  match rest with
  | [] => false
  | _ :: fraction =>
    match colonParts whole with
    | [[]] =>
      let word := String.ofList fraction
      ["inf", "Inf", "INF"].contains word ||
        (ds.length == cs.length &&
          (["nan", "NaN", "NAN"].contains word ||
            ((fraction.head?.map Text.isAsciiDigit).getD false && isFraction fraction)))
    | [digits] => isDigitRow digits && isFraction fraction
    | digits :: sixtieths =>
      isDigitRow digits && sixtieths.all isSixtieth && fraction.all isDigitOrBar
    | [] => false

/-! ## Points in time -/

structure Stamp where
  year : List Char
  month : List Char
  day : List Char
  time : Option (List Char × List Char × List Char × List Char) := none
  /-- Minutes from universal time. -/
  offset : Option Int := none
deriving Repr, Inhabited

/-- A row of digits whose length lies between two bounds, and what remains. -/
def digitsBetween (least most : Nat) (cs : List Char) : Option (List Char × List Char) :=
  let ds := (cs.take most).takeWhile Text.isAsciiDigit
  if least ≤ ds.length then some (ds, cs.drop ds.length) else none

def after (sign : Char) : List Char → Option (List Char)
  | c :: cs => if c == sign then some cs else none
  | [] => none

/-- The zone at the end of a point in time: none, universal time, or an offset. -/
def zone? (cs : List Char) : Option (Option Int) :=
  match cs with
  | [] => some none
  | _ =>
    match cs.dropWhile fun c => c == ' ' || c == '\t' with
    | ['Z'] => some (some 0)
    | s :: rest => do
      if s != '-' && s != '+' then none
      let (hours, rest) ← digitsBetween 1 2 rest
      let (minutes, rest) ← match rest with
        | ':' :: rest => digitsBetween 2 2 rest
        | _ => some ([], rest)
      if !rest.isEmpty then none
      let n : Int := Text.asciiNumber hours * 60 + Text.asciiNumber minutes
      return some (if s == '-' then -n else n)
    | [] => none

/-- The time of day after a date, after a `T` or blanks. -/
def time? (cs : List Char) :
    Option ((List Char × List Char × List Char × List Char) × Option Int) := do
  let cs ← match cs with
    | 'T' :: rest => some rest
    | 't' :: rest => some rest
    | c :: _ => if c == ' ' || c == '\t' then
        some (cs.dropWhile fun c => c == ' ' || c == '\t') else none
    | [] => none
  let (hour, cs) ← digitsBetween 1 2 cs
  let (minute, cs) ← digitsBetween 2 2 (← after ':' cs)
  let (second, cs) ← digitsBetween 2 2 (← after ':' cs)
  let (places, cs) := match cs with
    | '.' :: rest => rest.span Text.isAsciiDigit
    | _ => ([], cs)
  let zone ← zone? cs
  return ((hour, minute, second, places), zone)

/-- A point in time: a date, perhaps with a time of day. -/
def stamp? (cs : List Char) : Option Stamp := do
  let (year, cs) ← digitsBetween 4 4 cs
  let (month, cs) ← digitsBetween 1 2 (← after '-' cs)
  let (day, cs) ← digitsBetween 1 2 (← after '-' cs)
  if cs.isEmpty then return { year, month, day }
  else
    let (time, offset) ← time? cs
    return { year, month, day, time := some time, offset }

/-- Characters that are taken for a point in time: a date on its own needs two digits for the month
and the day. -/
def isTimestamp (cs : List Char) : Bool :=
  match stamp? cs with
  | none => false
  | some s => s.time.isSome || (s.month.length == 2 && s.day.length == 2)

/-- The date or moment that is written. Places beyond the microsecond are dropped. -/
def Stamp.value (s : Stamp) : Except Fault Value :=
  let n := Text.asciiNumber
  match Date.of? (n s.year) (n s.month) (n s.day), s.time with
  | none, _ => .error .badScalar
  | some date, none => .ok (.date date)
  | some date, some (hour, minute, second, places) =>
    let places := places.take 6
    let micro := n (places ++ List.replicate (6 - places.length) '0')
    match Clock.of? (n hour) (n minute) (n second) micro, s.offset with
    | none, _ => .error .badScalar
    | some clock, none => .ok (.moment ⟨date, clock, none⟩)
    | some clock, some offset =>
      if offset.natAbs < 1440 then .ok (.moment ⟨date, clock, some offset⟩) else .error .badScalar

/-! ## Types -/

def boolWords : List (String × Bool) := [
  ("yes", true), ("no", false), ("true", true), ("false", false), ("on", true), ("off", false)]

/-- A word in lower case, with its first letter in upper case, or all in upper case. -/
def isCased (word : String) (s : String) : Bool :=
  s == word || s == word.capitalize || s == word.toUpper

def withoutLineFeed (cs : List Char) : List Char :=
  if cs.getLast? == some '\n' then cs.dropLast else cs

/-- The type that the characters of a plain scalar have, apart from a line feed after them. -/
def typeOfLine (s : String) : ScalarType :=
  let cs := s.toList
  if boolWords.any fun (w, _) => isCased w s then .bool
  else if isFloat cs then .float
  else if isInt cs then .int
  else if s == "<<" then .merge
  else if s == "~" || s == "" || isCased "null" s then .null
  else if isTimestamp cs then .timestamp
  else if s == "=" then .default
  else if s == "!" || s == "&" || s == "*" then .sign
  else .text

def typeOf (s : String) : ScalarType :=
  if s == "\n" then .text else typeOfLine (String.ofList (withoutLineFeed s.toList))

/-- The type that the symbols of a scalar have. Only characters make anything but text. -/
def impliedType : Wording → ScalarType
  | .text s => typeOf s
  | .halved _ => .text

/-! ## Values -/

/-- The natural number of digits in a base; `none` if there are none or others. -/
def digitsIn (base : Nat) (cs : List Char) : Option Nat := do
  if cs.isEmpty then none
  let ns ← cs.mapM fun c => do
    let n ← Text.digitValue? c <|> Text.hexValue? c
    if n < base then some n else none
  return Text.ofDigits base ns

/-- The integer of a numeral in a base, with blanks around it, a sign, and the letter of the base
after a zero. -/
def integerIn (base : Nat) (letter : Char) (cs : List Char) : Option Int :=
  let cs := Text.trimNumeral cs
  let digits := match unsigned cs with
    | '0' :: l :: ds => if l.toLower == letter then ds else '0' :: l :: ds
    | ds => ds
  (digitsIn base digits).map fun n => if cs.head? == some '-' then -(n : Int) else n

def sixties (parts : List Int) : Int :=
  parts.foldl (fun n d => n * 60 + d) 0

def intValue (cs : List Char) : Except Fault Int := do
  if cs.isEmpty then .error .emptyScalar
  let orBad {α : Type} (n : Option α) : Except Fault α := n.elim (.error .badScalar) .ok
  let n ← match unsigned cs with
    | [] => .error .emptyScalar
    | ['0'] => .ok 0
    | '0' :: 'b' :: ds => orBad (integerIn 2 'b' ds)
    | '0' :: 'x' :: ds => orBad (integerIn 16 'x' ds)
    | '0' :: ds => orBad (integerIn 8 'o' ('0' :: ds))
    | ds =>
      if ds.contains ':' then do
        let parts ← (colonParts ds).mapM fun p => orBad (Text.integer? (String.ofList p))
        .ok (sixties parts)
      else orBad (Text.integer? (String.ofList ds))
  .ok (if cs.head? == some '-' then -n else n)

/-- The exponent at the end of a decimal: a letter, perhaps a sign, and digits. -/
def exponent? : List Char → Option Int
  | [] => some 0
  | e :: rest =>
    if e == 'e' then
      (digitsIn 10 (unsigned rest)).map fun n => if rest.head? == some '-' then -(n : Int) else n
    else none

def decimal? (cs : List Char) : Option Float := do
  let isDigit (c : Char) := (Text.digitValue? c).isSome
  let (whole, rest) := cs.span isDigit
  let (places, rest) := match rest with
    | '.' :: rest => rest.span isDigit
    | _ => ([], rest)
  let n ← digitsIn 10 (whole ++ places)
  let e ← exponent? rest
  return Decimal.nearest n (e - places.length)

/-- The double of a numeral in lower case: blanks around it, a sign, a decimal or a word. -/
def float? (cs : List Char) : Option Float :=
  let cs := Text.trimNumeral cs
  let body := unsigned cs
  let x := match String.ofList body with
    | "inf" | "infinity" => some Decimal.infinity
    | "nan" => some Decimal.nan
    | _ => decimal? body
  x.map fun x => if cs.head? == some '-' then -x else x

/-- A sum in base sixty, from the last part to the first, rounded at each step. So many parts that
the power of sixty is beyond all doubles are too large. -/
def floatSixties (parts : List Float) : Except Fault Float :=
  if 174 < parts.length then .error .tooLarge
  else
    let (x, _) := parts.reverse.foldl (fun (x, base) d => (x + d * Decimal.nearest base 0, base * 60))
      ((0.0 : Float), 1)
    .ok x

/-- The floating point number of a scalar in lower case without underscores. -/
def floatValue (cs : List Char) : Except Fault Float := do
  if cs.isEmpty then .error .emptyScalar
  let orBad {α : Type} (x : Option α) : Except Fault α := x.elim (.error .badScalar) .ok
  let body := unsigned cs
  let x ←
    if String.ofList body == ".inf" then .ok Decimal.infinity
    else if String.ofList body == ".nan" then .ok Decimal.nan
    else if body.contains ':' then do
      let parts ← (colonParts body).mapM fun p => orBad (float? p)
      floatSixties parts
    else orBad (float? body)
  .ok (if cs.head? == some '-' then -x else x)

/-! ### Octets -/

/-- The value of a digit in base 64. -/
def sixtyFourth? (c : Char) : Option Nat :=
  if 'A' ≤ c && c ≤ 'Z' then some (c.toNat - 'A'.toNat)
  else if 'a' ≤ c && c ≤ 'z' then some (c.toNat - 'a'.toNat + 26)
  else if '0' ≤ c && c ≤ '9' then some (c.toNat - '0'.toNat + 52)
  else if c == '+' then some 62
  else if c == '/' then some 63
  else none

/-- The octets written in base 64. Four digits make three octets; `held` are the digits of a group
that is not complete, and `pads` the equals signs since the last digit. A group of two or three
digits ends the octets once equals signs make it four; other characters do not count. -/
def octetsFrom (held : List Nat) (pads : Nat) : List Char → Option Bytes
  | [] => if held.isEmpty then some [] else none
  | c :: rest =>
    let octet (n : Nat) := UInt8.ofNat (n % 256)
    if c == '=' then
      match held with
      | [a, b] => if 4 ≤ 3 + pads then some [octet (a * 4 + b / 16)] else octetsFrom held (pads + 1) rest
      | [a, b, d] => some [octet (a * 4 + b / 16), octet (b * 16 + d / 4)]
      | _ => octetsFrom held pads rest
    else
      match sixtyFourth? c, held with
      | none, _ => octetsFrom held pads rest
      | some n, [a, b, d] =>
        (octetsFrom [] 0 rest).map
          ([octet (a * 4 + b / 16), octet (b * 16 + d / 4), octet (d * 64 + n)] ++ ·)
      | some n, _ => octetsFrom (held ++ [n]) 0 rest

def octets? (cs : List Char) : Option Bytes :=
  if cs.all (·.toNat < 0x80) then octetsFrom [] 0 cs else none

/-! ### All types -/

/-- A floating point scalar is the word for a number that is not one, which is the same number
wherever it is written; other such numbers are all different. -/
def isNanWord (s : String) : Bool :=
  String.ofList (unsigned ((s.toList.filter (· != '_')).map Char.toLower)) == ".nan"

/-- The value of a scalar of a type. The signs of the language and of merge and default keys have
none. -/
def textValue (type : ScalarType) (s : String) : Except Fault Value :=
  let bare := s.toList.filter (· != '_')
  match type with
  | .null => .ok .null
  | .bool =>
    match boolWords.lookup s.toLower with
    | some b => .ok (.bool b)
    | none => .error .unknownWord
  | .int => (intValue bare).map .int
  | .float => (floatValue (bare.map Char.toLower)).map .float
  | .timestamp =>
    match stamp? (withoutLineFeed s.toList) with
    | some stamp => stamp.value
    | none => .error .notTimestamp
  | .octets =>
    match octets? s.toList with
    | some bytes => .ok (.octets bytes)
    | none => .error .malformed
  | .text => .ok (.text s)
  | .merge | .default | .sign => .error .malformed

/-- The value of a scalar that is no text. All types but text refuse it, each in its way. -/
def halvedValue (type : ScalarType) (h : Halved) : Except Fault Value :=
  match type with
  | .null => .ok .null
  | .bool => .error .unknownWord
  | .int | .float => .error .badScalar
  | .timestamp => .error .notTimestamp
  | .text => .ok (.halved h)
  | .octets | .merge | .default | .sign => .error .malformed

def value (type : ScalarType) : Wording → Except Fault Value
  | .text s => textValue type s
  | .halved h => halvedValue type h

end Scalar

end Limn.Yaml
