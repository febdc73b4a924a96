import Limn.Text.Digit
import Limn.Toml.Table
import Limn.Value.Integer

/-! # The words of a settings document

Names, texts, numbers, dates and times as TOML writes them. Each reader takes its word off the
front of the characters that remain. A reader that gives an `Option` only looks: what it refuses
may still be a word of another kind.
-/

namespace Limn.Toml

/-- Why a document could not be read: it is not well-formed, or a numeral has too many digits. -/
inductive Fault where
  | malformed
  | tooManyDigits
deriving DecidableEq, Repr

/-- A reading of which a refusal is a fault. -/
def required {α : Type} : Option α → Except Fault α
  | some a => .ok a
  | none => .error .malformed

/-! ## Blanks and comments -/

def isBlank (c : Char) : Bool := c == ' ' || c == '\t'

def isSpace (c : Char) : Bool := isBlank c || c == '\n'

/-- Control characters may not stand in comments and texts; tabs may. -/
def isIllegal (c : Char) : Bool :=
  (c.toNat < 0x20 || c.toNat == 0x7f) && c != '\t'

def skipBlanks : List Char → List Char := List.dropWhile isBlank

def skipComment (cs : List Char) : Except Fault (List Char) :=
  match cs with
  | '#' :: rest =>
    let (body, rest) := rest.span (· != '\n')
    if body.any isIllegal then .error .malformed else .ok rest
  | _ => .ok cs

/-- Skip blanks, line ends and comments. Each round skips a comment, so a bound of the number of
characters never runs out. -/
def skipSpace : Nat → List Char → Except Fault (List Char)
  | 0, cs => .ok cs
  | bound + 1, cs =>
    match cs.dropWhile isSpace with
    | '#' :: rest => do skipSpace bound (← skipComment ('#' :: rest))
    | rest => .ok rest

/-! ## Texts -/

def hexChar (count : Nat) (cs : List Char) : Option (Char × List Char) := do
  if cs.length < count then none
  let ns ← (cs.take count).mapM Text.hexValue?
  let n := Text.ofDigits 16 ns
  if n < 0xd800 || (0xe000 ≤ n && n < 0x110000) then some (Char.ofNat n, cs.drop count) else none

/-- What stands for a character after a backslash, hexadecimal forms apart. -/
def escape? : Char → Option Char
  | 'b' => some '\x08'
  | 't' => some '\t'
  | 'n' => some '\n'
  | 'f' => some '\x0c'
  | 'r' => some '\r'
  | '\x22' => some '\x22'
  | '\\' => some '\\'
  | _ => none

/-- What follows a backslash: a character, or nothing where a backslash at the end of a line of a
longer text takes the line end and the blanks around it. -/
def escape (lines : Bool) (cs : List Char) : Option (Option Char × List Char) :=
  match cs with
  | [] => none
  | 'u' :: rest => (hexChar 4 rest).map fun (c, rest) => (some c, rest)
  | 'U' :: rest => (hexChar 8 rest).map fun (c, rest) => (some c, rest)
  | c :: rest =>
    if lines && isSpace c then
      if c == '\n' then some (none, rest.dropWhile isSpace)
      else
        match skipBlanks rest with
        | [] => some (none, [])
        | '\n' :: rest => some (none, rest.dropWhile isSpace)
        | _ => none
    else (escape? c).map fun c => (some c, rest)

/-- The rest of a text in double quotes after its opening; `read` holds the characters read, last
first. With `lines` the text may go over several lines and ends with three quotes. -/
def basicText (lines : Bool) : Nat → List Char → List Char → Option (List Char × List Char)
  | 0, _, _ => none
  | bound + 1, read, cs =>
    match cs with
    | [] => none
    | '\x22' :: rest =>
      if lines then
        match rest with
        | '\x22' :: '\x22' :: rest => some (read.reverse, rest)
        | _ => basicText lines bound ('\x22' :: read) rest
      else some (read.reverse, rest)
    | '\\' :: rest => do
      let (found, rest) ← escape lines rest
      basicText lines bound (found.toList ++ read) rest
    | c :: rest =>
      if isIllegal c && !(lines && c == '\n') then none else basicText lines bound (c :: read) rest

def splitAtTriple : List Char → Option (List Char × List Char)
  | [] => none
  | c :: rest =>
    match c, rest with
    | '\x27', '\x27' :: '\x27' :: more => some ([], more)
    | _, _ => (splitAtTriple rest).map fun (before, after) => (c :: before, after)

/-- A longer text may end with up to two quotes of its own before the three that close it. -/
def closingQuotes (quote : Char) (text : List Char) (cs : List Char) : String × List Char :=
  match cs with
  | a :: b :: rest =>
    if a == quote && b == quote then (String.ofList (text ++ [a, b]), rest)
    else if a == quote then (String.ofList (text ++ [a]), b :: rest)
    else (String.ofList text, cs)
  | [a] => if a == quote then (String.ofList (text ++ [a]), []) else (String.ofList text, cs)
  | [] => (String.ofList text, [])

/-- The line end right after the opening of a longer text does not belong to it. -/
def dropLineEnd : List Char → List Char
  | '\n' :: rest => rest
  | cs => cs

/-- A text in single quotes on one line, after its opening. -/
def literalText (cs : List Char) : Option (String × List Char) :=
  match cs.span (· != '\x27') with
  | (body, _ :: rest) => if body.any isIllegal then none else some (String.ofList body, rest)
  | (_, []) => none

/-- A text in double quotes on one line, after its opening. -/
def lineText (cs : List Char) : Option (String × List Char) :=
  (basicText false (cs.length + 1) [] cs).map fun (body, rest) => (String.ofList body, rest)

def text? (cs : List Char) : Option (Except Fault (String × List Char)) :=
  match cs with
  | '\x22' :: '\x22' :: '\x22' :: rest =>
    some <| required <|
      (basicText true (rest.length + 1) [] (dropLineEnd rest)).map fun (body, rest) =>
        closingQuotes '\x22' body rest
  | '\x22' :: rest => some (required (lineText rest))
  | '\x27' :: '\x27' :: '\x27' :: rest =>
    some <| required <| do
      let (body, rest) ← splitAtTriple (dropLineEnd rest)
      if body.any fun c => isIllegal c && c != '\n' then none
      else some (closingQuotes '\x27' body rest)
  | '\x27' :: rest => some (required (literalText rest))
  | _ => none

/-! ## Keys -/

def isBare (c : Char) : Bool :=
  c.isAlphanum || c == '-' || c == '_'

def keyName (cs : List Char) : Option (String × List Char) :=
  match cs with
  | '\x27' :: rest => literalText rest
  | '\x22' :: rest => lineText rest
  | _ =>
    match cs.span isBare with
    | ([], _) => none
    | (name, rest) => some (String.ofList name, rest)

/-- The names of a dotted key after the first, given those before, last first. -/
def keyRest : Nat → KeyPath → String → List Char → Option (Key × List Char)
  | 0, _, _, _ => none
  | bound + 1, before, name, cs =>
    match skipBlanks cs with
    | '.' :: rest => do
      let (next, rest) ← keyName (skipBlanks rest)
      keyRest bound (name :: before) next rest
    | rest => some (⟨before.reverse, name⟩, rest)

def key (cs : List Char) : Except Fault (Key × List Char) :=
  required do
    let (name, rest) ← keyName cs
    keyRest (cs.length + 1) [] name rest

/-! ## Numbers -/

def moreDigits (isDigit : Char → Bool) : List Char → List Char × List Char
  | [] => ([], [])
  | c :: rest =>
    if isDigit c then
      let (ds, rest) := moreDigits isDigit rest
      (c :: ds, rest)
    else
      match c, rest with
      | '_', d :: more =>
        if isDigit d then
          let (ds, rest) := moreDigits isDigit more
          (d :: ds, rest)
        else ([], c :: rest)
      | _, _ => ([], c :: rest)

def digitRow (isDigit : Char → Bool) (cs : List Char) : Option (List Char × List Char) :=
  match cs with
  | c :: rest =>
    if isDigit c then
      let (ds, rest) := moreDigits isDigit rest
      some (c :: ds, rest)
    else none
  | [] => none

/-- A number in a base other than ten, after its zero. -/
def radixNumber (cs : List Char) : Option (Value × List Char) :=
  let row (base : Nat) (rest : List Char) : Option (Value × List Char) := do
    let value (c : Char) := (Text.hexValue? c).getD base
    let (ds, rest) ← digitRow (fun c => value c < base) rest
    return (.int (Text.ofDigits base (ds.map value)), rest)
  match cs with
  | 'x' :: rest => row 16 rest
  | 'o' :: rest => row 8 rest
  | 'b' :: rest => row 2 rest
  | _ => none

/-- The digits after a point, if there is a point with digits. -/
def fraction (cs : List Char) : List Char × List Char :=
  match cs with
  | '.' :: rest => (digitRow Text.isAsciiDigit rest).getD ([], cs)
  | _ => ([], cs)

def exponent (cs : List Char) : Option Int × List Char :=
  match cs with
  | c :: rest =>
    if c == 'e' || c == 'E' then
      let (negative, digits) := match rest with
        | '-' :: more => (true, more)
        | '+' :: more => (false, more)
        | _ => (false, rest)
      match digitRow Text.isAsciiDigit digits with
      | none => (none, cs)
      | some (ds, rest) =>
        let n := (Text.asciiNumber ds : Int)
        (some (if negative then -n else n), rest)
    else (none, cs)
  | [] => (none, cs)

/-- The digits before the point: a lone zero, or a row that does not start with zero. -/
def wholeDigits (cs : List Char) : Option (List Char × List Char) :=
  match cs with
  | '0' :: rest => some (['0'], rest)
  | _ => digitRow Text.isAsciiDigit cs

def decimal (negative : Bool) (cs : List Char) : Option (Except Fault (Value × List Char)) := do
  let (whole, rest) ← wholeDigits cs
  let (places, rest) := fraction rest
  let (power, rest) := exponent rest
  if places.isEmpty && power.isNone then
    if Text.mostDigits < whole.length then return .error .tooManyDigits
    let n := (Text.asciiNumber whole : Int)
    return .ok (.int (if negative then -n else n), rest)
  else
    let x := Decimal.nearest (Text.asciiNumber (whole ++ places)) (power.getD 0 - places.length)
    return .ok (.float (if negative then -x else x), rest)

def number? (cs : List Char) : Option (Except Fault (Value × List Char)) :=
  match cs with
  | '-' :: rest => decimal true rest
  | '+' :: rest => decimal false rest
  | '0' :: rest =>
    match radixNumber rest with
    | some found => some (.ok found)
    | none => decimal false cs
  | _ => decimal false cs

/-! ## Dates and times -/

def twoDigits (least most : Nat) (cs : List Char) : Option (Nat × List Char) :=
  match cs with
  | a :: b :: rest =>
    if Text.isAsciiDigit a && Text.isAsciiDigit b then
      let n := Text.asciiNumber [a, b]
      if least ≤ n && n ≤ most then some (n, rest) else none
    else none
  | _ => none

def after? (c : Char) (cs : List Char) : Option (List Char) :=
  match cs with
  | d :: rest => if c == d then some rest else none
  | [] => none

/-- The microseconds after the seconds; digits beyond the sixth do not count. -/
def micros (cs : List Char) : Nat × List Char :=
  match cs with
  | '.' :: rest =>
    match rest.span Text.isAsciiDigit with
    | ([], _) => (0, cs)
    | (ds, rest) =>
      let six := ds.take 6
      (Text.asciiNumber six * Decimal.pow10 (6 - six.length), rest)
  | _ => (0, cs)

def clock? (cs : List Char) : Option (Clock × List Char) := do
  let (hour, rest) ← twoDigits 0 23 cs
  let (minute, rest) ← twoDigits 0 59 (← after? ':' rest)
  let (second, rest) ← twoDigits 0 59 (← after? ':' rest)
  let (micro, rest) := micros rest
  return (⟨hour, minute, second, micro⟩, rest)

/-- The offset from universal time in minutes, if one is given. -/
def offset (cs : List Char) : Option Int × List Char :=
  let signed (sign : Int) (rest : List Char) : Option (Int × List Char) := do
    let (hour, rest) ← twoDigits 0 23 rest
    let (minute, rest) ← twoDigits 0 59 (← after? ':' rest)
    return (sign * (hour * 60 + minute), rest)
  let found := match cs with
    | 'Z' :: rest => some (0, rest)
    | 'z' :: rest => some (0, rest)
    | '+' :: rest => signed 1 rest
    | '-' :: rest => signed (-1) rest
    | _ => none
  match found with
  | some (minutes, rest) => (some minutes, rest)
  | none => (none, cs)

/-- The numbers of a date: four digits, a month and a day that some month has. -/
def dateParts (cs : List Char) : Option ((Nat × Nat × Nat) × List Char) := do
  let (century, rest) ← twoDigits 0 99 cs
  let (year, rest) ← twoDigits 0 99 rest
  let (month, rest) ← twoDigits 1 12 (← after? '-' rest)
  let (day, rest) ← twoDigits 1 31 (← after? '-' rest)
  return ((century * 100 + year, month, day), rest)

/-- A date, or a time on a date. Numbers of a day that the calendar does not have are a fault. -/
def date? (cs : List Char) : Option (Except Fault (Value × List Char)) := do
  let ((year, month, day), rest) ← dateParts cs
  let timed := match rest with
    | c :: more => if c == 'T' || c == 't' || c == ' ' then clock? more else none
    | [] => none
  return do
    let date ← required (Date.of? year month day)
    match timed with
    | none => .ok (.date date, rest)
    | some (clock, rest) =>
      let (offset, rest) := offset rest
      .ok (.moment ⟨date, clock, offset⟩, rest)

/-! ## Scalars -/

def words : List (String × Value) := [
  ("true", .bool true), ("false", .bool false)]

def specialNumbers : List (String × Value) := [
  ("inf", .float Decimal.infinity), ("nan", .float Decimal.nan),
  ("-inf", .float (-Decimal.infinity)), ("+inf", .float Decimal.infinity),
  ("-nan", .float Decimal.nan), ("+nan", .float Decimal.nan)]

def word? (table : List (String × Value)) (cs : List Char) : Option (Value × List Char) :=
  table.findSome? fun (w, v) =>
    let w := w.toList
    if w.isPrefixOf cs then some (v, cs.drop w.length) else none

/-- A value that is not nested. A date is looked for before a time, and both before a number. -/
def scalar (cs : List Char) : Except Fault (Value × List Char) :=
  let found : Option (Except Fault (Value × List Char)) :=
    ((text? cs).map fun r => r.map fun (s, rest) => (.text s, rest))
    <|> (word? words cs).map .ok
    <|> date? cs
    <|> (clock? cs).map (fun (t, rest) => .ok (.clock t, rest))
    <|> number? cs
    <|> (word? specialNumbers cs).map .ok
  found.getD (.error .malformed)

end Limn.Toml
