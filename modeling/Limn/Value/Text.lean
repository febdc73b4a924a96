import Limn.Text.Printable
import Limn.Value

/-! # Text of values

Every value has a text. A text is its own text; inside a list or a mapping it is quoted, and dates
and times are written out by their parts. Quoting prefers the apostrophe, takes the double quote
when the text holds an apostrophe and no double quote, and escapes what is not printable.

Integers are written in decimal only up to a number of digits. A value that holds a longer one has
a text here too, but callers ask `Value.isWritable` first.
-/

namespace Limn

/-- Numbers from a ten-thousandth up to sixteen digits are written positionally and always with a
point; the others have an exponent. -/
def Value.number : Decimal.Layout where
  leastPositional := -4
  mostPositional := 15
  wholeSuffix := ".0"
  loneSuffix := ""
  infinity := "inf"
  nan := "nan"

namespace Text

/-- Hexadecimal digits of a number, in lower case, padded with zeros to a width. -/
def hex (width n : Nat) : String :=
  let ds := Nat.toDigits 16 n
  String.ofList (List.replicate (width - ds.length) '0' ++ ds)

def quotedChar (quote c : Char) : String :=
  let n := c.toNat
  if c == quote || c == '\\' then "\\" ++ String.singleton c
  else if c == '\t' then "\\t"
  else if c == '\n' then "\\n"
  else if c == '\r' then "\\r"
  else if isPrintable c then String.singleton c
  else if n < 0x100 then "\\x" ++ hex 2 n
  else if n < 0x10000 then "\\u" ++ hex 4 n
  else "\\U" ++ hex 8 n

/-- The quote for characters: the apostrophe unless only it occurs among them. -/
def quoteFor (cs : List Char) : Char :=
  if cs.contains '\x27' && !cs.contains '\x22' then '\x22' else '\x27'

def quoted (s : String) : String :=
  let quote := quoteFor s.toList
  String.singleton quote ++ String.join (s.toList.map (quotedChar quote)) ++ String.singleton quote

def quotedSymbol (quote : Char) : Symbol → String
  | .char c => quotedChar quote c
  | .half h => "\\u" ++ hex 4 h.unit

def quotedRow (symbols : List Symbol) : String :=
  let quote := quoteFor (symbols.filterMap Symbol.char?)
  String.singleton quote ++ String.join (symbols.map (quotedSymbol quote)) ++
    String.singleton quote

/-- A row of symbols with escapes for the halves of pairs, which is how the streams for reports show
it. -/
def shownRow (symbols : List Symbol) : String :=
  String.join (symbols.map fun
    | .char c => String.singleton c
    | .half h => "\\u" ++ hex 4 h.unit)

/-- Octets between quotes: ASCII as characters, and the others by their numbers. -/
def quotedOctets (bytes : Bytes) : String :=
  let cs := bytes.map fun b => Char.ofNat b.toNat
  let quote := quoteFor cs
  let one (c : Char) := if c.toNat < 0x80 then quotedChar quote c else "\\x" ++ hex 2 c.toNat
  "b" ++ String.singleton quote ++ String.join (cs.map one) ++ String.singleton quote

end Text

def commaNumbers (ns : List Nat) : String :=
  ", ".intercalate (ns.map fun n => String.ofList (Nat.toDigits 10 n))

/-- `datetime.date(1979, 5, 27)`. -/
def Date.quoted (d : Date) : String :=
  "datetime.date(" ++ commaNumbers [d.year, d.month, d.day] ++ ")"

/-- `datetime.time(7, 32)`. -/
def Clock.quoted (t : Clock) : String :=
  "datetime.time(" ++ commaNumbers t.parts ++ ")"

/-- The zone of an offset: a negative one is a day back and the rest of the day forward. -/
def Moment.zoneQuoted (minutes : Int) : String :=
  let seconds (n : Int) := "seconds=" ++ String.ofList (Nat.toDigits 10 (n * 60).toNat)
  if minutes == 0 then "datetime.timezone.utc"
  else if minutes < 0 then
    "datetime.timezone(datetime.timedelta(days=-1, " ++ seconds (minutes + 1440) ++ "))"
  else "datetime.timezone(datetime.timedelta(" ++ seconds minutes ++ "))"

/-- `datetime.datetime(1979, 5, 27, 7, 32)`. -/
def Moment.quoted (m : Moment) : String :=
  "datetime.datetime(" ++
    commaNumbers ([m.date.year, m.date.month, m.date.day] ++ m.clock.parts) ++
    (m.offset.map fun o => ", tzinfo=" ++ zoneQuoted o).getD "" ++ ")"

def Value.intText (n : Int) : String :=
  let ds := String.ofList (Nat.toDigits 10 n.natAbs)
  if n < 0 then "-" ++ ds else ds

mutual

/-- The text of a value inside a list or a mapping. The members of a set are written in the order in
which they were put into it. -/
def Value.quoted : Value → String
  | .null => "None"
  | .bool b => if b then "True" else "False"
  | .int n => intText n
  | .float x => number.text x
  | .text s => Text.quoted s
  | .halved h => Text.quotedRow h.symbols
  | .date d => d.quoted
  | .clock t => t.quoted
  | .moment m => m.quoted
  | .octets bytes => Text.quotedOctets bytes
  | .pair a b => "(" ++ a.quoted ++ ", " ++ b.quoted ++ ")"
  | .set [] => "set()"
  | .set (v :: rest) => "\x7b" ++ ", ".intercalate (quotedItems (v :: rest)) ++ "\x7d"
  | .list items => "[" ++ ", ".intercalate (quotedItems items) ++ "]"
  | .map entries => "\x7b" ++ ", ".intercalate (quotedEntries entries) ++ "\x7d"

def Value.quotedItems : List Value → List String
  | [] => []
  | v :: rest => v.quoted :: quotedItems rest

def Value.quotedEntries : List (Value × Value) → List String
  | [] => []
  | (k, v) :: rest => (k.quoted ++ ": " ++ v.quoted) :: quotedEntries rest

end

/-- The text of a value on its own, with escapes if it is a row of symbols that is no text. -/
def Value.toText : Value → String
  | .text s => s
  | .halved h => Text.shownRow h.symbols
  | .date d => d.text
  | .clock t => t.text
  | .moment m => m.text
  | v => v.quoted

/-- A wording as the streams for reports show it. -/
def Wording.shown : Wording → String
  | .text s => s
  | .halved h => Text.shownRow h.symbols

/-- The wording of a value on its own. -/
def Value.wording : Value → Wording
  | .halved h => .halved h
  | v => .text v.toText

/-! ## What can be written -/

/-- The most digits that a decimal numeral may have. -/
def Text.mostDigits : Nat := 4300

def Value.hasNumeral (n : Int) : Bool :=
  n.natAbs < Decimal.pow10 Text.mostDigits

mutual

/-- Every integer in the value has a decimal numeral. -/
def Value.isWritable : Value → Bool
  | .int n => hasNumeral n
  | .pair a b => a.isWritable && b.isWritable
  | .set items => areWritable items
  | .list items => areWritable items
  | .map entries => entriesWritable entries
  | _ => true

def Value.areWritable : List Value → Bool
  | [] => true
  | v :: rest => v.isWritable && areWritable rest

def Value.entriesWritable : List (Value × Value) → Bool
  | [] => true
  | (k, v) :: rest => k.isWritable && v.isWritable && entriesWritable rest

end

end Limn
