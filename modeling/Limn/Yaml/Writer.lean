import Limn.Value.Text
import Limn.Yaml.Scalar

/-! # Writing YAML

Values in block style: one entry or item to a line, entries two columns further in than the mapping
around them, items of a sequence at the column of the mapping that holds it. Empty collections are
written between brackets.

A text is written plain if it then reads back as text, else between apostrophes, and between double
quotes if it holds characters or blanks at line ends that the other styles cannot keep. Lines are
broken at a blank once they pass column 80.
-/

namespace Limn.Yaml

open Limn.Text (Symbol)

namespace Writer

/-! ## Which style a text needs -/

/-- The column after which lines are broken. -/
def width : Nat := 80

/-- A break that is written as itself. -/
def isWrittenBreak (c : Char) : Bool :=
  c == '\n' || c == '\u0085' || c == '\u2028' || c == '\u2029'

/-- A character that can only be written by an escape. -/
def isSpecial (c : Char) : Bool :=
  let n := c.toNat
  !(c == '\n' || (0x20 ≤ n && n ≤ 0x7e) ||
    ((n == 0x85 || (0xa0 ≤ n && n ≤ 0xd7ff) || (0xe000 ≤ n && n ≤ 0xfffd) ||
      (0x10000 ≤ n && n < 0x10ffff)) && n != 0xfeff))

/-- A sign among the characters after the first: a colon before a gap, or a number sign after one.
-/
def signInside : List Char → Bool
  | a :: b :: rest =>
    (b == ':' && isGap (rest.headD endMark)) || (b == '#' && isGap a) || signInside (b :: rest)
  | _ => false

/-- A text that would be taken for something else if it were written plain in a block. -/
def hasSign (cs : List Char) : Bool :=
  ['-', '-', '-'].isPrefixOf cs || ['.', '.', '.'].isPrefixOf cs ||
    (match cs with
    | [] => false
    | c :: rest =>
      "#,[]\x7b\x7d&*!|>\x27\x22%@`".toList.contains c ||
        ((c == '?' || c == ':' || c == '-') && isGap (rest.headD endMark))) ||
    signInside cs

/-- One character of a class directly before one of another. -/
def hasPair (p q : Char → Bool) : List Char → Bool
  | a :: b :: rest => (p a && q b) || hasPair p q (b :: rest)
  | _ => false

/-- A blank or a break at either end. -/
def hasLooseEnd (cs : List Char) : Bool :=
  let loose (c : Char) := c == ' ' || isWrittenBreak c
  (cs.head?.map loose).getD false || (cs.getLast?.map loose).getD false

/-- The text can be written plain: characters and shape allow it, and it reads back as text. -/
def isPlain (s : String) : Bool :=
  let cs := s.toList
  !cs.isEmpty && !hasLooseEnd cs && !hasSign cs && !cs.any isWrittenBreak && !cs.any isSpecial &&
    Scalar.typeOf s == .text

/-- The text can be written between apostrophes. -/
def isQuotable (s : String) : Bool :=
  let cs := s.toList
  let isBlank (c : Char) := c == ' '
  !cs.any isSpecial && !hasPair isWrittenBreak isBlank cs && !hasPair isBlank isWrittenBreak cs

/-! ## The styles -/

def newline (indent : Nat) : String :=
  "\n" ++ String.ofList (List.replicate indent ' ')

/-- Where a scalar is written: the indentation of its further lines, and whether it may have any. -/
structure Room where
  indent : Nat
  split : Bool

/-- Maximal runs of characters of the same class. -/
def runs (cs : List Char) : List (List Char) :=
  cs.splitBy fun a b => (a == ' ') == (b == ' ') && isWrittenBreak a == isWrittenBreak b

def plainRuns (room : Room) (written : String) (column : Nat) : List (List Char) → String
  | [] => written
  | run :: rest =>
    if run == [' '] && width < column && room.split then
      plainRuns room (written ++ newline room.indent) room.indent rest
    else plainRuns room (written ++ String.ofList run) (column + run.length) rest

def plain (room : Room) (column : Nat) (s : String) : String :=
  plainRuns room "" column (runs s.toList)

/-- A run of breaks between apostrophes: a first line feed is written twice, since a single one
reads as a blank. -/
def breakRun (run : List Char) : String :=
  (if run.head? == some '\n' then "\n" else "") ++ String.ofList run

def doubled (cs : List Char) : List Char :=
  cs.flatMap fun c => if c == '\x27' then [c, c] else [c]

/-- The rest of a scalar between apostrophes; `first` tells whether nothing has been written. -/
def singleRuns (room : Room) (written : String) (first : Bool) (column : Nat) :
    List (List Char) → String
  | [] => written
  | run :: rest =>
    if (run.head?.map isWrittenBreak).getD false then
      singleRuns room
        (written ++ breakRun run ++ String.ofList (List.replicate room.indent ' '))
        false room.indent rest
    else if run == [' '] && width < column && room.split && !first && !rest.isEmpty then
      singleRuns room (written ++ newline room.indent) false room.indent rest
    else
      let run := doubled run
      singleRuns room (written ++ String.ofList run) false (column + run.length) rest

def single (room : Room) (column : Nat) (s : String) : String :=
  "\x27" ++ singleRuns room "" true (column + 1) (runs s.toList) ++ "\x27"

def upperHex (width n : Nat) : String :=
  (Text.hex width n).toUpper

def escapeLetters : List (Char × Char) := [
  ('\x00', '0'), ('\x07', 'a'), ('\x08', 'b'), ('\t', 't'), ('\n', 'n'), ('\x0b', 'v'),
  ('\x0c', 'f'), ('\r', 'r'), ('\x1b', 'e'), ('\x22', '\x22'), ('\\', '\\'), ('\u0085', 'N'),
  ('\u2028', 'L'), ('\u2029', 'P')]

/-- The escape of a symbol, if it needs one. -/
def escape? (s : Symbol) : Option String :=
  let n := s.number
  match s.char?.bind (escapeLetters.lookup ·) with
  | some letter => some ("\\" ++ String.singleton letter)
  | none =>
    if n != 0xfeff && ((0x20 ≤ n && n ≤ 0x7e) || (0xa0 ≤ n && n ≤ 0xd7ff) ||
        (0xe000 ≤ n && n ≤ 0xfffd)) then none
    else if n ≤ 0xff then some ("\\x" ++ upperHex 2 n)
    else if n ≤ 0xffff then some ("\\u" ++ upperHex 4 n)
    else some ("\\U" ++ upperHex 8 n)

def blank : Symbol := .char ' '

/-- A backslash where a line that is broken goes on with a blank, which would be dropped. -/
def guard (next : Option Symbol) : String :=
  if next == some blank then "\\" else ""

/-- The rest of a scalar between double quotes. `pending` holds the characters that wait to be
written, last first, and `column` is where they go. A line is broken, by a backslash, before a
blank or a character that nothing waits before, and after an escape. -/
def doubleFrom (room : Room) (written : String) (first : Bool) (column : Nat)
    (pending : List Char) : List Symbol → String
  | [] => written ++ String.ofList pending.reverse
  | s :: rest =>
    let breakable := room.split && !first && !rest.isEmpty
    match escape? s with
    | some e =>
      let written := written ++ String.ofList pending.reverse ++ e
      let column := column + pending.length + e.length
      if breakable && width + 1 < column then
        let lead := guard rest.head?
        doubleFrom room (written ++ "\\" ++ newline room.indent ++ lead) false
          (room.indent + lead.length) [] rest
      else doubleFrom room written false column [] rest
    | none =>
      if breakable && (s == blank || pending.isEmpty) && width < column + pending.length then
        let lead := guard (some s)
        doubleFrom room
          (written ++ String.ofList pending.reverse ++ "\\" ++ newline room.indent ++ lead) false
          (room.indent + lead.length) s.char?.toList rest
      else doubleFrom room written false column (s.char?.toList ++ pending) rest

def double (room : Room) (column : Nat) (symbols : List Symbol) : String :=
  "\x22" ++ doubleFrom room "" true (column + 1) [] symbols ++ "\x22"

/-! ## Scalars -/

/-- A floating point number always has a point, and the words for what is no number start with
one. -/
def number : Decimal.Layout where
  leastPositional := -4
  mostPositional := 15
  wholeSuffix := ".0"
  loneSuffix := ".0"
  infinity := ".inf"
  nan := ".nan"

/-- A text in the first style that keeps it. -/
def text (room : Room) (column : Nat) (s : String) : String :=
  if isPlain s then plain room column s
  else if isQuotable s && (room.split || !s.toList.any isWrittenBreak) then single room column s
  else double room column (Symbol.ofText s)

/-- A value that is no collection, from a column on. Of collections, the empty ones. -/
def scalar (room : Room) (column : Nat) : Value → String
  | .null => "null"
  | .bool b => if b then "true" else "false"
  | .int n => Value.intText n
  | .float x => number.text x
  | .text s => text room column s
  | .halved h => double room column h.symbols
  | .list _ => "[]"
  | .map _ => "\x7b\x7d"
  | v => v.toText

/-- The length of the short form of the tag of a key, which counts towards the length of a key. -/
def tagLength : Value → Nat
  | .null => "!!null".length
  | .bool _ => "!!bool".length
  | .int _ => "!!int".length
  | .float _ => "!!float".length
  | .text _ | .halved _ => "!!str".length
  | _ => "!!timestamp".length

/-- The symbols of a key as it is before quoting. -/
def keySymbols : Value → List Symbol
  | .text s => Symbol.ofText s
  | .halved h => h.symbols
  | v => Symbol.ofText (scalar ⟨0, false⟩ 0 v)

/-- A key that can stand before its colon: short, on one line and not empty. -/
def isSimpleKey (k : Value) : Bool :=
  let row := keySymbols k
  !row.isEmpty && !row.any (fun s => s.char?.any isWrittenBreak) && row.length + tagLength k < 128

/-! ## Collections -/

def lines (indent : Nat) (parts : List String) : String :=
  (newline indent).intercalate parts

/-- The indentation of what a mapping or an item holds. -/
def deeper (indent : Nat) : Nat := indent + 2

mutual

/-- A value that starts in the column of its own indentation. -/
def inPlace (indent : Nat) : Value → String
  | .list (v :: rest) => lines indent (itemLines indent (v :: rest))
  | .map (e :: rest) => lines indent (entryLines indent (e :: rest))
  | v => scalar ⟨indent, true⟩ indent v

def itemLines (indent : Nat) : List Value → List String
  | [] => []
  | v :: rest => ("- " ++ inPlace (deeper indent) v) :: itemLines indent rest

/-- The entries of a mapping. A key that cannot stand before its colon is announced by a question
mark. -/
def entryLines (indent : Nat) : List (Value × Value) → List String
  | [] => []
  | (k, v) :: rest =>
    let entry :=
      if isSimpleKey k then
        let key := scalar ⟨deeper indent, false⟩ indent k
        key ++ ":" ++ afterKey indent (indent + key.length + 1) v
      else
        "? " ++ scalar ⟨deeper indent, true⟩ (deeper indent) k ++ newline indent ++ ": " ++
          inPlace (deeper indent) v
    entry :: entryLines indent rest

/-- What stands after a key and its colon, which end at a column. -/
def afterKey (indent column : Nat) : Value → String
  | .list (v :: rest) => newline indent ++ lines indent (itemLines indent (v :: rest))
  | .map (e :: rest) =>
    newline (deeper indent) ++ lines (deeper indent) (entryLines (deeper indent) (e :: rest))
  | v => " " ++ scalar ⟨deeper indent, true⟩ (column + 1) v

end

end Writer

def write (v : Value) : String :=
  Writer.inPlace 0 v ++ "\n"

end Limn.Yaml
