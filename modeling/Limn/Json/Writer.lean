import Limn.Value.Text

/-! # Writing JSON

Output is ASCII: every other character is escaped by its sixteen-bit units. `indented` puts each
item of a list and each member of an object on a line of its own, two blanks deeper than the
bracket; `compact` writes all on one line.
-/

namespace Limn.Json

/-- The sixteen-bit units of a character. -/
def units (c : Char) : List Nat :=
  let n := c.toNat
  if n < 0x10000 then [n]
  else [0xd800 + (n - 0x10000) / 0x400, 0xdc00 + (n - 0x10000) % 0x400]

def writtenChar (c : Char) : String :=
  if c == '\x22' then "\\\x22"
  else if c == '\\' then "\\\\"
  else if c == '\n' then "\\n"
  else if c == '\r' then "\\r"
  else if c == '\t' then "\\t"
  else if c == '\x0c' then "\\f"
  else if c == '\x08' then "\\b"
  else if 0x20 ≤ c.toNat && c.toNat < 0x80 then String.singleton c
  else String.join ((units c).map fun u => "\\u" ++ Text.hex 4 u)

def writtenText (s : String) : String :=
  "\x22" ++ String.join (s.toList.map writtenChar) ++ "\x22"

def writtenRow (symbols : List Text.Symbol) : String :=
  "\x22" ++ String.join (symbols.map fun
    | .char c => writtenChar c
    | .half h => "\\u" ++ Text.hex 4 h.unit) ++ "\x22"

/-- The wording of a value between quotes. -/
def writtenKey : Value → String
  | .halved h => writtenRow h.symbols
  | v => writtenText v.toText

/-- A value that is not nested. Dates and times are written as texts. -/
def writtenScalar : Value → String
  | .null => "null"
  | .bool b => if b then "true" else "false"
  | .int n => Value.intText n
  | .float x => Value.number.text x
  | v => writtenKey v

/-- How nested values are laid out: what stands before each item at a depth, what before the
closing bracket, and what between items. -/
structure Spacing where
  breakAt : Nat → String
  separator : String

/-- Items between brackets. -/
def Spacing.bracketed (s : Spacing) (depth : Nat) (left right : String) (items : List String) :
    String :=
  if items.isEmpty then left ++ right
  else
    left ++ s.breakAt (depth + 1) ++ (s.separator ++ s.breakAt (depth + 1)).intercalate items ++
      s.breakAt depth ++ right

mutual

def Spacing.write (s : Spacing) (depth : Nat) : Value → String
  | .list items => s.bracketed depth "[" "]" (s.writeItems (depth + 1) items)
  | .map entries => s.bracketed depth "\x7b" "\x7d" (s.writeEntries (depth + 1) entries)
  | v => writtenScalar v

def Spacing.writeItems (s : Spacing) (depth : Nat) : List Value → List String
  | [] => []
  | v :: rest => s.write depth v :: s.writeItems depth rest

def Spacing.writeEntries (s : Spacing) (depth : Nat) : List (Value × Value) → List String
  | [] => []
  | (k, v) :: rest =>
    (writtenKey k ++ ": " ++ s.write depth v) :: s.writeEntries depth rest

end

def compact (v : Value) : String :=
  Spacing.write ⟨fun _ => "", ", "⟩ 0 v

/-- One item to a line, indented by two blanks for each level. -/
def indented (v : Value) : String :=
  Spacing.write ⟨fun depth => "\n" ++ String.ofList (List.replicate (2 * depth) ' '), ","⟩ 0 v

end Limn.Json
