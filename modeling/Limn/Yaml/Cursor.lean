/-! # Reading position in a YAML text

The characters still to be read, with the line and the column of the first of them. Line breaks
are line feed, carriage return, the two together, next line, and the line and paragraph separators.
A byte order mark takes no column. The end of the text reads as the character NUL, which a text
never holds.
-/

namespace Limn.Yaml

/-- Why a text has no value. Only `malformed` is a fault of the language itself; the others come
from scalars whose type refuses them. -/
inductive Fault where
  /-- The text breaks a rule of the language. -/
  | malformed
  /-- A scalar that its type refuses, such as a day the calendar does not have. -/
  | badScalar
  /-- A scalar too large for its type. -/
  | tooLarge
  /-- A word that is no truth value. -/
  | unknownWord
  /-- An empty scalar where a number is due. -/
  | emptyScalar
  /-- A scalar that is no point in time. -/
  | notTimestamp
  /-- A collection where a point in time is due. -/
  | structured
  /-- A collection that holds itself. -/
  | knotted
deriving DecidableEq, Repr, Inhabited

/-! ## Characters -/

/-- What the end of the text reads as. -/
def endMark : Char := '\x00'

def isBreak (c : Char) : Bool :=
  c == '\r' || c == '\n' || c == '\u0085' || c == '\u2028' || c == '\u2029'

def isLineEnd (c : Char) : Bool :=
  c == endMark || isBreak c

def isSpaceOrEnd (c : Char) : Bool :=
  c == ' ' || isLineEnd c

def isGap (c : Char) : Bool :=
  c == '\t' || isSpaceOrEnd c

/-- The characters of anchors, handles and directives. -/
def isWordChar (c : Char) : Bool :=
  ('0' ≤ c && c ≤ '9') || ('A' ≤ c && c ≤ 'Z') || ('a' ≤ c && c ≤ 'z') || c == '-' || c == '_'

/-- The characters that a text may hold. -/
def isAllowed (c : Char) : Bool :=
  let n := c.toNat
  n == 0x09 || n == 0x0a || n == 0x0d || (0x20 ≤ n && n ≤ 0x7e) || n == 0x85 ||
    (0xa0 ≤ n && n ≤ 0xd7ff) || (0xe000 ≤ n && n ≤ 0xfffd) || 0x10000 ≤ n

/-! ## Positions -/

/-- The characters still to be read and where the first of them stands; `size` is the number of
characters of the whole text. -/
structure Cursor where
  rest : List Char
  size : Nat
  index : Nat := 0
  line : Nat := 0
  column : Nat := 0
deriving Repr, Inhabited

namespace Cursor

/-- The start of a text. -/
def ofList (cs : List Char) : Cursor :=
  ⟨cs, cs.length, 0, 0, 0⟩

/-- More steps than there are characters left. -/
def budget (c : Cursor) : Nat :=
  c.size + 1 - c.index

def peekAt (c : Cursor) (n : Nat) : Char :=
  (c.rest[n]?).getD endMark

def peek (c : Cursor) : Char :=
  c.rest.headD endMark

def next (c : Cursor) : Cursor :=
  match c.rest with
  | [] => c
  | ch :: rest =>
    if ch == '\n' || ch == '\u0085' || ch == '\u2028' || ch == '\u2029' ||
        (ch == '\r' && rest.headD endMark != '\n') then
      ⟨rest, c.size, c.index + 1, c.line + 1, 0⟩
    else if ch == '\ufeff' then ⟨rest, c.size, c.index + 1, c.line, c.column⟩
    else ⟨rest, c.size, c.index + 1, c.line, c.column + 1⟩

def skip : Nat → Cursor → Cursor
  | 0, c => c
  | n + 1, c => skip n c.next

/-- The characters up to the first without a property, and the position after them. -/
def takeWhile (p : Char → Bool) (c : Cursor) : List Char × Cursor :=
  let cs := c.rest.takeWhile p
  (cs, c.skip cs.length)

def skipWhile (p : Char → Bool) (c : Cursor) : Cursor :=
  (c.takeWhile p).2

/-- Read a line break. All but the line and paragraph separators read as a line feed; where there
is no break, nothing is read. -/
def lineBreak (c : Cursor) : List Char × Cursor :=
  match c.rest with
  | '\r' :: '\n' :: _ => (['\n'], c.skip 2)
  | '\r' :: _ => (['\n'], c.next)
  | '\n' :: _ => (['\n'], c.next)
  | '\u0085' :: _ => (['\n'], c.next)
  | '\u2028' :: _ => (['\u2028'], c.next)
  | '\u2029' :: _ => (['\u2029'], c.next)
  | _ => ([], c)

/-- The three characters of a document marker, followed by a gap. -/
def atMarker (c : Cursor) : Bool :=
  match c.rest with
  | '-' :: '-' :: '-' :: rest => isGap (rest.headD endMark)
  | '.' :: '.' :: '.' :: rest => isGap (rest.headD endMark)
  | _ => false

/-- The position after the blanks and the comment that may end a line. -/
def skipComment (c : Cursor) : Cursor :=
  let c := c.skipWhile (· == ' ')
  if c.peek == '#' then c.skipWhile (!isLineEnd ·) else c

/-- The position after the blanks, the comment and the break of a line that holds nothing else. -/
def restOfLine (c : Cursor) : Except Fault Cursor :=
  let c := c.skipComment
  if isLineEnd c.peek then .ok c.lineBreak.2 else .error .malformed

end Cursor

end Limn.Yaml
