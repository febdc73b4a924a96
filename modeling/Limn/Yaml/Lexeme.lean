import Limn.Text.Wording
import Limn.Value.Integer
import Limn.Yaml.Cursor

/-! # Lexemes of YAML

Readers for the parts of a YAML text that carry characters: scalars in their five styles, anchors,
tags and directives. Each takes the position where the lexeme starts and answers with what it holds
and the position after it.

Lines inside a scalar are folded: a single line feed between two lines reads as a blank, further
breaks are kept, and other breaks than line feeds always are.
-/

namespace Limn.Yaml

open Limn.Text (Symbol)

/-! ## Words -/

def wordAt (c : Cursor) : Except Fault (String × Cursor) :=
  match c.takeWhile isWordChar with
  | ([], _) => .error .malformed
  | (cs, c) => .ok (String.ofList cs, c)

/-- The name of an anchor or an alias, after its sign. -/
def anchorName (c : Cursor) : Except Fault (String × Cursor) := do
  let (name, c) ← wordAt c.next
  if isGap c.peek || "?:,]\x7d%@`".toList.contains c.peek then .ok (name, c) else .error .malformed

/-! ## Tags -/

/-- A tag as it is written: an optional handle and the rest. -/
structure RawTag where
  handle : Option String
  suffix : String
deriving DecidableEq, Repr, Inhabited

/-- The characters of a tag, escapes apart. -/
def isTagChar (c : Char) : Bool :=
  isWordChar c || ";/?:@&=+$,.!~*\x27()[]".toList.contains c

/-- A row of escaped octets, each a percent sign and two hexadecimal digits. -/
def escapedOctets : List Char → Except Fault (Bytes × List Char)
  | '%' :: a :: b :: rest =>
    match Text.hexValue? a, Text.hexValue? b with
    | some m, some n => do
      let (octets, rest) ← escapedOctets rest
      .ok (UInt8.ofNat (m * 16 + n) :: octets, rest)
    | _, _ => .error .malformed
  | '%' :: _ => .error .malformed
  | rest => .ok ([], rest)

/-- The characters of a tag, with escaped octets decoded; the bound is the number of characters. -/
def tagChars : Nat → List Char → Except Fault (List Char × List Char)
  | 0, rest => .ok ([], rest)
  | bound + 1, cs =>
    match cs with
    | '%' :: _ => do
      let (octets, rest) ← escapedOctets cs
      match octets.toText? with
      | none => .error .malformed
      | some s =>
        let (more, rest) ← tagChars bound rest
        .ok (s.toList ++ more, rest)
    | ch :: rest =>
      if isTagChar ch then do
        let (more, rest) ← tagChars bound rest
        .ok (ch :: more, rest)
      else .ok ([], cs)
    | [] => .ok ([], [])

def tagSuffix (c : Cursor) : Except Fault (String × Cursor) := do
  let (cs, rest) ← tagChars c.rest.length c.rest
  let length := c.rest.length - rest.length
  if length == 0 then .error .malformed else .ok (String.ofList cs, c.skip length)

/-- A handle: an exclamation mark, alone before a blank, or a word between two of them. -/
def tagHandle (c : Cursor) : Except Fault (String × Cursor) :=
  if c.peek != '!' then .error .malformed
  else if c.peekAt 1 == ' ' then .ok ("!", c.next)
  else
    let (word, after) := c.next.takeWhile isWordChar
    if after.peek == '!' then .ok (String.ofList ('!' :: word ++ ['!']), after.next)
    else .error .malformed

def tagAt (c : Cursor) : Except Fault (RawTag × Cursor) := do
  let ch := c.peekAt 1
  let (tag, c) ← (
    if ch == '<' then do
      let (suffix, c) ← tagSuffix (c.skip 2)
      if c.peek == '>' then .ok (⟨none, suffix⟩, c.next) else .error .malformed
    else if isGap ch then .ok (⟨none, "!"⟩, c.next)
    else if (c.rest.drop 1).takeWhile (!isSpaceOrEnd ·) |>.contains '!' then do
      let (handle, c) ← tagHandle c
      let (suffix, c) ← tagSuffix c
      .ok (⟨some handle, suffix⟩, c)
    else do
      let (suffix, c) ← tagSuffix c.next
      .ok (⟨some "!", suffix⟩, c))
  if isSpaceOrEnd c.peek then .ok (tag, c) else .error .malformed

/-! ## Directives -/

/-- A directive: a version, a handle with what it stands for, or one that is passed over. -/
inductive Directive where
  | version (major : Nat)
  | handle (name meaning : String)
  | reserved
deriving DecidableEq, Repr, Inhabited

def versionNumber (c : Cursor) : Except Fault (Nat × Cursor) :=
  match c.takeWhile Text.isAsciiDigit with
  | ([], _) => .error .malformed
  | (ds, c) =>
    if Text.mostDigits < ds.length then .error .badScalar else .ok (Text.asciiNumber ds, c)

def versionAt (c : Cursor) : Except Fault (Directive × Cursor) := do
  let (major, c) ← versionNumber (c.skipWhile (· == ' '))
  if c.peek != '.' then .error .malformed
  let (_, c) ← versionNumber c.next
  if isSpaceOrEnd c.peek then .ok (.version major, c) else .error .malformed

def handleAt (c : Cursor) : Except Fault (Directive × Cursor) := do
  let (name, c) ← tagHandle (c.skipWhile (· == ' '))
  if c.peek != ' ' then .error .malformed
  let (meaning, c) ← tagSuffix (c.skipWhile (· == ' '))
  if isSpaceOrEnd c.peek then .ok (.handle name meaning, c) else .error .malformed

def directiveAt (c : Cursor) : Except Fault (Directive × Cursor) := do
  let (name, c) ← wordAt c.next
  if !isSpaceOrEnd c.peek then .error .malformed
  let (directive, c) ← (
    if name == "YAML" then versionAt c
    else if name == "TAG" then handleAt c
    else .ok (.reserved, c.skipWhile (!isLineEnd ·)))
  let c ← c.restOfLine
  .ok (directive, c)

/-! ## Block scalars -/

/-- What happens to the breaks after the last line of a block scalar: one is kept (`clip`), none
(`strip`) or all (`keep`). -/
inductive Chomping where
  | clip
  | strip
  | keep
deriving DecidableEq, Repr, Inhabited

def chomping? : Char → Option Chomping
  | '+' => some .keep
  | '-' => some .strip
  | _ => none

/-- A digit that gives the indentation of a block scalar; zero is not allowed. -/
def indentation? (c : Char) : Except Fault (Option Nat) :=
  if c == '0' then .error .malformed
  else if Text.isAsciiDigit c then .ok (Text.digitValue? c)
  else .ok none

/-- The two indicators after the sign of a block scalar, in either order. -/
def blockIndicators (c : Cursor) : Except Fault (Chomping × Option Nat × Cursor) := do
  let (chomping, increment, c) ← (
    match chomping? c.peek with
    | some chomping => do
      let c := c.next
      match ← indentation? c.peek with
      | some n => .ok (chomping, some n, c.next)
      | none => .ok (chomping, none, c)
    | none => do
      match ← indentation? c.peek with
      | some n =>
        let c := c.next
        match chomping? c.peek with
        | some chomping => .ok (chomping, some n, c.next)
        | none => .ok (Chomping.clip, some n, c)
      | none => .ok (Chomping.clip, none, c))
  if isSpaceOrEnd c.peek then .ok (chomping, increment, c) else .error .malformed

/-- The blank lines at the start of a block scalar, and the greatest column reached in them. -/
def leadingBreaks : Nat → Nat → List Char → Cursor → List Char × Nat × Cursor
  | 0, most, breaks, c => (breaks, most, c)
  | bound + 1, most, breaks, c =>
    if c.peek == ' ' then
      let c := c.next
      leadingBreaks bound (max most c.column) breaks c
    else if isBreak c.peek then
      let (b, c) := c.lineBreak
      leadingBreaks bound most (breaks ++ b) c
    else (breaks, most, c)

def skipIndent (indent : Nat) : Nat → Cursor → Cursor
  | 0, c => c
  | bound + 1, c => if c.column < indent && c.peek == ' ' then skipIndent indent bound c.next else c

/-- The breaks of the blank lines before the next line of a block scalar, whose indentation is
skipped. -/
def innerBreaks (indent : Nat) : Nat → List Char → Cursor → List Char × Cursor
  | 0, breaks, c => (breaks, c)
  | bound + 1, breaks, c =>
    let c := skipIndent indent c.budget c
    if isBreak c.peek then
      let (b, c) := c.lineBreak
      innerBreaks indent bound (breaks ++ b) c
    else (breaks, c)

/-- The lines of a block scalar. `read` holds the characters read, last first; `breaks` are the
breaks before the next line. The answer adds the break after the last line and those after it. -/
def blockLines (folded : Bool) (indent : Nat) :
    Nat → List Char → List Char → Cursor → List Char × List Char × List Char × Cursor
  | 0, read, breaks, c => (read, [], breaks, c)
  | bound + 1, read, breaks, c =>
    let flush := c.peek != ' ' && c.peek != '\t'
    let (line, c) := c.takeWhile (!isLineEnd ·)
    let read := line.reverse ++ (breaks.reverse ++ read)
    let (lineBreak, c) := c.lineBreak
    let (breaks, c) := innerBreaks indent c.budget [] c
    if c.column == indent && c.peek != endMark then
      if folded && lineBreak == ['\n'] && flush && c.peek != ' ' && c.peek != '\t' then
        blockLines folded indent bound (if breaks.isEmpty then ' ' :: read else read) breaks c
      else blockLines folded indent bound (lineBreak ++ read) breaks c
    else (read, lineBreak, breaks, c)

/-- A block scalar. `outer` is the column of the enclosing block. -/
def blockScalar (folded : Bool) (outer : Int) (c : Cursor) : Except Fault (String × Cursor) := do
  let (chomping, increment, c) ← blockIndicators c.next
  let c ← c.restOfLine
  let least := (max (outer + 1) 1).toNat
  let size := c.budget
  let (indent, breaks, c) := match increment with
    | some n =>
      let indent := least + n - 1
      let (breaks, c) := innerBreaks indent size [] c
      (indent, breaks, c)
    | none =>
      let (breaks, most, c) := leadingBreaks size 0 [] c
      (max least most, breaks, c)
  let (read, lineBreak, breaks, c) :=
    if c.column == indent && c.peek != endMark then blockLines folded indent size [] breaks c
    else ([], [], breaks, c)
  let tail := match chomping with
    | .strip => []
    | .clip => lineBreak
    | .keep => lineBreak ++ breaks
  .ok (String.ofList (read.reverse ++ tail), c)

/-! ## Quoted scalars -/

/-- What stands for a character after a backslash, hexadecimal forms apart. -/
def escapes : List (Char × Char) := [
  ('0', '\x00'), ('a', '\x07'), ('b', '\x08'), ('t', '\t'), ('\t', '\t'), ('n', '\n'),
  ('v', '\x0b'), ('f', '\x0c'), ('r', '\r'), ('e', '\x1b'), (' ', ' '), ('\x22', '\x22'),
  ('\\', '\\'), ('/', '/'), ('N', '\u0085'), ('_', '\u00a0'), ('L', '\u2028'), ('P', '\u2029')]

/-- The number of hexadecimal digits after the letter of an escape. -/
def escapeWidth? : Char → Option Nat
  | 'x' => some 2
  | 'u' => some 4
  | 'U' => some 8
  | _ => none

/-- The symbol with a number. Numbers beyond the last character are refused, and those beyond 31
bits are too large even to ask for. -/
def symbolWithNumber (n : Nat) : Except Fault Symbol :=
  if n < 0x110000 then .ok (.ofNat n)
  else if n < 0x80000000 then .error .badScalar
  else .error .tooLarge

/-- The breaks after the first of a quoted scalar, with the blanks at both ends of the lines
dropped. A document marker may not start a line inside a quoted scalar. -/
def quotedBreaks : Nat → List Char → Cursor → Except Fault (List Char × Cursor)
  | 0, _, _ => .error .malformed
  | bound + 1, breaks, c =>
    if c.atMarker then .error .malformed
    else
      let c := c.skipWhile fun ch => ch == ' ' || ch == '\t'
      if isBreak c.peek then
        let (b, c) := c.lineBreak
        quotedBreaks bound (breaks ++ b) c
      else .ok (breaks, c)

/-- The blanks and breaks between two words of a quoted scalar. -/
def quotedGap (c : Cursor) : Except Fault (List Char × Cursor) := do
  let (blanks, c) := c.takeWhile fun ch => ch == ' ' || ch == '\t'
  if c.peek == endMark then .error .malformed
  else if isBreak c.peek then
    let (lineBreak, c) := c.lineBreak
    let (breaks, c) ← quotedBreaks c.budget [] c
    let head := if lineBreak != ['\n'] then lineBreak else if breaks.isEmpty then [' '] else []
    .ok (head ++ breaks, c)
  else .ok (blanks, c)

def escapeNumber (width : Nat) (c : Cursor) : Except Fault (Nat × Cursor) :=
  match (c.rest.take width).mapM Text.hexValue? with
  | none => .error .malformed
  | some ns =>
    if ns.length < width then .error .malformed else .ok (Text.ofDigits 16 ns, c.skip width)

/-- An escape of a double-quoted scalar, after the backslash. Two halves of a surrogate pair that
are escaped one after the other stay two halves. -/
def escapeAt (c : Cursor) : Except Fault (List Symbol × Cursor) :=
  match escapes.lookup c.peek, escapeWidth? c.peek with
  | some ch, _ => .ok ([.char ch], c.next)
  | none, some width => do
    let (n, c) ← escapeNumber width c.next
    let symbol ← symbolWithNumber n
    .ok ([symbol], c)
  | none, none =>
    if isBreak c.peek then do
      let c := c.lineBreak.2
      let (breaks, c) ← quotedBreaks c.budget [] c
      .ok (breaks.map .char, c)
    else .error .malformed

/-- The rest of a quoted scalar after its opening quote; `read` holds the symbols read, last first.
-/
def quotedFrom (double : Bool) : Nat → List Symbol → Cursor → Except Fault (Wording × Cursor)
  | 0, _, _ => .error .malformed
  | bound + 1, read, c =>
    let ch := c.peek
    if !double && ch == '\x27' && c.peekAt 1 == '\x27' then
      quotedFrom double bound (.char '\x27' :: read) (c.skip 2)
    else if (double && ch == '\x22') || (!double && ch == '\x27') then
      .ok (.ofSymbols read.reverse, c.next)
    else if double && ch == '\\' then do
      let (symbols, c) ← escapeAt c.next
      quotedFrom double bound (symbols.reverse ++ read) c
    else if isGap ch then do
      let (cs, c) ← quotedGap c
      quotedFrom double bound ((cs.map .char).reverse ++ read) c
    else quotedFrom double bound (.char ch :: read) c.next

def quotedScalar (double : Bool) (c : Cursor) : Except Fault (Wording × Cursor) :=
  quotedFrom double c.budget [] c.next

/-! ## Plain scalars -/

/-- The signs that end a plain scalar between brackets. -/
def isFlowSign (c : Char) : Bool :=
  c == ',' || c == '[' || c == ']' || c == '\x7b' || c == '\x7d'

/-- A word of a plain scalar. It ends at a gap, at a colon before a gap, and between brackets also
at their signs and at a question mark. -/
def plainWord (flow : Bool) : List Char → List Char
  | [] => []
  | ch :: rest =>
    let after := rest.headD endMark
    if isGap ch || (ch == ':' && (isGap after || (flow && isFlowSign after))) ||
        (flow && (isFlowSign ch || ch == '?')) then []
    else ch :: plainWord flow rest

/-- The breaks after the first between two words of a plain scalar; `none` at a document marker. -/
def plainBreaks : Nat → List Char → Cursor → Option (List Char) × Cursor
  | 0, breaks, c => (some breaks, c)
  | bound + 1, breaks, c =>
    if c.peek == ' ' then plainBreaks bound breaks c.next
    else if isBreak c.peek then
      let (b, c) := c.lineBreak
      if c.atMarker then (none, c) else plainBreaks bound (breaks ++ b) c
    else (some breaks, c)

/-- The blanks and breaks after a word of a plain scalar, and whether a line ended there. Nothing
is read where the scalar ends at a document marker. -/
def plainGap (c : Cursor) : List Char × Bool × Cursor :=
  let (blanks, c) := c.takeWhile (· == ' ')
  if isBreak c.peek then
    let (lineBreak, c) := c.lineBreak
    if c.atMarker then ([], true, c)
    else
      match plainBreaks c.budget [] c with
      | (none, c) => ([], true, c)
      | (some breaks, c) =>
        let head := if lineBreak != ['\n'] then lineBreak else if breaks.isEmpty then [' '] else []
        (head ++ breaks, true, c)
  else (blanks, false, c)

/-- The words of a plain scalar. `read` holds the characters read, last first, and `gap` what
stands before the next word; `ended` tells whether a line has ended since the last word. -/
def plainFrom (flow : Bool) (least : Int) :
    Nat → List Char → List Char → Bool → Cursor → String × Bool × Cursor
  | 0, read, _, ended, c => (String.ofList read.reverse, ended, c)
  | bound + 1, read, gap, ended, c =>
    let word := if c.peek == '#' then [] else plainWord flow c.rest
    if word.isEmpty then (String.ofList read.reverse, ended, c)
    else
      let read := word.reverse ++ (gap.reverse ++ read)
      let (gap, ended, c) := plainGap (c.skip word.length)
      if gap.isEmpty || c.peek == '#' || (!flow && (c.column : Int) < least) then
        (String.ofList read.reverse, ended, c)
      else plainFrom flow least bound read gap ended c

/-- A plain scalar, and whether a line has ended after its last word. `outer` is the column of the
enclosing block. -/
def plainScalar (flow : Bool) (outer : Int) (c : Cursor) : String × Bool × Cursor :=
  plainFrom flow (outer + 1) c.budget [] [] false c

end Limn.Yaml
