import Limn.Yaml.Lexeme

/-! # Tokens of YAML

A YAML text as a row of tokens. Indentation becomes the tokens that open and close blocks.

A mapping key that is not announced by a question mark is known only by the colon that follows it:
while the row is built, the places where such a *simple key* could have started are remembered, one
for each depth of brackets, and the token that announces it is put in when the colon comes. A place
is forgotten when its line ends or 1024 characters have passed; at the column of the enclosing
block a key is due, and forgetting it is a fault.

The row ends with `streamEnd`, or with `broken` where the text stops making sense. Nothing is known
about the tokens from the first possible simple key on until it has been decided, so a text that
stops making sense before that breaks off at this key.
-/

namespace Limn.Yaml

inductive Token where
  | streamEnd
  | directive (d : Directive)
  | documentStart
  | documentEnd
  | blockSequenceStart
  | blockMappingStart
  | blockEnd
  | flowSequenceStart
  | flowMappingStart
  | flowSequenceEnd
  | flowMappingEnd
  | flowEntry
  | blockEntry
  | key
  | value
  | alias (name : String)
  | anchor (name : String)
  | tag (t : RawTag)
  | scalar (text : Wording) (plain : Bool)
  | broken (fault : Fault)
deriving DecidableEq, Repr, Inhabited

/-- A place where a simple key could have started. -/
structure SimpleKey where
  /-- The number of tokens before it. -/
  place : Nat
  /-- A key is due here. -/
  required : Bool
  index : Nat
  line : Nat
  column : Nat
deriving Repr, Inhabited

/-- What is known while a row of tokens is built. -/
structure Scan where
  cursor : Cursor
  tokens : Array Token := #[]
  /-- The number of open brackets. -/
  flow : Nat := 0
  /-- The column of the enclosing block, with those around it. -/
  indent : Int := -1
  outer : List Int := []
  /-- A simple key may start at the next token. -/
  keyAllowed : Bool := true
  /-- The places of possible simple keys, by the number of open brackets. -/
  keys : List (Nat × SimpleKey) := []
  done : Bool := false
deriving Inhabited

namespace Scan

def emit (s : Scan) (t : Token) : Scan :=
  { s with tokens := s.tokens.push t }

def emitSign (s : Scan) (length : Nat) (t : Token) : Scan :=
  { s with tokens := s.tokens.push t, cursor := s.cursor.skip length }

/-! ## Simple keys -/

def isStale (s : Scan) (k : SimpleKey) : Bool :=
  k.line != s.cursor.line || k.index + 1024 < s.cursor.index

def forgetStale (s : Scan) : Except Fault Scan :=
  if s.keys.any fun (_, k) => s.isStale k && k.required then .error .malformed
  else .ok { s with keys := s.keys.filter fun (_, k) => !s.isStale k }

/-- The number of tokens that are decided: those before the first possible key. -/
def decided (s : Scan) : Nat :=
  s.keys.foldl (fun n (_, k) => if s.isStale k then n else min n k.place) s.tokens.size

def forgetKey (s : Scan) : Except Fault Scan :=
  if s.keys.any fun (depth, k) => depth == s.flow && k.required then .error .malformed
  else .ok { s with keys := s.keys.filter fun (depth, _) => depth != s.flow }

def rememberKey (s : Scan) : Except Fault Scan :=
  if s.keyAllowed then do
    let required := s.flow == 0 && s.indent == s.cursor.column
    let key := ⟨s.tokens.size, required, s.cursor.index, s.cursor.line, s.cursor.column⟩
    let s ← s.forgetKey
    .ok { s with keys := (s.flow, key) :: s.keys }
  else .ok s

/-! ## Blocks -/

def closeBlocks (column : Int) : List Int → Scan → Scan
  | [], s => s
  | i :: rest, s =>
    if s.indent > column then closeBlocks column rest { s.emit .blockEnd with indent := i, outer := rest }
    else s

/-- Close the blocks to the right of a column, unless there are open brackets. -/
def unwind (s : Scan) (column : Int) : Scan :=
  if s.flow == 0 then closeBlocks column s.outer s else s

def deeper (s : Scan) (column : Nat) : Bool :=
  s.indent < column

def enter (s : Scan) (column : Nat) : Scan :=
  { s with indent := column, outer := s.indent :: s.outer }

/-- Open a block at the current column if it lies to the right of the enclosing one. -/
def openBlock (s : Scan) (t : Token) : Scan :=
  if s.deeper s.cursor.column then (s.enter s.cursor.column).emit t else s

/-! ## Tokens -/

/-- The position of the next token: blanks, comments and line ends are passed over. Outside
brackets a key may start on a new line. -/
def gap : Nat → Scan → Scan
  | 0, s => s
  | bound + 1, s =>
    let c := s.cursor.skipComment
    match c.lineBreak with
    | ([], c) => { s with cursor := c }
    | (_, c) => gap bound { s with cursor := c, keyAllowed := s.keyAllowed || s.flow == 0 }

def skipMark (s : Scan) : Scan :=
  if s.cursor.index == 0 && s.cursor.peek == '\ufeff' then { s with cursor := s.cursor.next } else s

def streamEnd (s : Scan) : Except Fault Scan := do
  let s ← (s.unwind (-1)).forgetKey
  .ok { s.emit .streamEnd with keyAllowed := false, keys := [], done := true }

def directive (s : Scan) : Except Fault Scan := do
  let s ← (s.unwind (-1)).forgetKey
  let (d, c) ← directiveAt s.cursor
  .ok { s.emit (.directive d) with keyAllowed := false, cursor := c }

def marker (s : Scan) (t : Token) : Except Fault Scan := do
  let s ← (s.unwind (-1)).forgetKey
  .ok { s.emitSign 3 t with keyAllowed := false }

/-- An opening bracket, which may start a simple key. -/
def openBracket (s : Scan) (t : Token) : Except Fault Scan := do
  let s ← s.rememberKey
  .ok { s.emitSign 1 t with flow := s.flow + 1, keyAllowed := true }

def closeBracket (s : Scan) (t : Token) : Except Fault Scan := do
  let s ← s.forgetKey
  if s.flow == 0 then .error .malformed
  else .ok { s.emitSign 1 t with flow := s.flow - 1, keyAllowed := false }

def comma (s : Scan) : Except Fault Scan := do
  let s ← s.forgetKey
  .ok { s.emitSign 1 .flowEntry with keyAllowed := true }

def dash (s : Scan) : Except Fault Scan := do
  if s.flow == 0 && !s.keyAllowed then .error .malformed
  let s := if s.flow == 0 then s.openBlock .blockSequenceStart else s
  let s ← s.forgetKey
  .ok { s.emitSign 1 .blockEntry with keyAllowed := true }

def questionMark (s : Scan) : Except Fault Scan := do
  if s.flow == 0 && !s.keyAllowed then .error .malformed
  let s := if s.flow == 0 then s.openBlock .blockMappingStart else s
  let s ← s.forgetKey
  .ok { s.emitSign 1 .key with keyAllowed := s.flow == 0 }

def insertToken (s : Scan) (place : Nat) (t : Token) : Scan :=
  { s with tokens := s.tokens.insertIdxIfInBounds place t }

/-- The colon before a value: it makes a key of the possible simple key at this depth, if there is
one. -/
def colon (s : Scan) : Except Fault Scan :=
  match s.keys.lookup s.flow with
  | some k =>
    let s := { s with keys := s.keys.filter fun (depth, _) => depth != s.flow }
    let s := s.insertToken k.place .key
    let s :=
      if s.flow == 0 && s.deeper k.column then
        (s.enter k.column).insertToken k.place .blockMappingStart
      else s
    .ok { s.emitSign 1 .value with keyAllowed := false }
  | none => do
    if s.flow == 0 && !s.keyAllowed then .error .malformed
    let s := if s.flow == 0 then s.openBlock .blockMappingStart else s
    let s ← s.forgetKey
    .ok { s.emitSign 1 .value with keyAllowed := s.flow == 0 }

/-- A token that may be a simple key, read by a reader of lexemes. -/
def lexeme {α : Type} (s : Scan) (read : Cursor → Except Fault (α × Cursor)) (t : α → Token) :
    Except Fault Scan := do
  let s ← s.rememberKey
  let (a, c) ← read s.cursor
  .ok { s.emit (t a) with keyAllowed := false, cursor := c }

/-- A block scalar, after which a key may follow. -/
def block (s : Scan) (folded : Bool) : Except Fault Scan := do
  let s ← s.forgetKey
  let (text, c) ← blockScalar folded s.indent s.cursor
  .ok { s.emit (.scalar text false) with keyAllowed := true, cursor := c }

/-- A plain scalar. A key may follow if its last line has ended. -/
def plain (s : Scan) : Except Fault Scan := do
  let s ← s.rememberKey
  let (text, ended, c) := plainScalar (s.flow != 0) s.indent s.cursor
  .ok { s.emit (.scalar text true) with keyAllowed := ended, cursor := c }

/-- A plain scalar can start here. -/
def startsPlain (s : Scan) : Bool :=
  let ch := s.cursor.peek
  (!isGap ch && !"-?:,[]\x7b\x7d#&*!|>\x27\x22%@`".toList.contains ch) ||
    (!isGap (s.cursor.peekAt 1) && (ch == '-' || (s.flow == 0 && (ch == '?' || ch == ':'))))

/-- Add the next token to the row, with the tokens of blocks that open or close before it. -/
def step (s : Scan) : Except Fault Scan := do
  let s ← (s.skipMark.gap s.cursor.budget).forgetStale
  let s := s.unwind s.cursor.column
  let inFlow := s.flow != 0
  let gapAfter := isGap (s.cursor.peekAt 1)
  match s.cursor.peek with
  | '\x00' => s.streamEnd
  | '[' => s.openBracket .flowSequenceStart
  | '\x7b' => s.openBracket .flowMappingStart
  | ']' => s.closeBracket .flowSequenceEnd
  | '\x7d' => s.closeBracket .flowMappingEnd
  | ',' => s.comma
  | '*' => s.lexeme anchorName .alias
  | '&' => s.lexeme anchorName .anchor
  | '!' => s.lexeme tagAt .tag
  | '\x27' => s.lexeme (quotedScalar false) (.scalar · false)
  | '\x22' => s.lexeme (quotedScalar true) (.scalar · false)
  | ch =>
    if ch == '%' && s.cursor.column == 0 then s.directive
    else if ch == '-' && s.cursor.column == 0 && s.cursor.atMarker then s.marker .documentStart
    else if ch == '.' && s.cursor.column == 0 && s.cursor.atMarker then s.marker .documentEnd
    else if ch == '-' && gapAfter then s.dash
    else if ch == '?' && (inFlow || gapAfter) then s.questionMark
    else if ch == ':' && (inFlow || gapAfter) then s.colon
    else if ch == '|' && !inFlow then s.block false
    else if ch == '>' && !inFlow then s.block true
    else if s.startsPlain then s.plain
    else .error .malformed

/-- Add tokens until the text ends or stops making sense. -/
def finish : Nat → Scan → Array Token
  | 0, s => s.tokens.push (.broken .malformed)
  | bound + 1, s =>
    match s.step with
    | .error fault => (s.tokens.take s.decided).push (.broken fault)
    | .ok s => if s.done then s.tokens else finish bound s

end Scan

def tokens (text : String) : List Token :=
  let cs := text.toList
  if cs.all isAllowed then
    (Scan.finish (cs.length + 1) { cursor := .ofList cs }).toList
  else [.broken .malformed]

end Limn.Yaml
