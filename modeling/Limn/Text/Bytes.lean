/-! # Octets and UTF-8

Documents are octets; offsets into them count octets. Text is cut out of a document by a half-open
window of offsets, which may be negative (counted from the end) or lie outside the document, and
is then read as UTF-8. Reading never fails: every longest piece that starts like a character but is
not one becomes a single replacement character.

The decoder is a one-octet-at-a-time machine, so each octet is looked at once and the point of
refusal is exactly where the longest invalid piece ends.
-/

namespace Limn

abbrev Bytes := List UInt8

namespace Bytes

/-! ## Encoding -/

/-- The UTF-8 octets of a text. -/
def ofText (s : String) : Bytes :=
  s.toList.flatMap String.utf8EncodeChar

/-! ## Decoding -/

/-- Where the decoder stands: between characters, or inside one. Inside, `value` is what has been
read, `missing` the number of octets still due, and the next octet must lie in `low … high`. -/
inductive Decoding where
  | idle
  | inside (value missing : Nat) (low high : UInt8)
deriving DecidableEq, Repr

/-- What one octet yields: a character, or `none` for an invalid piece. -/
abbrev Piece := Option Char

/-- Start a character with this octet. -/
def lead (b : UInt8) : List Piece × Decoding :=
  let n := b.toNat
  if n < 0x80 then ([some (Char.ofNat n)], .idle)
  else if n < 0xc2 then ([none], .idle)
  else if n < 0xe0 then ([], .inside (n - 0xc0) 1 0x80 0xbf)
  else if n == 0xe0 then ([], .inside 0 2 0xa0 0xbf)
  else if n == 0xed then ([], .inside 0xd 2 0x80 0x9f)
  else if n < 0xf0 then ([], .inside (n - 0xe0) 2 0x80 0xbf)
  else if n == 0xf0 then ([], .inside 0 3 0x90 0xbf)
  else if n < 0xf4 then ([], .inside (n - 0xf0) 3 0x80 0xbf)
  else if n == 0xf4 then ([], .inside 4 3 0x80 0x8f)
  else ([none], .idle)

/-- Take one octet. An octet that cannot continue the character ends an invalid piece and is then
looked at afresh. -/
def step : Decoding → UInt8 → List Piece × Decoding
  | .idle, b => lead b
  | .inside value missing low high, b =>
    if low ≤ b && b ≤ high then
      let value := value * 64 + (b.toNat - 0x80)
      if missing ≤ 1 then ([some (Char.ofNat value)], .idle)
      else ([], .inside value (missing - 1) 0x80 0xbf)
    else
      let (out, next) := lead b
      (none :: out, next)

/-- The pieces of a row of octets, from a given standing of the decoder. -/
def piecesFrom : Decoding → Bytes → List Piece
  | .idle, [] => []
  | .inside .., [] => [none]
  | d, b :: rest =>
    let (out, next) := step d b
    out ++ piecesFrom next rest

def pieces (bs : Bytes) : List Piece :=
  piecesFrom .idle bs

/-- The text of a row of octets if all of it is UTF-8. -/
def toText? (bs : Bytes) : Option String :=
  ((pieces bs).mapM id).map String.ofList

/-- The text of a row of octets, with one replacement character per invalid piece. -/
def toTextLossy (bs : Bytes) : String :=
  String.ofList ((pieces bs).map (·.getD '\ufffd'))

/-! ## Windows -/

/-- An offset as a position between octets: negative offsets count from the end, and what lies
outside is moved to the nearer end. -/
def position (size : Nat) (offset : Int) : Nat :=
  if offset < 0 then (offset + size).toNat else min offset.toNat size

/-- The octets from one offset up to another, empty when they cross. -/
def window (bs : Bytes) (start stop : Int) : Bytes :=
  let i := position bs.length start
  let j := position bs.length stop
  (bs.drop i).take (j - i)

end Bytes

end Limn
