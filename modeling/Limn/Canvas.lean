import Limn.Tree

/-! # The canvas

A row of claimed spans in order of position. Claiming a span answers with the parts of it that were
still free, and merges it with the claimed spans that it overlaps; spans that merely touch stay
apart.

Positions are found by bisection. The spans claimed are expected to hold at least one octet; what
happens to the others is nevertheless fixed, and bisection is part of it.
-/

namespace Limn

/-- Bisection in a row of numbers: where a number is to be inserted, after those equal to it. -/
def insertionPoint (row : Array Int) (x : Int) (low high : Nat) : Nat :=
  if low < high then
    let middle := (low + high) / 2
    if x < row.getD middle 0 then insertionPoint row x low middle
    else insertionPoint row x (middle + 1) high
  else low
termination_by high - low

/-- The claimed spans, in order of position. -/
structure Canvas where
  claimed : List Span := []
deriving DecidableEq, Repr, Inhabited

namespace Canvas

def blank : Canvas := {}

def starts (c : Canvas) : List Int :=
  c.claimed.map (·.start)

def stops (c : Canvas) : List Int :=
  c.claimed.map (·.stop)

/-- The number of claimed spans that start at or before a position. -/
def startedBy (c : Canvas) (position : Int) : Nat :=
  insertionPoint c.starts.toArray position 0 c.claimed.length

/-- The number of claimed spans that end at or before a position. -/
def endedBy (c : Canvas) (position : Int) : Nat :=
  insertionPoint c.stops.toArray position 0 c.claimed.length

/-- A position lies strictly inside a claimed span. -/
def inside (c : Canvas) (position : Int) : Bool :=
  match c.startedBy position with
  | 0 => false
  | i + 1 =>
    match c.claimed[i]? with
    | none => false
    | some s => s.start < position && position < s.stop

/-- The parts between a cursor and an end that a row of claimed spans leaves free. -/
def gaps (cursor stop : Int) : List Span → List Span
  | [] => if cursor < stop then [⟨cursor, stop⟩] else []
  | s :: rest =>
    let later := gaps (max cursor s.stop) stop rest
    if cursor < s.start then ⟨cursor, s.start⟩ :: later else later

/-- A span together with the row of claimed spans that it meets: from the first start to the last
end. -/
def merged (span : Span) (met : List Span) : Span :=
  match met.head?, met.getLast? with
  | some first, some last => ⟨min span.start first.start, max span.stop last.stop⟩
  | _, _ => span

/-- Claim a span; the answer is what of it was still free, and the canvas afterwards. -/
def claim (c : Canvas) (span : Span) : List Span × Canvas :=
  let i := c.endedBy span.start
  let ahead := c.claimed.drop i
  let met := ahead.takeWhile fun s => s.start < span.stop
  let past := ahead.drop met.length
  (gaps span.start span.stop met, ⟨c.claimed.take i ++ merged span met :: past⟩)

end Canvas

end Limn
