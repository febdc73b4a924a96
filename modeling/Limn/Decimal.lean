/-! # Decimal text of binary floating point numbers

A finite double is `±m·2^q`. The decimals that read back as it fill an interval around it, and its
decimal form is the one with the fewest digits inside that interval, nearest to the number when two
of that length lie inside. `shortest` finds it in exact arithmetic by trying the two neighbours of
the number on the grid of 1, 2, … 17 digits.

How the digits are laid out is a separate matter, described by a `Layout`.
-/

namespace Limn.Decimal

def pow2 (n : Nat) : Nat := Nat.pow 2 n

def pow10 (n : Nat) : Nat := Nat.pow 10 n

/-! ## Taking a double apart -/

/-- What a double stands for. -/
inductive Parts where
  | nan
  | infinite (negative : Bool)
  | finite (negative : Bool) (mantissa : Nat) (exponent : Int)
deriving DecidableEq, Repr

def parts (x : Float) : Parts :=
  let bits := x.toBits.toNat
  let negative := bits / pow2 63 == 1
  let biased : Nat := bits / pow2 52 % pow2 11
  let fraction := bits % pow2 52
  if biased == 0x7ff then
    if fraction == 0 then .infinite negative else .nan
  else if biased == 0 then .finite negative fraction (-1074)
  else .finite negative (pow2 52 + fraction) ((biased : Int) - 1075)

/-- The whole part of a finite double, cut toward zero. -/
def wholePart? (x : Float) : Option Int :=
  match parts x with
  | .finite negative m q =>
    let n : Nat := if q < 0 then m / pow2 (-q).toNat else m * pow2 q.toNat
    some (if negative then -(n : Int) else n)
  | _ => none

/-- A number other than zero. Every NaN counts as one. -/
def isNonzero (x : Float) : Bool :=
  match parts x with
  | .finite _ m _ => m != 0
  | _ => true

/-! ## The fewest digits that read back -/

/-- The decimal digits of a natural number, most significant first. -/
def digits (n : Nat) : List Char :=
  Nat.toDigits 10 n

/-- A positive number as a quotient, with the quotients halfway to its two neighbours and whether
the halfway points themselves read back as it. All three share the denominator. -/
structure Rounding where
  below : Nat
  value : Nat
  above : Nat
  den : Nat
  closed : Bool

/-- The interval of reals that round to `m·2^q`. The gap below a power of two is half as wide. -/
def rounding (m : Nat) (q : Int) : Rounding :=
  let narrow := m == pow2 52 && q != -1074
  let up := pow2 (q - 2).toNat
  let den := pow2 (2 - q).toNat
  { below := (if narrow then 4 * m - 1 else 4 * m - 2) * up
    value := 4 * m * up
    above := (4 * m + 2) * up
    den := den
    closed := m % 2 == 0 }

/-- The position of the decimal point: the least `k` with `num / den < 10^k`. -/
def pointPosition (num den : Nat) : Int :=
  let k : Int := (digits num).length - (digits den).length
  if den * pow10 k.toNat ≤ num * pow10 (-k).toNat then k + 1 else k

/-- A candidate `c·10^e` lies in the interval. -/
def Rounding.admits (r : Rounding) (c : Nat) (e : Int) : Bool :=
  let x := c * r.den * pow10 e.toNat
  let scale := pow10 (-e).toNat
  if r.closed then r.below * scale ≤ x && x ≤ r.above * scale
  else r.below * scale < x && x < r.above * scale

/-- The neighbour of the number on the grid of multiples of `10^e` that reads back as it; of two,
the nearer, and on a tie the even one. -/
def Rounding.onGrid (r : Rounding) (e : Int) : Option Nat :=
  let num := r.value * pow10 (-e).toNat
  let den := r.den * pow10 e.toNat
  let c := num / den
  match r.admits c e, r.admits (c + 1) e with
  | false, false => none
  | true, false => some c
  | false, true => some (c + 1)
  | true, true =>
    let twice := 2 * (num % den)
    some (if twice < den || (twice == den && c % 2 == 0) then c else c + 1)

/-- The digits of `m·2^q` (with `0 < m`) and the position of their decimal point: `([d₁, …, dₙ], k)`
stands for `0.d₁…dₙ · 10^k`. -/
def shortest (m : Nat) (q : Int) : List Char × Int :=
  let r := rounding m q
  let k := pointPosition r.value r.den
  let found := (List.range 17).findSome? fun i =>
    let e := k - (i + 1 : Nat)
    (r.onGrid e).map fun c => (c, e)
  match found with
  | none => ([], k)
  | some (c, e) =>
    let ds := digits c
    (ds.reverse.dropWhile (· == '0') |>.reverse, ds.length + e)

/-! ## Laying the digits out -/

/-- How a number is written: the exponents written positionally, what follows a whole number, what
a lone leading digit is followed by in exponent form, and the words for what is no number. -/
structure Layout where
  leastPositional : Int
  mostPositional : Int
  wholeSuffix : String
  loneSuffix : String
  infinity : String
  nan : String

/-- Positional notation of `0.d₁…dₙ · 10^k`. -/
def Layout.positional (l : Layout) (ds : List Char) (k : Int) : String :=
  if k ≤ 0 then "0." ++ String.ofList (List.replicate (-k).toNat '0' ++ ds)
  else if (ds.length : Int) ≤ k then
    String.ofList (ds ++ List.replicate (k.toNat - ds.length) '0') ++ l.wholeSuffix
  else String.ofList (ds.take k.toNat) ++ "." ++ String.ofList (ds.drop k.toNat)

/-- Exponent notation of `0.d₁…dₙ · 10^k`: the exponent has a sign and at least two digits. -/
def Layout.scientific (l : Layout) (ds : List Char) (k : Int) : String :=
  let e := k - 1
  let size := digits e.natAbs
  let size := if size.length < 2 then '0' :: size else size
  let lead := match ds with
    | [] => "0"
    | [d] => String.singleton d ++ l.loneSuffix
    | d :: rest => String.singleton d ++ "." ++ String.ofList rest
  lead ++ (if e < 0 then "e-" else "e+") ++ String.ofList size

def Layout.text (l : Layout) (x : Float) : String :=
  let signed (negative : Bool) (s : String) := if negative then "-" ++ s else s
  match parts x with
  | .nan => l.nan
  | .infinite negative => signed negative l.infinity
  | .finite negative 0 _ => signed negative ("0" ++ l.wholeSuffix)
  | .finite negative m q =>
    let (ds, k) := shortest m q
    let e := k - 1
    signed negative <|
      if l.leastPositional ≤ e && e ≤ l.mostPositional then l.positional ds k
      else l.scientific ds k

/-! ## Reading -/

/-- The double nearest to `n·10^e`, ties to even. Exponents far outside the range of doubles are
settled by the number of digits alone. -/
def nearest (n : Nat) (e : Int) : Float :=
  let size := e + (digits n).length
  if n == 0 || size < -400 then 0.0
  else if 400 < size then Float.ofBits 0x7ff0000000000000
  else if e < 0 then Float.ofScientific n true (-e).toNat
  else Float.ofScientific n false e.toNat

def infinity : Float :=
  Float.ofBits 0x7ff0000000000000

/-- The quiet NaN. -/
def nan : Float :=
  Float.ofBits 0x7ff8000000000000

end Limn.Decimal
