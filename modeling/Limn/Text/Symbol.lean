/-! # Symbols

A symbol is a character, or one half of a surrogate pair that stands alone. Formats that name
characters by sixteen-bit units can spell such a half. It is no character, so a row of symbols is a
text only if it holds none.
-/

namespace Limn.Text

/-! ## Surrogates -/

/-- A unit that begins a pair. -/
def isHighHalf (n : Nat) : Bool :=
  0xd800 ≤ n && n < 0xdc00

/-- A unit that ends a pair. -/
def isLowHalf (n : Nat) : Bool :=
  0xdc00 ≤ n && n < 0xe000

/-- The character that a pair stands for. -/
def joinHalves (high low : Nat) : Char :=
  Char.ofNat (0x10000 + (high - 0xd800) * 0x400 + (low - 0xdc00))

/-- Half of a surrogate pair. -/
structure Half where
  unit : Nat
  isHalf : (isHighHalf unit || isLowHalf unit) = true
deriving DecidableEq, Repr

/-! ## Symbols -/

/-- A character, or half of a surrogate pair that stands alone. -/
inductive Symbol where
  | char (c : Char)
  | half (h : Half)
deriving DecidableEq, Repr

namespace Symbol

def ofNat (n : Nat) : Symbol :=
  if h : isHighHalf n || isLowHalf n then .half ⟨n, h⟩ else .char (Char.ofNat n)

def number : Symbol → Nat
  | .char c => c.toNat
  | .half h => h.unit

def char? : Symbol → Option Char
  | .char c => some c
  | .half _ => none

def ofText (s : String) : List Symbol :=
  s.toList.map .char

/-- The text of a row of symbols, if it holds no half. -/
def text? (symbols : List Symbol) : Option String :=
  (symbols.mapM char?).map String.ofList

@[simp] theorem mapM_char? : ∀ cs : List Char, (cs.map char).mapM char? = some cs
  | [] => rfl
  | c :: cs => by
      rw [List.map_cons, List.mapM_cons, mapM_char? cs]
      rfl

@[simp] theorem text?_map_char (cs : List Char) : text? (cs.map char) = some (String.ofList cs) := by
  rw [text?, mapM_char?, Option.map_some]

@[simp] theorem text?_ofText (s : String) : text? (ofText s) = some s := by
  rw [ofText, text?_map_char, String.ofList_toList]

/-- Only the symbols of a text have it as their text. -/
theorem ofText_of_text? {symbols : List Symbol} {s : String} (h : text? symbols = some s) :
    ofText s = symbols := by
  have hchars : ∀ {row : List Symbol} {cs : List Char}, row.mapM char? = some cs →
      cs.map char = row := by
    intro row
    induction row with
    | nil =>
        intro cs h
        cases h
        rfl
    | cons x row ih =>
        intro cs h
        rw [List.mapM_cons] at h
        obtain ⟨c, hc, h⟩ := Option.bind_eq_some_iff.mp h
        obtain ⟨rest, hrest, h⟩ := Option.bind_eq_some_iff.mp h
        cases h
        cases x with
        | char d =>
            cases hc
            rw [List.map_cons, ih hrest]
        | half h => cases hc
  obtain ⟨cs, hcs, rfl⟩ := Option.map_eq_some_iff.mp h
  rw [ofText, String.toList_ofList, hchars hcs]

/-- The symbols of a row of sixteen-bit units. A half next to its other half makes a character with
it. -/
def ofUnits : List Nat → List Symbol
  | [] => []
  | [n] => [ofNat n]
  | n :: m :: rest =>
    if isHighHalf n && isLowHalf m then .char (joinHalves n m) :: ofUnits rest
    else ofNat n :: ofUnits (m :: rest)

end Symbol

end Limn.Text
