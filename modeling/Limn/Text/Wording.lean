import Limn.Text.Blank
import Limn.Text.Symbol

/-! # Wordings

A name, a title or the type of a node is worded by a row of symbols. Mostly that is a text; an
escape that names half of a surrogate pair makes it a row that is none. Such a wording can be
compared, trimmed and escaped like any other, but it cannot be encoded.
-/

namespace Limn

open Limn.Text (Symbol)

/-- A row of symbols that is no text, because some of them are halves of pairs. -/
structure Halved where
  symbols : List Symbol
  broken : Symbol.text? symbols = none
deriving DecidableEq, Repr

/-- A text, or a row of symbols that is none. -/
inductive Wording where
  | text (s : String)
  | halved (h : Halved)
deriving DecidableEq, Repr

namespace Wording

instance : Coe String Wording := ⟨.text⟩

instance : Inhabited Wording := ⟨.text ""⟩

def ofSymbols (symbols : List Symbol) : Wording :=
  match h : Symbol.text? symbols with
  | some s => .text s
  | none => .halved ⟨symbols, h⟩

def symbols : Wording → List Symbol
  | .text s => Symbol.ofText s
  | .halved h => h.symbols

def text? : Wording → Option String
  | .text s => some s
  | .halved _ => none

theorem ofSymbols_of_text? {row : List Symbol} {s : String} (h : Symbol.text? row = some s) :
    ofSymbols row = .text s := by
  unfold ofSymbols
  split
  · rename_i t ht
    rw [Option.some.inj (ht.symm.trans h)]
  · rename_i hnone
    rw [h] at hnone
    cases hnone

@[simp] theorem ofSymbols_map_char (cs : List Char) :
    ofSymbols (cs.map .char) = .text (String.ofList cs) :=
  ofSymbols_of_text? (Symbol.text?_map_char cs)

@[simp] theorem ofSymbols_symbols (w : Wording) : ofSymbols w.symbols = w := by
  cases w with
  | text s => exact ofSymbols_of_text? (Symbol.text?_ofText s)
  | halved h =>
      unfold ofSymbols
      split
      · rename_i s hs
        exact absurd (hs.symm.trans h.broken) (by simp)
      · rfl

@[simp] theorem symbols_ofSymbols (row : List Symbol) : (ofSymbols row).symbols = row := by
  unfold ofSymbols
  split
  · rename_i s hs
    exact Symbol.ofText_of_text? hs
  · rfl

@[simp] theorem text?_symbols (w : Wording) : Symbol.text? w.symbols = w.text? := by
  cases w with
  | text s => exact Symbol.text?_ofText s
  | halved h => exact h.broken

/-! ## Rows of wordings -/

theorem texts_or_halved (ws : List Wording) :
    (∃ texts : List String, ws = texts.map text) ∨ ∃ h, halved h ∈ ws := by
  induction ws with
  | nil => exact .inl ⟨[], rfl⟩
  | cons w ws ih =>
      obtain ⟨texts, rfl⟩ | ⟨h, hmem⟩ := ih
      · cases w with
        | text s => exact .inl ⟨s :: texts, rfl⟩
        | halved h => exact .inr ⟨h, List.mem_cons_self⟩
      · exact .inr ⟨h, List.mem_cons_of_mem w hmem⟩

theorem mapM_text? (texts : List String) : (texts.map text).mapM text? = some texts := by
  induction texts with
  | nil => rfl
  | cons s texts ih =>
      rw [List.map_cons, List.mapM_cons, ih]
      rfl

theorem mapM_text?_of_halved {ws : List Wording} {h : Halved} (hmem : halved h ∈ ws) :
    ws.mapM text? = none := by
  induction ws with
  | nil => exact absurd hmem List.not_mem_nil
  | cons w ws ih =>
      rw [List.mapM_cons]
      obtain rfl | hmem := List.mem_cons.mp hmem
      · rfl
      · rw [ih hmem]
        cases w.text? <;> rfl

theorem mapM_text?_symbols (ws : List Wording) :
    (ws.map symbols).mapM Symbol.text? = ws.mapM text? := by
  rw [List.mapM_map]
  congr 1
  funext w
  exact text?_symbols w

/-! ## Order and ends -/

/-- Wordings are ordered by their code points. -/
def atMost (a b : Wording) : Bool :=
  !(b.symbols.map Symbol.number).lex (a.symbols.map Symbol.number) fun m n => decide (m < n)

/-- Without the blank characters at both ends. -/
def trim : Wording → Wording
  | .text s => .text (Text.trim s)
  | .halved h => .ofSymbols (Text.trimWhile (fun s => s.char?.any Text.isBlank) h.symbols)

end Wording

end Limn
