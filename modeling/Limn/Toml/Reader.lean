import Limn.Toml.Lexeme

/-! # Settings documents

A TOML document as a value. Nested values may stand on several lines inside a list, but an inline
table stays on one line and has no comma after its last pair. Each nested value and each statement
uses up one unit of the bound, so a bound of the number of characters never runs out.
-/

namespace Limn.Toml

/-! ## Values -/

mutual

def value : Nat → List Char → Except Fault (Value × List Char)
  | 0, _ => .error .malformed
  | bound + 1, cs =>
    match cs with
    | '[' :: rest => do
      match ← skipSpace rest.length rest with
      | ']' :: rest => .ok (.list [], rest)
      | rest => items bound [] rest
    | '\x7b' :: rest =>
      match skipBlanks rest with
      | '\x7d' :: rest => .ok (.map [], rest)
      | rest => pairs bound {} rest
    | _ => scalar cs

def items : Nat → List Value → List Char → Except Fault (Value × List Char)
  | 0, _, _ => .error .malformed
  | bound + 1, read, cs => do
    let (v, rest) ← value bound cs
    match ← skipSpace rest.length rest with
    | ']' :: rest => .ok (.list (v :: read).reverse, rest)
    | ',' :: rest =>
      match ← skipSpace rest.length rest with
      | ']' :: rest => .ok (.list (v :: read).reverse, rest)
      | rest => items bound (v :: read) rest
    | _ => .error .malformed

def pairs : Nat → Draft → List Char → Except Fault (Value × List Char)
  | 0, _, _ => .error .malformed
  | bound + 1, draft, cs => do
    let (k, rest) ← key cs
    let rest ← required (after? '=' rest)
    let (v, rest) ← value bound (skipBlanks rest)
    let draft ← required (draft.assignInline k v)
    match skipBlanks rest with
    | '\x7d' :: rest => .ok (.map draft.table, rest)
    | ',' :: rest => pairs bound draft (skipBlanks rest)
    | _ => .error .malformed

end

/-! ## Statements -/

/-- One statement at the start of `cs`, which is not empty. -/
def statement (d : Draft) (cs : List Char) : Except Fault (Draft × List Char) :=
  match cs with
  | '#' :: _ => .ok (d, cs)
  | '[' :: '[' :: rest => do
    let (k, rest) ← key (skipBlanks rest)
    let d ← required (d.settle.beginItem k)
    match rest with
    | ']' :: ']' :: rest => .ok (d, rest)
    | _ => .error .malformed
  | '[' :: rest => do
    let (k, rest) ← key (skipBlanks rest)
    let d ← required (d.settle.beginTable k)
    match rest with
    | ']' :: rest => .ok (d, rest)
    | _ => .error .malformed
  | _ => do
    let (k, rest) ← key cs
    let rest ← required (after? '=' rest)
    let (v, rest) ← value (rest.length + 1) (skipBlanks rest)
    let d ← required (d.assign k v)
    .ok (d, rest)

def statements : Nat → Draft → List Char → Except Fault Draft
  | 0, _, _ => .error .malformed
  | bound + 1, d, cs =>
    match skipBlanks cs with
    | [] => .ok d
    | '\n' :: rest => statements bound d rest
    | cs => do
      let (d, rest) ← statement d cs
      match ← skipComment (skipBlanks rest) with
      | [] => .ok d
      | '\n' :: rest => statements bound d rest
      | _ => .error .malformed

/-- A line may end with a carriage return and a line feed. -/
def lineEnds : List Char → List Char
  | [] => []
  | '\r' :: '\n' :: rest => '\n' :: lineEnds rest
  | c :: rest => c :: lineEnds rest

def read (s : String) : Except Fault Value := do
  let cs := lineEnds s.toList
  let d ← statements (cs.length + 1) {} cs
  .ok (.map d.table)

end Limn.Toml
