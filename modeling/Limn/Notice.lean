import Limn.Error

/-! # Notices

Operations leave notices about what they did. A notice has a level and the name of the part of the
program that leaves it. `Logged` is the result of an operation together with its notices, which
remain when the operation fails.
-/

namespace Limn

/-! ## Notices -/

inductive Level where
  | debug
  | warning
deriving DecidableEq, Repr

def Level.word : Level → String
  | .debug => "DEBUG"
  | .warning => "WARNING"

inductive Notice where
  /-- A grammar could not be loaded. -/
  | grammarUnavailable (name : Value) (reason : String)
  /-- A document of so many octets was parsed, with so many inline regions. -/
  | parsed (size regions : Nat)
  /-- Two trees were highlighted. -/
  | highlighted (features : List String) (matched painted : Nat)
  /-- An outline was built. -/
  | outlined (headings : Nat)
deriving Repr

namespace Notice

def level : Notice → Level
  | .grammarUnavailable .. => .warning
  | _ => .debug

/-- The part of the program that leaves a notice. -/
def origin : Notice → String
  | .grammarUnavailable .. | .parsed .. => "marksight.adapters.treesitter_parser"
  | .highlighted .. => "marksight.core.engine"
  | .outlined _ => "marksight.core.outline"

def message : Notice → String
  | .grammarUnavailable name reason => "grammar " ++ name.toText ++ " unavailable: " ++ reason
  | .parsed size regions =>
    "parsed " ++ Value.intText size ++ " bytes, " ++ Value.intText regions ++ " inline region(s)"
  | .highlighted features matched painted =>
    "features=" ++ ",".intercalate features ++ " matched=" ++ Value.intText matched ++
      " painted=" ++ Value.intText painted
  | .outlined headings => "outline: " ++ Value.intText headings ++ " heading(s)"

def line (n : Notice) : String :=
  n.level.word ++ " " ++ n.origin ++ ": " ++ n.message ++ "\n"

/-- Debug notices are shown only on demand. -/
def isShown (verbose : Bool) (n : Notice) : Bool :=
  verbose || n.level == .warning

end Notice

/-! ## Results with notices -/

/-- The result of an operation and the notices that it left, in order. -/
structure Logged (α : Type) where
  notices : List Notice
  result : Except Error α

namespace Logged

def of {α : Type} (result : Except Error α) : Logged α :=
  ⟨[], result⟩

def note (n : Notice) : Logged Unit :=
  ⟨[n], .ok ()⟩

/-- Go on with the result, if there is one. -/
def andThen {α β : Type} (a : Logged α) (f : α → Logged β) : Logged β :=
  match a.result with
  | .error e => ⟨a.notices, .error e⟩
  | .ok x => ⟨a.notices ++ (f x).notices, (f x).result⟩

instance : Monad Logged where
  pure x := of (.ok x)
  bind := andThen

section Steps

variable {α β : Type}

theorem result_bind (a : Logged α) (f : α → Logged β) :
    (a >>= f).result = a.result >>= fun x => (f x).result := by
  show (a.andThen f).result = _
  unfold andThen
  cases a.result with
  | error e => rfl
  | ok x => rfl

theorem notices_bind {a : Logged α} {x : α} (h : a.result = .ok x) (f : α → Logged β) :
    (a >>= f).notices = a.notices ++ (f x).notices := by
  show (a.andThen f).notices = _
  unfold andThen
  rw [h]

theorem bind_ok {a : Logged α} {f : α → Logged β} {y : β} (h : (a >>= f).result = .ok y) :
    ∃ x, a.result = .ok x ∧ (f x).result = .ok y := by
  rw [result_bind] at h
  cases ha : a.result with
  | error e =>
      rw [ha] at h
      contradiction
  | ok x =>
      rw [ha] at h
      exact ⟨x, rfl, h⟩

theorem bind_pure (a : Logged α) : a >>= pure = a := by
  obtain ⟨notices, result⟩ := a
  cases result with
  | error e => rfl
  | ok x =>
      show (⟨notices ++ [], .ok x⟩ : Logged α) = _
      rw [List.append_nil]

/-! ### Quiet results -/

/-- All notices are of the kind that is shown only on demand. -/
def IsQuiet (l : Logged α) : Prop :=
  ∀ n ∈ l.notices, n.level = .debug

theorem isQuiet_of_nil {l : Logged α} (h : l.notices = []) : l.IsQuiet := by
  intro n hn
  rw [h] at hn
  exact absurd hn List.not_mem_nil

theorem isQuiet_of (result : Except Error α) : (of result).IsQuiet :=
  isQuiet_of_nil rfl

theorem isQuiet_note {n : Notice} (h : n.level = .debug) : (note n).IsQuiet := by
  intro m hm
  rw [List.mem_singleton.mp hm]
  exact h

theorem IsQuiet.bind {a : Logged α} (ha : a.IsQuiet) {f : α → Logged β}
    (hf : ∀ x, (f x).IsQuiet) : (a >>= f).IsQuiet := by
  cases hresult : a.result with
  | error e =>
      have hnotices : (a >>= f).notices = a.notices := by
        show (a.andThen f).notices = _
        unfold andThen
        rw [hresult]
      intro n hn
      rw [hnotices] at hn
      exact ha n hn
  | ok x =>
      intro n hn
      rw [notices_bind hresult, List.mem_append] at hn
      obtain hn | hn := hn
      · exact ha n hn
      · exact hf x n hn

end Steps

end Logged

end Limn
