import Limn.Notice
import Limn.Tree

/-! # Grammars

A grammar belongs to another program. All that is known of it is that it may be told which ranges of
a text to look at, which it may refuse, and that it gives a tree for a text within the ranges it was
told last. Grammars are looked up by name; a lookup finds one, reports that there is none, or breaks
down.
-/

namespace Limn

/-- A loaded grammar. Both of its answers may be a breakdown, for a reason. -/
structure Grammar where
  /-- Whether it takes these ranges. If not, the ranges it had stay in force. -/
  accept : List Span → Except String Unit
  /-- The tree of a text within the ranges in force. -/
  parse : List Span → Bytes → Except String Node

inductive Lookup where
  | loaded (g : Grammar)
  | unavailable (reason : String)
  | broken (reason : String)

abbrev Grammars := Value → Lookup

/-- The reason for which a name finds nothing. -/
def Grammars.notFound (name : Value) : String :=
  "Language not found: " ++ name.toText

/-- Without any grammars, every name finds nothing. -/
def Grammars.none : Grammars := fun name =>
  .unavailable (notFound name)

inductive GrammarRequest where
  | parse (language : Value) (source : Bytes)
  | ranges (language : Value) (spans : List Span)
deriving Repr

end Limn
