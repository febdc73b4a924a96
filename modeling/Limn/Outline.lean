import Limn.Error
import Limn.Tree

/-! # Outlines

The headings of a document in document order. A heading section is a node whose first named child
is a heading marker; its title is the trimmed text of the marker's content field. A blank title is
the empty text, which is not the same as having none: sections without a title are left out.
-/

namespace Limn

/-- One heading: its title, the span of its section, which serves as a fold range, and its depth. -/
structure OutlineEntry where
  name : Wording
  span : Span
  depth : Nat := 1
deriving DecidableEq, Repr, Inhabited

structure Outline where
  group : String
  entries : List OutlineEntry
deriving DecidableEq, Repr, Inhabited

namespace Outline

/-- The group label unless another is chosen. -/
def defaultGroup : String := "Headings"

/-- The types of heading markers unless others are chosen. -/
def defaultTypes : List String := ["atx_heading"]

/-- The field of a heading marker that holds its title. -/
def titleField : String := "heading_content"

/-- The node's first named child is a heading marker. -/
def isSection (types : List Wording) (node : Node) : Bool :=
  match node.firstNamed? with
  | none => false
  | some marker => types.contains marker.type

/-- The title of a heading section: `none` if there is no marker, no content field or no text. -/
def title? (node : Node) : Option Wording := do
  let marker ← node.firstNamed?
  let content ← marker.fieldChild? titleField
  let text ← content.text?
  return text.trim

/-- The entry of a node that is a heading section with a title. -/
def heading? (types : List Wording) (node : Node) : Option OutlineEntry :=
  if isSection types node then (title? node).map fun name => ⟨name, node.span, 1⟩ else none

def names (o : Outline) : List Wording :=
  o.entries.map (·.name)

def build (block : Option Node) (types : List Wording) (group : String) : Except Error Outline :=
  match block with
  | none => .error .blockTreeMissing
  | some root => .ok ⟨group, root.walk.filterMap fun v => heading? types v.node⟩

end Outline

end Limn
