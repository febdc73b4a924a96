import Limn.Text.Bytes
import Limn.Value

/-! # Syntax trees

A document has two trees over the same octets: the block tree and the inline tree. A node has a
type, a half-open span of octet offsets, and children; a child may sit in a named field of its
parent. Spans are not required to nest, and may even be crossed.

`Node.walk` visits a tree in document order with a work list, so that it does not matter how deep
the tree is.
-/

namespace Limn

/-! ## Spans -/

structure Span where
  start : Int
  stop : Int
deriving DecidableEq, Repr, Inhabited

namespace Span

/-- A span that holds no octet; crossed spans count as empty. -/
def isEmpty (s : Span) : Bool :=
  s.stop ≤ s.start

/-- The octet at this offset lies in the span. -/
def covers (s : Span) (offset : Int) : Bool :=
  s.start ≤ offset && offset < s.stop

end Span

/-! ## Nodes -/

/-- Where a node's text comes from. -/
inductive Content where
  /-- The node has no text. -/
  | absent
  /-- The text itself. -/
  | literal (wording : Wording)
  /-- Octets of its own. -/
  | raw (bytes : Bytes)
  /-- The octets of the document that the node's span covers. -/
  | spanOf (source : Bytes)
deriving DecidableEq, Repr, Inhabited

/-- A node of a syntax tree. `field` is the field of the parent in which the node sits, null when
there is none. -/
structure Node where
  type : Wording
  span : Span
  named : Bool := true
  field : Value := .null
  content : Content := .absent
  children : List Node := []
deriving Repr, Inhabited

namespace Node

mutual

def size : Node → Nat
  | ⟨_, _, _, _, _, children⟩ => forestSize children + 1

def forestSize : List Node → Nat
  | [] => 0
  | n :: rest => n.size + forestSize rest

end

def namedChildren (n : Node) : List Node :=
  n.children.filter (·.named)

def firstNamed? (n : Node) : Option Node :=
  n.namedChildren.head?

/-- The node sits in this field of its parent. -/
def inField (n : Node) (name : String) : Bool :=
  match n.field with
  | .text s => s == name
  | _ => false

def fieldChild? (n : Node) (name : String) : Option Node :=
  n.children.find? (·.inField name)

def text? (n : Node) : Option Wording :=
  match n.content with
  | .absent => none
  | .literal wording => some wording
  | .raw bytes => some bytes.toTextLossy
  | .spanOf source => some (source.window n.span.start n.span.stop).toTextLossy

/-- Two nodes are taken for the same when type and span agree. -/
def same (a b : Node) : Bool :=
  a.type == b.type && a.span.start == b.span.start && a.span.stop == b.span.stop

/-! ## Walking -/

/-- One stop of a walk: a node and its direct parent. -/
structure Visit where
  node : Node
  parent : Option Node := none

/-- Take the visits off a work list; each visit puts those of its children in front of what is
still to come. The first argument bounds the number of visits. -/
def visits : Nat → List Visit → List Visit
  | 0, _ => []
  | _, [] => []
  | bound + 1, v :: pending =>
    v :: visits bound (v.node.children.map (⟨·, some v.node⟩) ++ pending)

/-- Every node of a tree with its parent, in document order: a node before its children, earlier
children before later ones. -/
def walk (root : Node) : List Visit :=
  visits root.size [⟨root, none⟩]

end Node

end Limn
