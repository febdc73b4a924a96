import Limn.Error
import Limn.Tree

/-! # Patterns

What a rule asks of a node and its direct parent. A missing parent, child or field is simply no
match. A table given from outside may hold something that is no pattern; looking at that is an
error.
-/

namespace Limn

/-- A pattern on a node and its direct parent. -/
inductive Pattern where
  /-- The node has one of these types. -/
  | oneOf (types : List Wording)
  /-- The node has one type and its parent another; with a field, the parent's child in that field
  is this node. -/
  | childOf (parent child : List Wording) (field : Option String)
  /-- One of the alternatives matches. -/
  | either (alternatives : List Pattern)
  /-- No pattern, but something of this kind. -/
  | unknown (variant : String)
deriving Repr, Inhabited

namespace Pattern

/-- A node under a parent satisfies a parent-and-child pattern. -/
def childAccepts (parents children : List Wording) (field : Option String) (node : Node) :
    Option Node → Bool
  | none => false
  | some parent =>
    children.contains node.type && parents.contains parent.type &&
      match field with
      | none => true
      | some name =>
        match parent.fieldChild? name with
        | none => false
        | some held => held.same node

mutual

/-- The pattern matches the node under the parent. Alternatives are tried in order, and those
after the first that matches are not looked at. -/
def accepts (node : Node) (parent : Option Node) : Pattern → Except Error Bool
  | .oneOf types => .ok (types.contains node.type)
  | .childOf parents children field => .ok (childAccepts parents children field node parent)
  | .either alternatives => anyAccepts node parent alternatives
  | .unknown variant => .error (.unknownPattern variant)

def anyAccepts (node : Node) (parent : Option Node) : List Pattern → Except Error Bool
  | [] => .ok false
  | p :: rest => do
    if ← p.accepts node parent then .ok true else anyAccepts node parent rest

end

mutual

/-- The types of the nodes that a pattern can match, each once. -/
def captures : Pattern → Except Error (List Wording)
  | .oneOf types => .ok types.eraseDups
  | .childOf _ children _ => .ok children.eraseDups
  | .either alternatives => allCaptures alternatives
  | .unknown variant => .error (.unknownPattern variant)

/-- The types of the nodes that one of the patterns can match, each once. -/
def allCaptures : List Pattern → Except Error (List Wording)
  | [] => .ok []
  | p :: rest => do
    let first ← p.captures
    let others ← allCaptures rest
    .ok (first ++ others).eraseDups

end

end Pattern

end Limn
