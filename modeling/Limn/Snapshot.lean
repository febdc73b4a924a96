import Limn.Source
import Limn.Tree
import Limn.Value.Integer

/-! # Snapshots of trees

A tree written down as a value. Each node is a mapping with the keys `type`, `start` and `end`, and
optionally `named` (true unless given), `field`, `text` and `children`. A node without a `text` of
its own takes it from the document's octets, if those are at hand.

`Snapshot.node` accepts a value or names the first fault in document order, with the path to it:
`$` for the root and `/i` for each child on the way. Types and texts are looked at after the
children; they may be any value that can be written. `Snapshot.value` writes a tree down; neither
texts nor the field of the root are part of it.
-/

namespace Limn.Snapshot

/-! ## Reading -/

def fault (path : String) (f : NodeFault) : Error :=
  .snapshot (.node path f)

/-- What stands under a key that every node has. -/
def required (path : String) (entries : List (Value × Value)) (key : String) :
    Except Error Value :=
  match Entries.get? (.text key) entries with
  | none => .error (fault path (.missingKey key))
  | some v => .ok v

/-- The offset under a key that every node has. -/
def offset (path : String) (entries : List (Value × Value)) (key : String) : Except Error Int := do
  let v ← required path entries key
  match v.integer with
  | .integer n => .ok n
  | .notInteger => .error (fault path .notIntegers)
  | .infinite => .error .infiniteOffset

/-- The type and the span of a node. Faults are looked for in the order type, start, end. -/
def header (path : String) (v : Value) : Except Error (Value × Span) :=
  match v with
  | .map entries => do
    let type ← required path entries "type"
    let start ← offset path entries "start"
    let stop ← offset path entries "end"
    if stop < start then
      .error ((fault path (.crossed start stop)).about [.int start, .int stop])
    else .ok (type, ⟨start, stop⟩)
  | _ => .error (fault path (.notMapping v.kind))

/-- The children of a node: none if there is no such key or nothing set under it. -/
def childItems? (v : Value) : Option (List Value) :=
  match v.get? "children" with
  | none => some []
  | some children =>
    if children.isSet then
      match children with
      | .list items => some items
      | _ => none
    else some []

def content (source : Option Bytes) (v : Value) : Except Error Content :=
  match v.get? "text" with
  | none | some .null =>
    match source with
    | none => .ok .absent
    | some bytes => .ok (.spanOf bytes)
  | some text => text.worded.map .literal

/-- The node with its parts looked up, given its children. -/
def assemble (source : Option Bytes) (v type : Value) (span : Span) (children : List Node) :
    Except Error Node := do
  let type ← type.worded
  let content ← content source v
  .ok {
    type, span, content, children
    named := ((v.get? "named").map (·.isSet)).getD true
    field := (v.get? "field").getD .null }

theorem sizeOf_get? {key v : Value} :
    ∀ {entries : List (Value × Value)}, Entries.get? key entries = some v →
      sizeOf v < sizeOf entries
  | (k, w) :: rest, h => by
    unfold Entries.get? at h
    split at h
    · cases h
      simp only [List.cons.sizeOf_spec, Prod.mk.sizeOf_spec]
      omega
    · have := sizeOf_get? h
      simp only [List.cons.sizeOf_spec]
      omega

/-- A key of a mapping holds something smaller than the mapping. -/
theorem sizeOf_value_get? {v w : Value} {key : String} (h : v.get? key = some w) :
    sizeOf w < sizeOf v := by
  unfold Value.get? at h
  split at h
  · have := sizeOf_get? h
    simp only [Value.map.sizeOf_spec]
    omega
  · cases h

/-- The children of a node are smaller than the node, or there are none. -/
theorem sizeOf_childItems? {v : Value} {items : List Value} (h : childItems? v = some items) :
    items = [] ∨ sizeOf items < sizeOf v := by
  unfold childItems? at h
  split at h
  · cases h
    exact .inl rfl
  · rename_i children found
    have := sizeOf_value_get? found
    split at h
    · split at h
      · cases h
        simp only [Value.list.sizeOf_spec] at this
        exact .inr (by omega)
      · cases h
    · cases h
      exact .inl rfl

mutual

/-- The node that a value describes, or the first fault in document order. -/
def nodeAt (source : Option Bytes) (path : String) (v : Value) : Except Error Node := do
  let (type, span) ← header path v
  match _found : childItems? v with
  | none => .error (fault path .childrenNotList)
  | some [] => assemble source v type span []
  | some (item :: rest) =>
    let children ← nodesAt source path 0 (item :: rest)
    assemble source v type span children
termination_by sizeOf v
decreasing_by
  have := sizeOf_childItems? _found
  simp at this
  simpa using this

/-- The nodes that a row of values describes, the first of them being child number `i`. -/
def nodesAt (source : Option Bytes) (path : String) (i : Nat) (items : List Value) :
    Except Error (List Node) :=
  match items with
  | [] => .ok []
  | v :: rest => do
    let node ← nodeAt source (path ++ "/" ++ Value.intText i) v
    let nodes ← nodesAt source path (i + 1) rest
    .ok (node :: nodes)
termination_by sizeOf items

end

/-- The tree that a value describes, over its document if that is at hand. The document is encoded
before the value is looked at. -/
def node (source : Option Source) (v : Value) : Except Error Node := do
  nodeAt (← Source.bytes? source) "$" v

/-! ## Writing -/

/-- Entries that are there only sometimes. -/
def optionalEntry (present : Bool) (key : String) (v : Value) : List (Value × Value) :=
  if present then [(.text key, v)] else []

mutual

/-- The entries of a node, its own field apart. -/
def entries : Node → List (Value × Value)
  | ⟨type, span, named, _, _, children⟩ =>
    [(.text "type", .ofWording type), (.text "start", .int span.start), (.text "end", .int span.stop)] ++
      optionalEntry (!named) "named" (.bool false) ++
      optionalEntry (!children.isEmpty) "children" (.list (items children))

def items : List Node → List Value
  | [] => []
  | n :: rest =>
    .map (entries n ++ optionalEntry n.field.isSet "field" n.field) :: items rest

end

/-- A tree written down as a value. -/
def value (n : Node) : Value :=
  .map (entries n)

end Limn.Snapshot
