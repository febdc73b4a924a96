import Limn.Yaml.Node
import Limn.Yaml.Scalar

/-! # Reading YAML

The value of a YAML text. Mappings keep their keys in order of appearance, the last value of each;
collections cannot be keys. A merge key puts the entries of other mappings in front of the mapping's
own, so that its own win, and of several merged mappings the earlier.

Nodes are visited level by level from the outside in, each node once, so of several faults the one
nearest to the root counts, and among those the first in the text. `examine` does this and keeps the
values of scalars; `build` then puts the collections together.
-/

namespace Limn.Yaml

/-! ## Types of nodes -/

/-- The common start of the tags of the language. -/
def coreTag : String := "tag:yaml.org,2002:"

/-- What the tag of a node asks for. -/
inductive Kind where
  | scalar (type : ScalarType)
  | sequence
  | mapping
  /-- The keys of a mapping. -/
  | set
  /-- A row of mappings with one entry each. -/
  | pairs
  /-- Something that the language does not have. -/
  | unknown
deriving DecidableEq, Repr, Inhabited

/-- What tags ask for, by what follows their common start. -/
def coreKinds : List (String × Kind) := [
  ("null", .scalar .null), ("bool", .scalar .bool), ("int", .scalar .int),
  ("float", .scalar .float), ("timestamp", .scalar .timestamp), ("binary", .scalar .octets),
  ("str", .scalar .text), ("merge", .scalar .merge), ("value", .scalar .default),
  ("seq", .sequence), ("map", .mapping), ("set", .set), ("omap", .pairs), ("pairs", .pairs)]

def Kind.ofTag (uri : String) : Kind :=
  match coreKinds.find? fun (name, _) => uri == coreTag ++ name with
  | some (_, kind) => kind
  | none => .unknown

/-- Only what becomes a scalar can be a key. -/
def Kind.isKey : Kind → Bool
  | .scalar _ => true
  | _ => false

def Node.kind : Node → Kind
  | .scalar _ .implied text => .scalar (Scalar.impliedType text)
  | .scalar _ .usual _ => .scalar .text
  | .scalar _ (.given uri) _ => .ofTag uri
  | .sequence _ (.given uri) _ => .ofTag uri
  | .sequence .. => .sequence
  | .mapping _ (.given uri) _ => .ofTag uri
  | .mapping .. => .mapping

/-- The key that merges other mappings into one. -/
def Node.isMerge (n : Node) : Bool :=
  n.kind == .scalar .merge

/-- The key whose value stands for the whole mapping where a scalar is due. -/
def Node.isDefault (n : Node) : Bool :=
  n.kind == .scalar .default

/-! ## Merging -/

mutual

/-- The entries of a mapping with those of merged mappings in front. The bound is on the depth of
merging. -/
def merged : Nat → List (Node × Node) → Except Fault (List (Node × Node))
  | 0, _ => .error .malformed
  | bound + 1, entries => do
    let own := entries.filter fun (k, _) => !k.isMerge
    let others ← (entries.filter fun (k, _) => k.isMerge).mapM fun (_, v) => mergedFrom bound v
    .ok (others.flatten ++ own)

/-- The entries that a merge key brings in: those of a mapping, or of a row of mappings with the
later ones in front. -/
def mergedFrom : Nat → Node → Except Fault (List (Node × Node))
  | 0, _ => .error .malformed
  | bound + 1, n =>
    match n with
    | .mapping _ _ entries => merged bound entries
    | .sequence _ _ items => do
      let parts ← items.mapM fun
        | .mapping _ _ entries => merged bound entries
        | _ => .error .malformed
      .ok parts.reverse.flatten
    | .scalar .. => .error .malformed

end

/-! ## Visiting -/

inductive Slot where
  | untouched
  /-- A collection that has been met. -/
  | met
  /-- The value of a scalar. Numbers that are not one are told apart by their marks. -/
  | scalar (v : Value) (mark : Option Nat)
deriving Inhabited

/-- What is known while nodes are visited: a slot for each node, the default keys that have turned
out to be keys of mappings and so stand for themselves, and the collections still to be looked into,
last first. -/
structure Visiting where
  slots : Array Slot
  settled : List Nat := []
  pending : List Node := []
deriving Inhabited

namespace Visiting

def slot (s : Visiting) (n : Node) : Slot :=
  s.slots.getD n.serial .untouched

def note (s : Visiting) (n : Node) (slot : Slot) : Visiting :=
  { s with slots := s.slots.setIfInBounds n.serial slot }

/-- A default key that does not stand for itself. -/
def isOpenDefault (s : Visiting) (n : Node) : Bool :=
  n.isDefault && !s.settled.contains n.serial

def kind (s : Visiting) (n : Node) : Kind :=
  if n.isDefault && s.settled.contains n.serial then .scalar .text else n.kind

/-- The scalar that stands for a node: a mapping may hold one under the default key. -/
def scalarText (s : Visiting) : Nat → Node → Except Fault Wording
  | 0, _ => .error .malformed
  | bound + 1, n =>
    match n with
    | .scalar _ _ text => .ok text
    | .mapping _ _ entries =>
      match entries.find? fun (k, _) => s.isOpenDefault k with
      | some (_, v) => scalarText s bound v
      | none => .error .malformed
    | .sequence .. => .error .malformed

/-- The mark of a number that is not one: the word for it has the same mark everywhere. -/
def markOf (n : Node) (text : Wording) (v : Value) : Option Nat :=
  match v.number? with
  | some .nan => some (if text.text?.any Scalar.isNanWord then 0 else n.serial + 1)
  | _ => none

/-- The value of a scalar. A point in time must be written as a scalar itself. -/
def scalar (s : Visiting) (bound : Nat) (type : ScalarType) (n : Node) : Except Fault Slot := do
  let text ← s.scalarText bound n
  match type, n with
  | .timestamp, .mapping .. => .error .structured
  | _, _ => do
    let v ← Scalar.value type text
    .ok (.scalar v (markOf n text v))

/-- Meet a node, unless it has been met before. -/
def meet (s : Visiting) (bound : Nat) (n : Node) : Except Fault Visiting :=
  match s.slot n with
  | .untouched =>
    match s.kind n with
    | .scalar type => do
      let slot ← s.scalar bound type n
      .ok (s.note n slot)
    | .unknown => .error .malformed
    | _ => .ok { s.note n .met with pending := n :: s.pending }
  | _ => .ok s

def meetEntry (bound : Nat) (s : Visiting) (entry : Node × Node) : Except Fault Visiting := do
  let s ← s.meet bound entry.1
  if (s.kind entry.1).isKey then s.meet bound entry.2 else .error .malformed

def meetPair (bound : Nat) (s : Visiting) (n : Node) : Except Fault Visiting :=
  match n with
  | .mapping _ _ [(k, v)] => do
    let s ← s.meet bound k
    s.meet bound v
  | _ => .error .malformed

def enter (bound : Nat) (s : Visiting) (n : Node) : Except Fault Visiting :=
  match s.kind n, n with
  | .sequence, .sequence _ _ items => items.foldlM (fun s item => s.meet bound item) s
  | .pairs, .sequence _ _ items => items.foldlM (meetPair bound) s
  | .mapping, .mapping _ _ entries => fill entries
  | .set, .mapping _ _ entries => fill entries
  | _, _ => .error .malformed
where
  /-- Look into the entries of a mapping, whose default keys stand for themselves. -/
  fill (entries : List (Node × Node)) : Except Fault Visiting := do
    let entries ← merged bound entries
    let defaults := (entries.filter fun (k, _) => k.isDefault).map fun (k, _) => k.serial
    entries.foldlM (meetEntry bound) { s with settled := defaults ++ s.settled }

/-- Look into the collections of one level after the other. -/
def levels (size : Nat) : Nat → Visiting → Except Fault Visiting
  | 0, _ => .error .malformed
  | bound + 1, s =>
    match s.pending with
    | [] => .ok s
    | pending => do
      let s ← pending.reverse.foldlM (enter size) { s with pending := [] }
      levels size bound s

end Visiting

/-- Visit all nodes below a root. -/
def examine (root : Node) (count : Nat) : Except Fault Visiting := do
  let size := count + 2
  let s ← Visiting.meet { slots := Array.replicate count .untouched } size root
  s.levels size size

/-! ## Values -/

/-- An entry of a mapping with the mark of its key. -/
structure MarkedEntry where
  key : Value
  mark : Option Nat
  value : Value

def MarkedEntry.sameKey (a b : MarkedEntry) : Bool :=
  a.key.sameKey b.key || (a.mark.isSome && a.mark == b.mark)

/-- Put an entry into a row: in place if its key is present, else at the end. -/
def MarkedEntry.put (e : MarkedEntry) : List MarkedEntry → List MarkedEntry
  | [] => [e]
  | f :: rest => if f.sameKey e then { f with value := e.value } :: rest else f :: put e rest

/-- The entries of a mapping in the order of the keys' first appearance. -/
def MarkedEntry.collect (entries : List MarkedEntry) : List MarkedEntry :=
  entries.foldl (fun row e => e.put row) []

/-- The value of a node that has been visited. The bound is on the depth of nodes. -/
def build (s : Visiting) : Nat → Node → Value
  | 0, _ => .null
  | bound + 1, n =>
    match s.slot n, s.kind n, n with
    | .scalar v _, _, _ => v
    | _, .pairs, .sequence _ _ items =>
      .list (items.filterMap fun
        | .mapping _ _ [(k, v)] => some (.pair (build s bound k) (build s bound v))
        | _ => none)
    | _, _, .sequence _ _ items => .list (items.map (build s bound))
    | _, kind, .mapping _ _ entries =>
      let marked (entry : Node × Node) : MarkedEntry :=
        let mark := match s.slot entry.1 with
          | .scalar _ mark => mark
          | _ => none
        ⟨build s bound entry.1, mark, build s bound entry.2⟩
      let all := (merged (s.slots.size + 2) entries).toOption.getD []
      let row := MarkedEntry.collect (all.map marked)
      if kind == .set then .set (row.map (·.key)) else .map (row.map fun e => (e.key, e.value))
    | _, _, .scalar .. => .null

def read (text : String) : Except Fault Value := do
  let c ← compose text
  match c.root with
  | none => .ok .null
  | some root => do
    let s ← examine root c.count
    .ok (build s (c.count + 2) root)

/-- The value of a wording, which must not hold halves of surrogate pairs. -/
def load : Wording → Except Fault Value
  | .text s => read s
  | .halved _ => .error .malformed

end Limn.Yaml
