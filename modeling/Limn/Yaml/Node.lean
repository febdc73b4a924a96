import Limn.Yaml.Token

/-! # Nodes of YAML

A YAML text as a tree of scalars, sequences and mappings, each with its tag and a number of its own.
Tokens are read off the front of their row. Aliases are replaced by the nodes they stand for, so the
same number may stand in several places; a node must have been anchored before it is referred to,
and a name may be used for one node only. A node that is referred to from inside itself has no end,
and is not read.

A stream holds at most one document. A text without one has no node.
-/

namespace Limn.Yaml

/-! ## Nodes -/

/-- What decides the type of a scalar: its tag if it has one, or the way it is written. -/
inductive Tagging where
  /-- The type is read off the characters. -/
  | implied
  /-- The node has the type that its kind usually has. -/
  | usual
  /-- The type is given in full. -/
  | given (uri : String)
deriving DecidableEq, Repr, Inhabited

inductive Node where
  | scalar (serial : Nat) (tagging : Tagging) (text : Wording)
  | sequence (serial : Nat) (tagging : Tagging) (items : List Node)
  | mapping (serial : Nat) (tagging : Tagging) (entries : List (Node × Node))
deriving Repr, Inhabited

def Node.serial : Node → Nat
  | .scalar serial .. => serial
  | .sequence serial .. => serial
  | .mapping serial .. => serial

/-! ## Reading tokens -/

/-- The tokens to come, the number of nodes so far, the names given to nodes so far, and the
anchored nodes that are complete. -/
structure Reading where
  tokens : List Token
  count : Nat := 0
  names : List String := []
  anchors : List (String × Node) := []
deriving Inhabited

/-- A reader of tokens. -/
abbrev Reader := StateT Reading (Except Fault)

namespace Reader

/-- The next token. A broken row is a fault as soon as it is looked at. -/
def peek : Reader Token := do
  match (← get).tokens with
  | [] => throw .malformed
  | .broken fault :: _ => throw fault
  | t :: _ => return t

def drop : Reader Unit :=
  modify fun r => { r with tokens := r.tokens.drop 1 }

def dropIf (t : Token) : Reader Bool := do
  if (← peek) = t then
    drop
    return true
  else return false

def anchor? : Reader (Option String) := do
  match ← peek with
  | .anchor name =>
    drop
    return some name
  | _ => return none

def tag? : Reader (Option RawTag) := do
  match ← peek with
  | .tag t =>
    drop
    return some t
  | _ => return none

def properties : Reader (Option String × Option RawTag) := do
  match ← anchor? with
  | some name => return (some name, ← tag?)
  | none =>
    match ← tag? with
    | some t => return (← anchor?, some t)
    | none => return (none, none)

def fresh : Reader Nat := do
  let r ← get
  set { r with count := r.count + 1 }
  return r.count

/-- What stands where nothing is written. -/
def nothing : Reader Node := do
  return .scalar (← fresh) .implied ""

/-- Start a node: it gets its number, and its name is given away. -/
def start (anchor : Option String) : Reader Nat := do
  if let some name := anchor then
    if (← get).names.contains name then throw .malformed
    modify fun r => { r with names := name :: r.names }
  fresh

/-- Complete a node, which may be referred to from now on. -/
def complete (anchor : Option String) (n : Node) : Reader Node := do
  if let some name := anchor then
    modify fun r => { r with anchors := (name, n) :: r.anchors }
  return n

end Reader

/-- The tag handles of a document, with what they stand for. -/
abbrev Handles := List (String × String)

/-- The handles that every document has. -/
def usualHandles : Handles := [("!", "!"), ("!!", "tag:yaml.org,2002:")]

def fullTag (handles : Handles) : Option RawTag → Except Fault (Option String)
  | none => .ok none
  | some ⟨none, suffix⟩ => .ok (some suffix)
  | some ⟨some handle, suffix⟩ =>
    match handles.lookup handle with
    | none => .error .malformed
    | some meaning => .ok (some (meaning ++ suffix))

/-- The tagging of a node whose type is `otherwise` unless a tag says more. The tag `!` alone gives
scalars the type that their characters have. -/
def taggingOf (otherwise bare : Tagging) : Option String → Tagging
  | none => otherwise
  | some "!" => bare
  | some uri => .given uri

/-- Where a node stands decides which kinds of node it can be. -/
inductive Place where
  /-- Between brackets: no blocks. -/
  | flow
  /-- In a block. -/
  | block
  /-- The key or value of a block mapping: also a sequence at the mapping's own column. -/
  | entry
deriving DecidableEq, Repr

open Reader

/-! ## The grammar

Each function reads one construct. The bound is on the depth of calls; three for each
token suffice. -/

mutual

def node (handles : Handles) (place : Place) : Nat → Reader Node
  | 0 => throw .malformed
  | bound + 1 => do
    if let .alias name ← peek then
      drop
      let r ← get
      match r.anchors.lookup name with
      | some n => return n
      | none => throw (if r.names.contains name then .knotted else .malformed)
    else
      let (anchor, raw) ← properties
      let tag ← fullTag handles raw
      let collection := taggingOf .usual .usual tag
      let t ← peek
      let serial ← start anchor
      match t with
      | .scalar text plain =>
        drop
        let tagging := taggingOf (if plain then .implied else .usual) .implied tag
        complete anchor (.scalar serial tagging text)
      | .flowSequenceStart =>
        drop
        complete anchor (.sequence serial collection (← flowItems handles true bound))
      | .flowMappingStart =>
        drop
        complete anchor (.mapping serial collection (← flowEntries handles true bound))
      | t =>
        if t = .blockSequenceStart && place != .flow then do
          drop
          complete anchor (.sequence serial collection (← blockItems handles bound))
        else if t = .blockMappingStart && place != .flow then do
          drop
          complete anchor (.mapping serial collection (← blockEntries handles bound))
        else if t = .blockEntry && place = .entry then
          complete anchor (.sequence serial collection (← flushItems handles bound))
        else if anchor.isSome || tag.isSome then
          complete anchor (.scalar serial (taggingOf .implied .implied tag) "")
        else throw .malformed

def nodeUnless (handles : Handles) (place : Place) (ends : List Token) : Nat → Reader Node
  | 0 => throw .malformed
  | bound + 1 => do
    if ends.contains (← peek) then nothing else node handles place bound

def blockItems (handles : Handles) : Nat → Reader (List Node)
  | 0 => throw .malformed
  | bound + 1 => do
    if ← dropIf .blockEntry then
      let item ← nodeUnless handles .block [.blockEntry, .blockEnd] bound
      let items ← blockItems handles bound
      return item :: items
    else if ← dropIf .blockEnd then return []
    else throw .malformed

/-- The items of a sequence at the column of the mapping around it. -/
def flushItems (handles : Handles) : Nat → Reader (List Node)
  | 0 => throw .malformed
  | bound + 1 => do
    if ← dropIf .blockEntry then
      let item ← nodeUnless handles .block [.blockEntry, .key, .value, .blockEnd] bound
      let items ← flushItems handles bound
      return item :: items
    else return []

def blockEntries (handles : Handles) : Nat → Reader (List (Node × Node))
  | 0 => throw .malformed
  | bound + 1 => do
    let ends := [Token.key, .value, .blockEnd]
    if ← dropIf .key then
      let k ← nodeUnless handles .entry ends bound
      let v ← if ← dropIf .value then nodeUnless handles .entry ends bound else nothing
      let entries ← blockEntries handles bound
      return (k, v) :: entries
    else if ← dropIf .blockEnd then return []
    else throw .malformed

/-- The items of a bracketed sequence, to its end. A key among them makes a mapping of one entry. -/
def flowItems (handles : Handles) (first : Bool) : Nat → Reader (List Node)
  | 0 => throw .malformed
  | bound + 1 => do
    if ← dropIf .flowSequenceEnd then return []
    else
      if !first then
        unless ← dropIf .flowEntry do throw .malformed
      let ends := [Token.flowEntry, .flowSequenceEnd]
      if ← dropIf .key then
        let k ← nodeUnless handles .flow (.value :: ends) bound
        let v ← if ← dropIf .value then nodeUnless handles .flow ends bound else nothing
        let serial ← fresh
        let items ← flowItems handles false bound
        return .mapping serial .usual [(k, v)] :: items
      else if ← dropIf .flowSequenceEnd then return []
      else
        let item ← node handles .flow bound
        let items ← flowItems handles false bound
        return item :: items

def flowEntries (handles : Handles) (first : Bool) : Nat → Reader (List (Node × Node))
  | 0 => throw .malformed
  | bound + 1 => do
    if ← dropIf .flowMappingEnd then return []
    else
      if !first then
        unless ← dropIf .flowEntry do throw .malformed
      let ends := [Token.flowEntry, .flowMappingEnd]
      if ← dropIf .key then
        let k ← nodeUnless handles .flow (.value :: ends) bound
        let v ← if ← dropIf .value then nodeUnless handles .flow ends bound else nothing
        let entries ← flowEntries handles false bound
        return (k, v) :: entries
      else if ← dropIf .flowMappingEnd then return []
      else
        let k ← node handles .flow bound
        let v ← nothing
        let entries ← flowEntries handles false bound
        return (k, v) :: entries

end

/-! ## Documents -/

/-- The directives before a document: at most one version, which must be of the first major one,
and handles that are each given once. -/
def directives : Nat → Bool → Handles → Reader Handles
  | 0, _, _ => throw .malformed
  | bound + 1, versioned, handles => do
    match ← peek with
    | .directive d =>
      drop
      match d with
      | .version major =>
        if versioned || major != 1 then throw .malformed
        directives bound true handles
      | .handle name meaning =>
        if (handles.lookup name).isSome then throw .malformed
        directives bound versioned ((name, meaning) :: handles)
      | .reserved => directives bound versioned handles
    | _ => return handles ++ usualHandles

def dropEnds : Nat → Reader Unit
  | 0 => throw .malformed
  | bound + 1 => do
    if ← dropIf .documentEnd then dropEnds bound

/-- The only document of a stream, if there is one. -/
def document (bound : Nat) : Reader (Option Node) := do
  let root ← match ← peek with
    | .streamEnd => pure none
    | .directive _ | .documentStart => do
      let handles ← directives bound false []
      unless ← dropIf .documentStart do throw .malformed
      match ← peek with
      | .directive _ | .documentStart | .documentEnd | .streamEnd => some <$> nothing
      | _ => some <$> node handles .block bound
    | _ => some <$> node usualHandles .block bound
  dropEnds bound
  if (← peek) = .streamEnd then return root
  else
    -- The directives of a second document are read before it is refused.
    let _ ← directives bound false []
    throw .malformed

/-- The node of a text, if it has one, and the number of nodes in it. -/
structure Composition where
  root : Option Node
  count : Nat
deriving Repr, Inhabited

def compose (text : String) : Except Fault Composition := do
  let ts := tokens text
  let (root, reading) ← (document (3 * ts.length + 3)).run { tokens := ts }
  .ok ⟨root, reading.count⟩

end Limn.Yaml
