import Limn.Canvas
import Limn.Feature

/-! # Highlighting

A highlighting of a document is a row of runs: spans of octets with a category and the feature that
painted them. It is found in three steps.

1. Every rule of the enabled features is tried on every node of its tree.
2. A node that several rules match keeps one of them, the one of highest priority: features that
   override come first, then the rule declared last, then the node visited last.
3. What is kept claims its span from the highest priority to the lowest, and each keeps only what
   is still free.

Runs without octets are kept unless they lie strictly inside what has been painted before them.
-/

namespace Limn

structure Run where
  span : Span
  category : String
  feature : String
deriving DecidableEq, Repr, Inhabited

/-! ## Matching -/

/-- Precedence among matches: overriding features, then the position of the rule counted over all
rules, then the position of the node in the walk of its tree. -/
structure Priority where
  override : Bool
  rank : Nat
  visit : Nat
deriving DecidableEq, Repr, Inhabited

namespace Priority

/-- Strictly higher precedence, compared part by part. -/
def above (a b : Priority) : Bool :=
  if a.override != b.override then a.override
  else if a.rank != b.rank then b.rank < a.rank
  else b.visit < a.visit

def atLeast (a b : Priority) : Bool :=
  !b.above a

end Priority

/-- A node that a rule matches, as far as painting is concerned. -/
structure Match where
  type : Wording
  span : Span
  category : String
  feature : String
  priority : Priority
deriving DecidableEq, Repr, Inhabited

/-- Two matches in one tree that are taken to be on the same node. -/
def Match.sameNode (a b : Match) : Bool :=
  a.span == b.span && a.type == b.type

/-- A rule with its feature, its position, and the types of the nodes it can match. -/
structure IndexedRule where
  rank : Nat
  feature : Feature
  rule : Rule
  types : List Wording
deriving Inhabited

/-- The rules of all features with their features, in order of declaration. -/
def declaredRules (features : List Feature) : List (Feature × Rule) :=
  features.flatMap fun f => f.rules.map fun r => (f, r)

/-- The rules for one tree among rules numbered from a given position. -/
def indexRules (layer : Layer) : Nat → List (Feature × Rule) → Except Error (List IndexedRule)
  | _, [] => .ok []
  | rank, (feature, rule) :: rest =>
    if rule.layer = layer then do
      let types ← rule.pattern.captures
      let others ← indexRules layer (rank + 1) rest
      .ok (⟨rank, feature, rule, types⟩ :: others)
    else indexRules layer (rank + 1) rest

/-- The rules for one tree. Positions start at one and count the rules of the other tree too. -/
def ruleIndex (layer : Layer) (features : List Feature) : Except Error (List IndexedRule) :=
  indexRules layer 1 (declaredRules features)

/-- The rules worth trying on a node of a given type. -/
def candidates (index : List IndexedRule) (type : Wording) : List IndexedRule :=
  index.filter fun r => r.types.contains type

/-- Keep a match unless one of at least its priority is held for its node already. Matches keep
the place of the first one on their node. -/
def keep (found : Match) : List Match → List Match
  | [] => [found]
  | held :: rest =>
    if held.sameNode found then
      (if found.priority.above held.priority then found else held) :: rest
    else held :: keep found rest

/-- Try the rules on one visited node, and keep what matches. -/
def matchVisit (index : List IndexedRule) (held : List Match) (visit : Nat) (v : Node.Visit) :
    Except Error (List Match) :=
  (candidates index v.node.type).foldlM (fun held r => do
    if ← r.rule.pattern.accepts v.node v.parent then
      .ok (keep ⟨v.node.type, v.node.span, r.rule.category, r.feature.name,
        ⟨r.feature.override, r.rank, visit⟩⟩ held)
    else .ok held) held

def matchTree (root : Node) (layer : Layer) (features : List Feature) :
    Except Error (List Match) := do
  let index ← ruleIndex layer features
  root.walk.zipIdx.foldlM (fun held (v, visit) => matchVisit index held visit v) []

/-! ## Painting -/

/-- Paint one match: what it paints, and the canvas afterwards. -/
def paintMatch (canvas : Canvas) (m : Match) : List Run × Canvas :=
  if m.span.isEmpty then
    (if canvas.inside m.span.start then [] else [⟨m.span, m.category, m.feature⟩], canvas)
  else
    let (free, canvas) := canvas.claim m.span
    (free.map fun s => ⟨s, m.category, m.feature⟩, canvas)

def paintAll (canvas : Canvas) : List Match → List Run
  | [] => []
  | m :: rest =>
    let (runs, canvas) := paintMatch canvas m
    runs ++ paintAll canvas rest

/-- Runs are ordered by start, then by end. -/
def Run.before (a b : Run) : Bool :=
  a.span.start < b.span.start || (a.span.start == b.span.start && a.span.stop ≤ b.span.stop)

/-- Paint matches from the highest priority to the lowest and put the runs in order of position;
runs on equal spans stay in the order of painting. -/
def paint (matched : List Match) : List Run :=
  (paintAll .blank (matched.mergeSort fun a b => a.priority.atLeast b.priority)).mergeSort Run.before

/-! ## Evaluation -/

/-- The outcome of highlighting: the features that were on, the number of nodes matched and the
runs. -/
structure Evaluation where
  active : List String
  matched : Nat
  runs : List Run
deriving DecidableEq, Repr, Inhabited

def evaluateFeatures (block inline : Node) (active : List Feature) : Except Error Evaluation := do
  let blockMatches ← matchTree block .block active
  let inlineMatches ← matchTree inline .inline active
  let matched := blockMatches ++ inlineMatches
  .ok ⟨Feature.names active, matched.length, paint matched⟩

/-- A table of features, with those that are on unless a call chooses otherwise. -/
structure Highlighter where
  features : List Feature
  enabled : List String
deriving Inhabited

namespace Highlighter

/-- A highlighter for a table; `none` switches on all of its features. -/
def create (features : List Feature) (enabled : Option (List String)) :
    Except Error Highlighter := do
  let active ← Feature.select features enabled
  .ok ⟨features, Feature.names active⟩

/-- Highlight two trees, with features of the call's own choice if it makes one. -/
def evaluate (h : Highlighter) (block inline : Option Node) (enabled : Option (List String)) :
    Except Error Evaluation :=
  match block, inline with
  | some block, some inline => do
    let active ← Feature.select h.features (some (enabled.getD h.enabled))
    evaluateFeatures block inline active
  | _, _ => .error .treesMissing

/-- The first so many runs. Asking for none looks at nothing, so it cannot fail. -/
def firstRuns (h : Highlighter) (count : Nat) (block inline : Option Node)
    (enabled : Option (List String)) : Except Error (List Run) :=
  if count = 0 then .ok []
  else (h.evaluate block inline enabled).map fun e => e.runs.take count

def markdown : Highlighter :=
  ⟨Feature.markdown, Feature.names Feature.markdown⟩

end Highlighter

/-- The category painted over the octet at an offset: that of the first run that covers it. -/
def categoryAt (runs : List Run) (offset : Int) : Option String :=
  (runs.find? fun r => r.span.covers offset).map (·.category)

end Limn
