import Limn.Document
import Limn.Snapshot
import Limn.Yaml.Reader
import Limn.Yaml.Writer

/-! # Snapshots as text

Trees are kept in YAML files. A file holds one tree, or a whole document: its source under the key
`source` and its trees under `block` and `inline`.
-/

namespace Limn

namespace Error

/-- The error of a text that cannot be read. -/
def ofYaml : Yaml.Fault → Error
  | .malformed => .snapshot .unreadable
  | .badScalar => .badScalar
  | .tooLarge => .oversizedScalar
  | .unknownWord => .unknownWord
  | .emptyScalar => .emptyScalar
  | .notTimestamp => .notTimestamp
  | .structured => .structuredScalar
  | .knotted => .endlessValue

end Error

namespace Snapshot

/-! ## Reading -/

/-- The value of a text, as a reader of YAML gives it. -/
def parse (load : Wording → Except Yaml.Fault Value) (text : Wording) : Except Error Value :=
  (load text).mapError Error.ofYaml

/-- The tree in a text that a reader of YAML reads, over its document if that is at hand. -/
def readTreeWith (load : Wording → Except Yaml.Fault Value) (text : Wording)
    (source : Option Source) : Except Error Node := do
  node source (← parse load text)

def readTree (text : Wording) (source : Option Source) : Except Error Node :=
  readTreeWith Yaml.load text source

structure Loaded where
  block : Node
  inline : Node
  source : String
deriving Inhabited

def treeUnder (name : String) (v : Value) : Except Error Value :=
  match v.get? name with
  | some tree => .ok tree
  | none => .error (.snapshot (.missingTree name))

/-- The document that a value describes. A source that is not a text is taken by its wording;
without one, nodes have no text but their own. -/
def documentOf (v : Value) : Except Error Loaded :=
  match v with
  | .map _ => do
    let source ← match v.get? "source" with
      | none | some .null => .ok none
      | some s => s.worded.map some
    let block ← treeUnder "block" v
    let inline ← treeUnder "inline" v
    let bytes ← Source.bytes? (source.map .text)
    let block ← nodeAt bytes "$.block" block
    let inline ← nodeAt bytes "$.inline" inline
    .ok ⟨block, inline, (source.bind Wording.text?).getD ""⟩
  | _ => .error (.snapshot .notDocument)

def readDocumentWith (load : Wording → Except Yaml.Fault Value) (text : Wording) :
    Except Error Loaded := do
  documentOf (← parse load text)

def readDocument (text : Wording) : Except Error Loaded :=
  readDocumentWith Yaml.load text

/-! ## Writing -/

def present (n : Option Node) : Except Error Node :=
  match n with
  | some n => .ok n
  | none => .error .noTree

/-- A value as a text, provided that its integers can be written. -/
def format (v : Value) : Except Error String :=
  if v.isWritable then .ok (Yaml.write v) else .error .unwritableNumber

def writeTree (n : Node) : Except Error String :=
  format (value n)

/-- The source of a document as a value. Octets have to be UTF-8. -/
def sourceValue : Option Source → Except Error Value
  | none => .ok .null
  | some (.text wording) => .ok (.ofWording wording)
  | some (.octets bytes) =>
    match bytes.toText? with
    | none => .error .notUtf8
    | some s => .ok (.text s)

def writeDocument (source : Option Source) (block inline : Option Node) : Except Error String := do
  let source ← sourceValue source
  let block ← present block
  let inline ← present inline
  format (.map [
    (.text "source", source),
    (.text "block", value block),
    (.text "inline", value inline)])

/-- What to write of a document. -/
inductive Part where
  | blockTree
  | inlineTree
  | whole
deriving DecidableEq, Repr

def writePart (d : Document) : Part → Except Error String
  | .blockTree => (present d.block).bind writeTree
  | .inlineTree => (present d.inline).bind writeTree
  | .whole => writeDocument (some (.octets d.source)) d.block d.inline

end Snapshot

end Limn
