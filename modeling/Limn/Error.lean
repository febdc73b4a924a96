import Limn.Value.Text

/-! # Errors

Why an operation failed. A node that no rule matches, or a heading without a title, is not an
error; only broken preconditions and bad input are. Every error has a message.
-/

namespace Limn

/-! ## Faults of snapshots -/

inductive NodeFault where
  | notMapping (kind : String)
  | missingKey (key : String)
  | notIntegers
  | crossed (start stop : Int)
  | childrenNotList
deriving DecidableEq, Repr

def NodeFault.message : NodeFault → String
  | .notMapping kind => "expected a mapping, got " ++ kind
  | .missingKey key => "missing key " ++ Text.quoted key
  | .notIntegers => "start/end must be integers"
  | .crossed start stop =>
    "end " ++ Value.intText stop ++ " before start " ++ Value.intText start
  | .childrenNotList => "children must be a list"

/-- What is wrong with a snapshot. A `node` fault carries the path to the value at fault. -/
inductive SnapshotFault where
  | node (path : String) (fault : NodeFault)
  | notDocument
  | missingTree (name : String)
  | unreadable
deriving DecidableEq, Repr

def SnapshotFault.message : SnapshotFault → String
  | .node path fault => path ++ ": " ++ fault.message
  | .notDocument => "Snapshot must be a mapping with block and inline trees"
  | .missingTree name => "Snapshot is missing the " ++ Text.quoted name ++ " tree"
  | .unreadable => "Invalid YAML tree"

/-! ## Faults of files -/

inductive FileFault where
  | notFound
  | notDirectory
  | isDirectory
  | nameTooLong
deriving DecidableEq, Repr

/-- The system's number and wording of a fault of a file. -/
def FileFault.message : FileFault → String
  | .notFound => "[Errno 2] No such file or directory"
  | .notDirectory => "[Errno 20] Not a directory"
  | .isDirectory => "[Errno 21] Is a directory"
  | .nameTooLong => "[Errno 36] File name too long"

/-! ## Errors -/

inductive Error where
  /-- Highlighting needs both trees. -/
  | treesMissing
  /-- An outline needs the block tree. -/
  | blockTreeMissing
  /-- Some grammars could not be loaded: their names, each with the reason. -/
  | grammarsMissing (reasons : List (Value × String))
  /-- Feature names that the table does not declare, and those that it does. -/
  | unknownFeatures (unknown known : List String)
  /-- A malformed tree snapshot. -/
  | snapshot (fault : SnapshotFault)
  /-- A setting that is not a list of texts. -/
  | setting (key : String) (found : Value)
  /-- Something that is no pattern where a pattern is due. -/
  | unknownPattern (variant : String)
  /-- A section of the settings that cannot be searched for a key. -/
  | sectionNotSearchable
  /-- A section of the settings that is not a table. -/
  | sectionNotTable
  /-- A list or mapping used as the name of a grammar. -/
  | unusableName
  /-- An infinite number where an offset is due. -/
  | infiniteOffset
  /-- A scalar that its own type refuses, such as a day the calendar does not have. -/
  | badScalar
  /-- A scalar whose type has no such word. -/
  | unknownWord
  /-- An empty scalar where the type needs a first character. -/
  | emptyScalar
  /-- A scalar that is no point in time. -/
  | notTimestamp
  /-- A collection where a point in time is due. -/
  | structuredScalar
  /-- A scalar too large for its type. -/
  | oversizedScalar
  /-- A value that holds itself. -/
  | endlessValue
  /-- A number that cannot be written: too long an integer, or none that is finite where only those
  can be. -/
  | unwritableNumber
  /-- Octets that are not UTF-8. -/
  | notUtf8
  /-- A text that its encoding cannot hold. -/
  | unencodableText
  /-- A settings file that is not well-formed. -/
  | malformedSettings
  /-- A tree to write that is not there. -/
  | noTree
  /-- A file that could not be read. -/
  | file (fault : FileFault) (path : String)
  /-- A path that no file can have. -/
  | badPath
  /-- A grammar that broke down. -/
  | grammarCrash (reason : String)
deriving Repr

namespace Error

def message : Error → String
  | treesMissing => "Both the block tree and the inline tree are required"
  | blockTreeMissing => "The block tree is required to build an outline"
  | grammarsMissing reasons =>
    "Markdown grammars not ready: " ++
      ", ".intercalate (reasons.map fun (name, reason) => name.toText ++ " (" ++ reason ++ ")")
  | unknownFeatures unknown known =>
    "Unknown feature(s): " ++ ", ".intercalate unknown ++
      " (known: " ++ ", ".intercalate known ++ ")"
  | snapshot fault => fault.message
  | setting key found => key ++ " must be a list of strings, got " ++ found.quoted
  | unknownPattern variant => "Unknown pattern variant: " ++ variant
  | sectionNotSearchable => "section cannot be searched"
  | sectionNotTable => "section is not a table"
  | unusableName => "grammar name is a list or a mapping"
  | infiniteOffset => "cannot convert an infinite number to an integer"
  | badScalar => "invalid scalar"
  | unknownWord => "unknown word"
  | emptyScalar => "empty scalar"
  | notTimestamp => "no point in time"
  | structuredScalar => "point in time in parts"
  | oversizedScalar => "scalar too large"
  | endlessValue => "value without end"
  | unwritableNumber => "number cannot be written"
  | notUtf8 => "not UTF-8"
  | unencodableText => "text cannot be encoded"
  | malformedSettings => "malformed settings file"
  | noTree => "no tree to write"
  | file fault path => fault.message ++ ": " ++ Text.quoted path
  | badPath => "embedded null byte"
  | grammarCrash reason => reason

end Error

/-! ## Texts that may not be there -/

/-- The text of a value, provided that its integers can be written. -/
def Value.written (v : Value) : Except Error String :=
  if v.isWritable then .ok v.toText else .error .unwritableNumber

/-- The wording of a value, provided that its integers can be written. -/
def Value.worded (v : Value) : Except Error Wording :=
  if v.isWritable then .ok v.wording else .error .unwritableNumber

/-- An error, provided that its message can be written for these values. -/
def Error.about (e : Error) (mentioned : List Value) : Error :=
  if mentioned.all (·.isWritable) then e else .unwritableNumber

end Limn
