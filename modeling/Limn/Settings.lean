import Limn.Feature
import Limn.Files
import Limn.Outline
import Limn.Toml.Reader

/-! # Settings

Settings are read from a TOML file: the features that are on, the label of outlines and the types
of heading markers, and the names of the two grammars. Every setting has a default, and so has every
section; a missing file is an empty one.

A section that is not a table is not a fault of its settings but breaks the reading itself. The
section of features is searched for a key in whatever it is, so a text or a list without the key
counts as an empty section there.
-/

namespace Limn

structure Settings where
  features : List String := Feature.names Feature.markdown
  group : String := Outline.defaultGroup
  headingTypes : List String := Outline.defaultTypes
  /-- Grammars are looked up by name; the lookup refuses what is not a name. -/
  blockLanguage : Value := .text "markdown"
  inlineLanguage : Value := .text "markdown_inline"
  /-- The file that the settings were read from. -/
  found : Option Path := none
deriving Inhabited

namespace Settings

/-! ## Sections -/

/-- The text goes on, somewhere, with a part. -/
def holds (part : List Char) : List Char → Bool
  | [] => part.isEmpty
  | c :: rest => part.isPrefixOf (c :: rest) || holds part rest

def texts? : List Value → Option (List String)
  | [] => some []
  | .text s :: rest => (texts? rest).map (s :: ·)
  | _ :: _ => none

/-- A setting that has to be a list of texts. -/
def textList (key : String) (v : Value) : Except Error (List String) :=
  match v with
  | .list items =>
    match texts? items with
    | some ss => .ok ss
    | none => .error ((Error.setting key v).about [v])
  | _ => .error ((Error.setting key v).about [v])

/-- Look a key up in a section that may be of any shape. -/
def search (key : String) (v : Value) : Except Error (Option Value) :=
  match v with
  | .map _ => .ok (v.get? key)
  | .text s => if holds key.toList s.toList then .error .sectionNotSearchable else .ok none
  | .list items =>
    if items.any (·.sameKey (.text key)) then .error .sectionNotSearchable else .ok none
  | _ => .error .sectionNotSearchable

/-- A section that has to be a table. -/
def tableAt (root : Value) (name : String) : Except Error Value :=
  match root.get? name with
  | none => .ok (.map [])
  | some (.map entries) => .ok (.map entries)
  | some _ => .error .sectionNotTable

/-! ## Reading -/

def ofValue (root : Value) : Except Error Settings := do
  let defaults : Settings := {}
  let features ← match ← search "features" ((root.get? "highlight").getD (.map [])) with
    | none => .ok defaults.features
    | some v => textList "highlight.features" v
  let outline ← tableAt root "outline"
  let group ← match outline.get? "group" with
    | none => .ok defaults.group
    | some v => v.written
  let headingTypes ← match outline.get? "heading_types" with
    | none => .ok defaults.headingTypes
    | some v => textList "outline.heading_types" v
  let parser ← tableAt root "parser"
  .ok {
    features, group, headingTypes
    blockLanguage := (parser.get? "block_language").getD defaults.blockLanguage
    inlineLanguage := (parser.get? "inline_language").getD defaults.inlineLanguage }

def errorOf : Toml.Fault → Error
  | .malformed => .malformedSettings
  | .tooManyDigits => .badScalar

def ofBytes (content : Bytes) : Except Error Settings :=
  match content.toText? with
  | none => .error .notUtf8
  | some s => do ofValue (← (Toml.read s).mapError errorOf)

/-- The name of the settings file of the current folder. -/
def fileName : String := "marksight.toml"

/-- The first path of a list at which something stands. -/
def firstPresent (files : Files) : List Path → Except Error (Option Path)
  | [] => .ok none
  | p :: rest => do if ← files.has p then .ok (some p) else firstPresent files rest

/-- The settings in force: those of the given file if it is there, else those of the current
folder's settings file if it is there, else the defaults. -/
def load (files : Files) (path : Option Path) : Except Error Settings := do
  match ← firstPresent files (path.toList ++ [Path.ofText fileName]) with
  | none => .ok {}
  | some p => do
    let settings ← ofBytes (← files.read p)
    .ok { settings with found := some p }

end Settings

end Limn
