import Limn.Command.Line
import Limn.Json.Writer
import Limn.Service
import Limn.Snapshot.Text

/-! # Running commands

A command sees its surroundings as plain data (files, standard input, grammars, whether a server can
be started) and gives an outcome: what it prints, what it reports, and how it ends. Errors that a
user can cause are reported; others end the program.
-/

namespace Limn.Command

/-! ## Surroundings and outcomes -/

/-- What a command can see. -/
structure Surroundings where
  files : Files
  input : Bytes := []
  grammars : Grammars := Grammars.none
  /-- Why no server can be started, if so. -/
  serverFault : Option String := none
  /-- A token that nobody else knows, made of so many random octets. -/
  freshToken : Nat → String

inductive Ending where
  | exit (code : Nat)
  | failed (e : Error)
deriving Repr

/-- A service that was started, and where. -/
structure Started where
  service : Service
  host : String
  port : Int

structure Outcome where
  output : String := ""
  report : String := ""
  ending : Ending := .exit 0
  started : Option Started := none

/-! ## What is printed -/

/-- The longest part of a document that stands in a line about a run. -/
def snippetWidth : Nat := 40

def escapeLineFeeds : List Char → List Char
  | [] => []
  | '\n' :: rest => '\\' :: 'n' :: escapeLineFeeds rest
  | c :: rest => c :: escapeLineFeeds rest

/-- The text under a run on one line, cut to the width. -/
def snippet (source : Bytes) (span : Span) : String :=
  let text := escapeLineFeeds (Bytes.toTextLossy (source.window span.start span.stop)).toList
  String.ofList <|
    if text.length ≤ snippetWidth then text
    else text.take (snippetWidth - 3) ++ ['.', '.', '.']

/-- What a command prints, and why it stopped if it could not print all of it. -/
structure Printout where
  text : String
  fault : Option Error := none

namespace Printout

/-- Print texts one by one, up to the first that cannot be written. -/
def ofParts : List (Except Error String) → Printout
  | [] => ⟨"", none⟩
  | .error e :: _ => ⟨"", some e⟩
  | .ok text :: rest =>
    let more := ofParts rest
    { more with text := text ++ more.text }

/-- Print a value as JSON, which is written as a whole. -/
def ofValue (v : Value) : Printout :=
  if v.isWritable then ⟨Json.indented v ++ "\n", none⟩ else ⟨"", some .unwritableNumber⟩

end Printout

def spanText (span : Span) : Except Error String := do
  let start ← (Value.int span.start).written
  let stop ← (Value.int span.stop).written
  return start ++ "-" ++ stop

def runLine (source : Bytes) (r : Run) : Except Error String := do
  return (← spanText r.span) ++ "\t" ++ r.category ++ "\t" ++ r.feature ++ "\t" ++
    snippet source r.span ++ "\n"

def runLines (source : Bytes) (runs : List Run) : Printout :=
  .ofParts (runs.map (runLine source))

def runValue (r : Run) : Value :=
  .map [(.text "start", .int r.span.start), (.text "end", .int r.span.stop),
    (.text "category", .text r.category), (.text "feature", .text r.feature)]

def runJson (runs : List Run) : Printout :=
  .ofValue (.list (runs.map runValue))

/-- The line about a heading, indented by its depth. A title that is no text cannot be printed. -/
def entryLine (e : OutlineEntry) : Except Error String := do
  let span ← spanText e.span
  match e.name with
  | .text name => .ok (String.join (List.replicate e.depth "  ") ++ name ++ "\t" ++ span ++ "\n")
  | .halved _ => .error .unencodableText

/-- The lines about an outline: its label, then its headings. -/
def outlineLines (o : Outline) : Printout :=
  .ofParts (.ok (o.group ++ "\n") :: o.entries.map entryLine)

def entryValue (e : OutlineEntry) : Value :=
  .map [(.text "name", .ofWording e.name), (.text "start", .int e.span.start),
    (.text "end", .int e.span.stop), (.text "depth", .int e.depth)]

def outlineJson (o : Outline) : Printout :=
  .ofValue (.map [(.text "group", .text o.group),
    (.text "entries", .list (o.entries.map entryValue))])

def featureLine (enabled : List String) (f : Feature) : String :=
  let flags := (if enabled.contains f.name then ["enabled"] else []) ++
    (if f.override then ["override"] else [])
  f.name ++ "\t" ++ Value.intText f.rules.length ++ " rule(s)\t" ++ ",".intercalate flags ++ "\n"

/-! ## Commands -/

/-- The octets of a file, or of the standard input for `-`. -/
def readSource (s : Surroundings) (file : String) : Except Error Bytes :=
  if file == "-" then .ok s.input else s.files.read (Path.ofText file)

def readSnapshot (s : Surroundings) (file : String) : Except Error Document := do
  match (← readSource s file).toText? with
  | none => .error .notUtf8
  | some text => do
    let loaded ← Snapshot.readDocument text
    .ok { block := some loaded.block, inline := some loaded.inline
          source := Bytes.ofText loaded.source }

/-- Parse a file. The session is started before the file is read. -/
def parseFile (s : Surroundings) (settings : Settings) (file : String) : Logged Document := do
  let session ← Session.start settings s.grammars
  let source ← .of (readSource s file)
  (session.parse source).outcome

def loadDocument (s : Surroundings) (settings : Settings) (file : String) (snapshot : Bool) :
    Logged Document :=
  if snapshot then .of (readSnapshot s file) else parseFile s settings file

/-- What `highlight` prints. Features of the command's own take the place of those of the
settings. -/
def highlight (s : Surroundings) (settings : Settings) (file : String) (features : List Wording)
    (snapshot json : Bool) : Logged Printout := do
  let d ← loadDocument s settings file snapshot
  let own ← .of (Feature.textNames Feature.markdown features)
  let chosen := if own.isEmpty then settings.features else own
  let h ← .of (Highlighter.create Feature.markdown (some chosen))
  let runs ← Session.highlightDocument h d none
  return if json then runJson runs else runLines d.source runs

def outline (s : Surroundings) (settings : Settings) (file : String) (snapshot json : Bool) :
    Logged Printout := do
  let d ← loadDocument s settings file snapshot
  let o ← Session.outlineDocument settings d
  return if json then outlineJson o else outlineLines o

def features (settings : Settings) : String :=
  String.join (Feature.markdown.map (featureLine settings.features))

def dump (s : Surroundings) (settings : Settings) (file : String) (inline both : Bool) :
    Logged Printout := do
  let d ← parseFile s settings file
  let part := if both then Snapshot.Part.whole else if inline then .inlineTree else .blockTree
  let text ← .of (Snapshot.writePart d part)
  return ⟨text, none⟩

/-- The token of a service: a fresh one for `auto`, none for `none`, else as given. -/
def serviceToken (s : Surroundings) : String → String × Option String
  | "auto" =>
    let token := s.freshToken 32
    ("Generated bearer token: " ++ token ++ "\n", some token)
  | "none" =>
    ("Warning: Running without authentication. Only use in trusted environments.\n", none)
  | token => ("", some token)

/-! ## Outcomes -/

/-- Errors that are reported rather than ending the program. -/
def isReported : Error → Bool
  | .treesMissing | .blockTreeMissing | .unknownFeatures .. | .snapshot _ | .setting ..
  | .grammarsMissing _ | .file .. => true
  | _ => false

def reportOf (e : Error) : String :=
  match e with
  | .grammarsMissing _ => "Error: feature unavailable: " ++ e.message ++ "\n"
  | _ => "Error: " ++ e.message ++ "\n"

def noticeLines (verbose : Bool) (notices : List Notice) : String :=
  String.join ((notices.filter (·.isShown verbose)).map Notice.line)

def failure (verbose : Bool) (notices : List Notice) (e : Error) : Outcome :=
  let shown := noticeLines verbose notices
  if isReported e then { report := shown ++ reportOf e, ending := .exit 1 }
  else { report := shown, ending := .failed e }

def printed (verbose : Bool) (l : Logged Printout) : Outcome :=
  match l.result with
  | .error e => failure verbose l.notices e
  | .ok p =>
    match p.fault with
    | none => { output := p.text, report := noticeLines verbose l.notices }
    | some e => { failure verbose l.notices e with output := p.text }

def serve (s : Surroundings) (settings : Settings) (verbose : Bool) (host : String) (port : Int)
    (token : String) (cors : Bool) : Outcome :=
  match s.serverFault with
  | some reason => {
      report := "Error: API dependencies not installed. Install with: pip install marksight[api]\n" ++
        "Details: " ++ reason ++ "\n"
      ending := .exit 1 }
  | none =>
    let l := Session.start settings s.grammars
    match l.result with
    | .error e => failure verbose l.notices e
    | .ok session =>
      let (said, token) := serviceToken s token
      { output := said ++ "Starting server on http://" ++ host ++ ":" ++ Value.intText port ++ "\n"
        report := noticeLines verbose l.notices
        started := some ⟨{ session, token, cors }, host, port⟩ }

/-- Run an invocation. The settings are loaded first. -/
def run (s : Surroundings) (i : Invocation) : Outcome :=
  match Settings.load s.files (i.config.map Path.ofText) with
  | .error e => failure i.verbose [] e
  | .ok settings =>
    match i.task with
    | .highlight file features snapshot json =>
      printed i.verbose (highlight s settings file features snapshot json)
    | .outline file snapshot json => printed i.verbose (outline s settings file snapshot json)
    | .features => { output := features settings }
    | .dump file inline both => printed i.verbose (dump s settings file inline both)
    | .serve host port token cors => serve s settings i.verbose host port token cors

end Limn.Command
