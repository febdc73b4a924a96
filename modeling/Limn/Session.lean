import Limn.Highlight
import Limn.Outline
import Limn.Parser
import Limn.Settings

/-! # Sessions

A session puts the parts together under given settings: a parser, a highlighter with the features of
the settings, and the outline settings. It answers one request after another; the parser may change
from one to the next.
-/

namespace Limn

/-- The parts of the program, put together. -/
structure Session where
  settings : Settings
  parser : Parser
  highlighter : Highlighter

namespace Session

/-! ## Starting -/

/-- Put the parts together, whether or not the grammars are there. -/
def wire (settings : Settings) (grammars : Grammars) : Logged Session := do
  let parser ← Parser.create grammars settings.blockLanguage settings.inlineLanguage
  let highlighter ← .of (Highlighter.create Feature.markdown (some settings.features))
  return ⟨settings, parser, highlighter⟩

/-- Put the parts together, provided that both grammars are there. -/
def start (settings : Settings) (grammars : Grammars) : Logged Session := do
  let parser ← Parser.create grammars settings.blockLanguage settings.inlineLanguage
  let _ ← .of parser.grammarPair
  let highlighter ← .of (Highlighter.create Feature.markdown (some settings.features))
  return ⟨settings, parser, highlighter⟩

/-! ## Operations on documents -/

/-- Highlight a document with a notice. -/
def highlightDocument (h : Highlighter) (d : Document) (features : Option (List String)) :
    Logged (List Run) := do
  let e ← .of (h.evaluate d.block d.inline features)
  Logged.note (.highlighted e.active e.matched e.runs.length)
  return e.runs

def outlineDocument (settings : Settings) (d : Document) : Logged Outline := do
  let o ← .of (Outline.build d.block (settings.headingTypes.map .text) settings.group)
  Logged.note (.outlined o.entries.length)
  return o

/-! ## Requests -/

/-- The answer to one request: the session afterwards, what the grammars were asked for, and the
result. -/
structure Answer (α : Type) where
  session : Session
  requests : List GrammarRequest
  outcome : Logged α

/-- Parse a document and go on with it. -/
def withDocument {α : Type} (s : Session) (source : Bytes) (f : Document → Logged α) : Answer α :=
  let parsing := s.parser.parse source
  ⟨{ s with parser := parsing.parser }, parsing.requests, parsing.document >>= f⟩

def parse (s : Session) (source : Bytes) : Answer Document :=
  s.withDocument source pure

/-- The runs of a document, with features of the request's own choice if it makes one. -/
def highlight (s : Session) (source : Bytes) (features : Option (List String)) :
    Answer (List Run) :=
  s.withDocument source fun d => highlightDocument s.highlighter d features

def outline (s : Session) (source : Bytes) : Answer Outline :=
  s.withDocument source fun d => outlineDocument s.settings d

end Session

end Limn
