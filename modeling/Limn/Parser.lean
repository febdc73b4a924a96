import Limn.Document
import Limn.Grammar

/-! # Parsing documents

A document has two trees. The block grammar gives the first; the regions that it marks as inline are
the ranges in which the inline grammar gives the second, as a single tree for all regions. A
document without inline regions gets the inline tree of the empty text.

A parser holds one copy of each grammar. The block grammar always sees whole texts. The inline
grammar keeps the ranges that it was told last, which is the only thing that changes from one
document to the next.
-/

namespace Limn

/-- The type of the nodes of the block tree that the inline grammar looks at. -/
def Node.inlineType : Wording := "inline"

/-- The inline regions of a block tree, in document order. -/
def Node.inlineRegions (block : Node) : List Span :=
  (block.walk.filter fun v => v.node.type == Node.inlineType).map fun v => v.node.span

/-- A parser: its grammars as far as they could be loaded, and the reasons for those that could
not. -/
structure Parser where
  blockLanguage : Value
  inlineLanguage : Value
  block : Option Grammar
  inline : Option Grammar
  reasons : List (Value × String)
  /-- The ranges that the inline grammar was told last. -/
  ranges : List Span := []

namespace Parser

/-! ## Loading -/

/-- Load one grammar. Reasons are kept by name, the last one for each. -/
def loadGrammar (grammars : Grammars) (name : Value) (reasons : List (Value × String)) :
    Logged (Option Grammar × List (Value × String)) :=
  match grammars name with
  | .loaded g => pure (some g, reasons)
  | .broken reason => .of (.error (.grammarCrash reason))
  | .unavailable reason => do
    Logged.note (.grammarUnavailable name reason)
    if name.isKey then pure (none, Entries.put name reason reasons)
    else .of (.error .unusableName)

/-- Load the two grammars, the block grammar first. -/
def create (grammars : Grammars) (blockLanguage inlineLanguage : Value) : Logged Parser := do
  let (block, reasons) ← loadGrammar grammars blockLanguage []
  let (inline, reasons) ← loadGrammar grammars inlineLanguage reasons
  return { blockLanguage, inlineLanguage, block, inline, reasons }

/-! ## Readiness -/

def isReady (p : Parser) : Bool :=
  p.block.isSome && p.inline.isSome

/-- Both grammars, or the reasons why they are not there. -/
def grammarPair (p : Parser) : Except Error (Grammar × Grammar) :=
  match p.block, p.inline with
  | some block, some inline => .ok (block, inline)
  | _, _ => .error ((Error.grammarsMissing p.reasons).about (p.reasons.map (·.1)))

/-! ## Parsing -/

/-- What parsing one document gives: the parser afterwards, what the grammars were asked for in
order, and the document. -/
structure Parsing where
  parser : Parser
  requests : List GrammarRequest
  document : Logged Document

/-- The part of a document that the inline grammar is given: nothing if there are no regions. -/
def inlineSource (source : Bytes) (regions : List Span) : Bytes :=
  if regions.isEmpty then [] else source

def parse (p : Parser) (source : Bytes) : Parsing :=
  match p.grammarPair with
  | .error e => ⟨p, [], .of (.error e)⟩
  | .ok (block, inline) =>
    let asked := [GrammarRequest.parse p.blockLanguage source]
    match block.parse [] source with
    | .error reason => ⟨p, asked, .of (.error (.grammarCrash reason))⟩
    | .ok blockTree =>
      let regions := blockTree.inlineRegions
      let asked := asked ++ [.ranges p.inlineLanguage regions]
      match inline.accept regions with
      | .error reason => ⟨p, asked, .of (.error (.grammarCrash reason))⟩
      | .ok () =>
        let p := { p with ranges := regions }
        let given := inlineSource source regions
        let asked := asked ++ [.parse p.inlineLanguage given]
        match inline.parse p.ranges given with
        | .error reason => ⟨p, asked, .of (.error (.grammarCrash reason))⟩
        | .ok inlineTree =>
          ⟨p, asked, do
            Logged.note (.parsed source.length regions.length)
            return ⟨some blockTree, some inlineTree, source, regions⟩⟩

end Parser

end Limn
