import Limn.Pattern

/-! # Features

A feature is a named row of highlight rules that is switched on or off as a whole. A rule paints
the nodes of one tree that match its pattern. Features that override paint over all others.

`Feature.markdown` is the table for Markdown; `Feature.select` switches features on by name.
-/

namespace Limn

/-- Which tree of the document a rule looks at. -/
inductive Layer where
  | block
  | inline
  /-- A tree that documents do not have. -/
  | other (name : String)
deriving DecidableEq, Repr, Inhabited

/-- Nodes of one tree that match a pattern belong to a category. -/
structure Rule where
  layer : Layer
  pattern : Pattern
  category : String
deriving Repr, Inhabited

/-- A named row of rules. -/
structure Feature where
  name : String
  rules : List Rule
  override : Bool := false
deriving Repr, Inhabited

/-! ## The table for Markdown -/

namespace Category

def keyword := "keyword"
def string := "string"
def doc := "doc"
def shadow := "shadow"
def link := "link"
def underline := "underline"
def bold := "bold"

/-- All categories, in alphabetical order. -/
def all : List String := [bold, doc, keyword, link, shadow, string, underline]

end Category

namespace Feature

def paragraph : Feature where
  name := "paragraph"
  rules := [
    ⟨.block, .oneOf ["setext_heading", "atx_heading"], Category.keyword⟩,
    ⟨.block, .oneOf ["thematic_break"], Category.shadow⟩,
    ⟨.block, .oneOf ["indented_code_block"], Category.string⟩,
    ⟨.block, .childOf ["list_item"]
      ["list_marker_star", "list_marker_plus", "list_marker_minus", "list_marker_dot"] none,
      Category.keyword⟩,
    ⟨.block, .childOf ["fenced_code_block"] ["fenced_code_block_delimiter"] none, Category.doc⟩,
    ⟨.block, .childOf ["fenced_code_block"] ["code_fence_content"] none, Category.string⟩,
    ⟨.block, .oneOf ["block_quote_marker"], Category.string⟩,
    ⟨.block, .childOf ["block_quote"] ["paragraph"] none, Category.string⟩,
    ⟨.block, .childOf ["block_quote"] ["block_quote_marker"] none, Category.string⟩]

/-- Links, images, code and emphasis inside paragraphs. -/
def paragraphInline : Feature where
  name := "paragraph-inline"
  rules := [
    ⟨.inline, .oneOf ["image_description"], Category.link⟩,
    ⟨.inline, .oneOf ["link_destination"], Category.string⟩,
    ⟨.inline, .oneOf ["code_span"], Category.string⟩,
    ⟨.inline, .oneOf ["emphasis"], Category.underline⟩,
    ⟨.inline, .oneOf ["strong_emphasis"], Category.bold⟩,
    ⟨.inline, .either [
      .childOf ["inline_link"] ["link_text"] none,
      .childOf ["shortcut_link"] ["link_text"] none], Category.link⟩,
    ⟨.inline, .childOf ["inline_link"] ["link_destination"] none, Category.string⟩]

/-- The brackets of links, painted over everything else. -/
def delimiter : Feature where
  name := "delimiter"
  rules := [⟨.inline, .oneOf ["[", "]", "(", ")"], Category.shadow⟩]
  override := true

def markdown : List Feature := [paragraph, paragraphInline, delimiter]

/-- The names of a table, in order of declaration. -/
def names (features : List Feature) : List String :=
  features.map (·.name)

/-! ## Switching features on -/

/-- Texts in the order of their code points, each once. -/
def sortedNames (names : List String) : List String :=
  names.eraseDups.mergeSort (fun a b => decide (a ≤ b))

/-- The names in a choice, which all have to be texts. A name that is none is declared by no table,
so it is reported together with the other names that the table does not declare. -/
def textNames (features : List Feature) (chosen : List Wording) : Except Error (List String) :=
  match chosen.mapM Wording.text? with
  | some names => .ok names
  | none =>
    let unknown := chosen.filter fun name => !((names features).map Wording.text).contains name
    .error (.unknownFeatures ((unknown.eraseDups.mergeSort Wording.atMost).map Wording.shown)
      (sortedNames (names features)))

/-- The features switched on, in order of declaration. `none` switches on all of them; a name that
the table does not declare is an error. -/
def select (features : List Feature) : Option (List String) → Except Error (List Feature)
  | none => .ok features
  | some enabled =>
    match enabled.filter fun name => !(names features).contains name with
    | [] => .ok (features.filter fun f => enabled.contains f.name)
    | unknown => .error (.unknownFeatures (sortedNames unknown) (sortedNames (names features)))

end Feature

end Limn
