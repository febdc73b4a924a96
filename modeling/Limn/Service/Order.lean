import Limn.Json

/-! # Orders

What a request for work asks for: a document, and perhaps a choice of features, as rows of symbols.
A body that is no order is answered with a report that quotes the parts at fault, so they are kept.
-/

namespace Limn

open Limn.Text (Symbol)

/-- A document to work on, with a choice of features if one is made. -/
structure Order where
  text : List Symbol
  features : Option (List (List Symbol))
deriving DecidableEq, Repr

namespace Order

/-- The document of an order, or what is at fault: the whole order if it has none. -/
def textOf (v : Json) : Except (List Json) (List Symbol) :=
  match v.get? "text" with
  | none => .error [v]
  | some t =>
    match t.symbols? with
    | none => .error [t]
    | some text => .ok text

/-- The names in a list, or all items that are none. -/
def namesOf (items : List Json) : Except (List Json) (List (List Symbol)) :=
  match items.filter fun item => item.symbols?.isNone with
  | [] => .ok (items.filterMap Json.symbols?)
  | faulty => .error faulty

/-- The choice of features: nothing, or a list of names. -/
def featuresOf (v : Json) : Except (List Json) (Option (List (List Symbol))) :=
  match v.get? "features" with
  | none | some .null => .ok none
  | some (.list items) => (namesOf items).map some
  | some other => .error [other]

/-- The order that a value stands for, or the parts of it at fault. Choices of features are looked
at only on demand. -/
def ofJson (withFeatures : Bool) (v : Json) : Except (List Json) Order :=
  match v with
  | .object _ =>
    match textOf v, if withFeatures then featuresOf v else .ok none with
    | .ok text, .ok features => .ok ⟨text, features⟩
    | .error faulty, .ok _ => .error faulty
    | .ok _, .error faulty => .error faulty
    | .error faulty, .error more => .error (faulty ++ more)
  | _ => .error [v]

end Order

end Limn
