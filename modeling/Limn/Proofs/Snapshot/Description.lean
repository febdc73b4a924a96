import Limn.Proofs.Walk
import Limn.Snapshot
import Mathlib.Tactic

/-! # Descriptions of nodes

The mapping that a node is written as. Reading one gives the node back: its type, its span and
whether it is named, the nodes of its children, and its field if it has one (`nodeAt_description`).
Equal descriptions are descriptions of equal parts (`description_inj`).
-/

namespace Limn

/-! ## Wordings as values -/

namespace Value

@[simp] theorem worded_ofWording (w : Wording) : (ofWording w).worded = .ok w := by
  cases w <;> rfl

@[simp] theorem isWritable_ofWording (w : Wording) : (ofWording w).isWritable = true := by
  cases w <;> rfl

@[simp] theorem ofWording_inj {w w' : Wording} : ofWording w = ofWording w' ↔ w = w' := by
  cases w <;> cases w' <;> simp [ofWording]

end Value

namespace Snapshot

/-! ## Looking up -/

section Lookup

variable {key name : String} {v : Value} {es fs : List (Value × Value)}

@[simp] theorem get?_nil : Entries.get? (.text key) ([] : List (Value × Value)) = none :=
  rfl

@[simp] theorem get?_cons_text : Entries.get? (.text key) ((.text name, v) :: es) =
    if name = key then some v else Entries.get? (.text key) es := by
  simp [Entries.get?, Value.sameKey]

@[simp] theorem get?_append : Entries.get? (.text key) (es ++ fs) =
    (Entries.get? (.text key) es).or (Entries.get? (.text key) fs) := by
  induction es with
  | nil => simp [Entries.get?]
  | cons e es ih =>
      rw [List.cons_append, Entries.get?, Entries.get?, ih]
      split <;> rfl

@[simp] theorem get?_optionalEntry {present : Bool} :
    Entries.get? (.text key) (optionalEntry present name v) =
      if present ∧ name = key then some v else none := by
  cases present <;> simp [optionalEntry]

end Lookup

/-! ## Descriptions -/

/-- The entries of a node, with the one for its field if it has one. -/
def description (type : Wording) (span : Span) (named : Bool) (children : List Value)
    (field : Option Value) : List (Value × Value) :=
  (.text "type", .ofWording type) :: (.text "start", .int span.start) ::
    (.text "end", .int span.stop) ::
    (optionalEntry (!named) "named" (.bool false) ++
      optionalEntry (!children.isEmpty) "children" (.list children) ++
      optionalEntry field.isSome "field" (field.getD .null))

/-- The field of a node as far as it is written. -/
def setField (field : Value) : Option Value :=
  if field.isSet then some field else none

theorem isEmpty_items (ns : List Node) : (items ns).isEmpty = ns.isEmpty := by
  cases ns with
  | nil => simp [items]
  | cons n ns => simp [items]

theorem entries_eq (n : Node) :
    entries n = description n.type n.span n.named (items n.children) none := by
  cases n
  simp [entries, description, optionalEntry, isEmpty_items]

theorem items_cons (n : Node) (ns : List Node) : items (n :: ns) =
    .map (description n.type n.span n.named (items n.children) (setField n.field)) :: items ns := by
  rw [items, entries_eq]
  cases hset : n.field.isSet <;> simp [description, optionalEntry, setField, hset]

section Reading

variable {source : Option Bytes} {path : String} {type : Wording} {span : Span} {named : Bool}
  {children : List Value} {field : Option Value}

theorem header_description (hspan : span.start ≤ span.stop) :
    header path (.map (description type span named children field)) =
      .ok (.ofWording type, span) := by
  have hstop : ¬ span.stop < span.start := by omega
  simp [header, required, offset, description, Value.integer, hstop, bind, Except.bind]

theorem childItems?_description :
    childItems? (.map (description type span named children field)) = some children := by
  cases children with
  | nil => simp [childItems?, Value.get?, description]
  | cons v children =>
      have hset : (Value.list (v :: children)).isSet = true := rfl
      simp [childItems?, Value.get?, description, hset]

theorem get?_field_description :
    Entries.get? (.text "field") (description type span named children field) = field := by
  cases field <;> simp [description]

/-- Where a node without a text of its own takes it from. -/
def borrowed (source : Option Bytes) : Content :=
  source.elim .absent .spanOf

theorem assemble_description {nodes : List Node} :
    assemble source (.map (description type span named children field)) (.ofWording type) span
        nodes =
      .ok { type, span, named, field := field.getD .null, content := borrowed source,
            children := nodes } := by
  have htext : (Value.map (description type span named children field)).get? "text" = none := by
    simp [Value.get?, description]
  have hnamed : (((Value.map (description type span named children field)).get? "named").map
      (·.isSet)).getD true = named := by
    cases named with
    | true => simp [Value.get?, description]
    | false =>
        have hset : (Value.bool false).isSet = false := rfl
        simp [Value.get?, description, hset]
  have hfield : (Value.map (description type span named children field)).get? "field" = field :=
    get?_field_description
  have hcontent : content source (.map (description type span named children field)) =
      .ok (borrowed source) := by
    unfold content
    rw [htext]
    cases source <;> rfl
  rw [assemble, Value.worded_ofWording, hcontent, hnamed, hfield]
  rfl

/-- **Reading a description** gives the node that it describes. -/
theorem nodeAt_description {nodes : List Node} (hspan : span.start ≤ span.stop)
    (hnodes : nodesAt source path 0 children = .ok nodes) :
    nodeAt source path (.map (description type span named children field)) =
      .ok { type, span, named, field := field.getD .null, content := borrowed source,
            children := nodes } := by
  rw [nodeAt, header_description hspan]
  simp only [bind, Except.bind]
  have hfound := @childItems?_description type span named children field
  -- A node without children is put together without a look at any.
  split
  · rename_i hnone
    cases hfound.symm.trans hnone
  · rename_i hnone
    cases hfound.symm.trans hnone
    rw [nodesAt] at hnodes
    cases hnodes
    exact assemble_description
  · rename_i item rest hsome
    cases hfound.symm.trans hsome
    rw [hnodes]
    exact assemble_description

/-- A row of children that starts with a description, given what its own children and the rest of
the row are read as. -/
theorem nodesAt_cons_description {i : Nat} {rest : List Value} {nodes restNodes : List Node}
    (hspan : span.start ≤ span.stop)
    (hnodes : ∀ path, nodesAt source path 0 children = .ok nodes)
    (hrest : nodesAt source path (i + 1) rest = .ok restNodes) :
    nodesAt source path i (.map (description type span named children field) :: rest) =
      .ok ({ type, span, named, field := field.getD .null, content := borrowed source,
             children := nodes } :: restNodes) := by
  rw [nodesAt, nodeAt_description hspan (hnodes _), hrest]
  rfl

end Reading

/-! ## Equal descriptions -/

/-- **Equal descriptions describe equal parts.** -/
theorem description_inj {type type' : Wording} {span : Span} {named : Bool}
    {children children' : List Value} {field field' : Option Value} :
    description type' span named children' field' = description type span named children field ↔
      type' = type ∧ children' = children ∧ field' = field := by
  constructor
  · intro h
    have htype := congrArg (Entries.get? (.text "type")) h
    have hchildren := congrArg (childItems? ∘ Value.map) h
    have hfield := congrArg (Entries.get? (.text "field")) h
    rw [get?_field_description, get?_field_description] at hfield
    simp only [Function.comp_apply, childItems?_description, Option.some.injEq] at hchildren
    refine ⟨?_, hchildren, hfield⟩
    simpa [description] using htype
  · rintro ⟨rfl, rfl, rfl⟩
    rfl

end Snapshot

end Limn
