import Limn.Proofs.Snapshot.Description
import Limn.Proofs.Yaml.Read
import Limn.Snapshot.Text

/-! # Documents that are read back

A document that is written and read back is the same document except for its wordings, which come
back as the styles in which they are written say (`readDocument_write`). So it comes back as it was
exactly if its offsets can be written and all its wordings survive. A wording does not survive

* between single quotes, if it holds a next line character (U+0085): that is read back as a line
  feed or a blank;
* between double quotes, with an indentation of the width of a line or more, if it holds an escape
  and a blank right after it: a line is broken at both.
-/

namespace Limn.Snapshot

open Node Yaml Yaml.Writer

/-! ## Trees in columns -/

mutual

/-- The walk of a tree, with the columns in which the entries of its nodes are written. -/
def layout (column : Nat) (parent : Option Node) : Node → List (Nat × Visit)
  | ⟨type, span, named, field, content, children⟩ =>
    (column, ⟨⟨type, span, named, field, content, children⟩, parent⟩) ::
      layoutAll (deeper column) ⟨type, span, named, field, content, children⟩ children

/-- The walks of the children of a node. -/
def layoutAll (column : Nat) (parent : Node) : List Node → List (Nat × Visit)
  | [] => []
  | n :: rest => layout column (some parent) n ++ layoutAll column parent rest

end

theorem layout_eq (column : Nat) (parent : Option Node) (n : Node) :
    layout column parent n =
      (column, ⟨n, parent⟩) :: layoutAll (deeper column) n n.children := by
  cases n
  rw [layout]

theorem forall_layoutAll_cons {p : Nat × Visit → Prop} {column : Nat} {parent n : Node}
    {ns : List Node} : (∀ x ∈ layoutAll column parent (n :: ns), p x) ↔
      p (column, ⟨n, some parent⟩) ∧ (∀ x ∈ layoutAll (deeper column) n n.children, p x) ∧
        ∀ x ∈ layoutAll column parent ns, p x := by
  rw [layoutAll, layout_eq]
  simp only [List.forall_mem_append, List.forall_mem_cons, and_assoc]

theorem forestOrder_eq_map (column : Nat) (parent : Node) (ns : List Node) :
    forestOrder parent ns = (layoutAll column parent ns).map Prod.snd := by
  induction ns using forest_induction generalizing column parent with
  | nil => simp [forestOrder, layoutAll]
  | cons n ns ihchildren ih =>
      rw [forestOrder, layoutAll, preorder_eq, layout_eq, List.map_append, List.map_cons,
        ← ihchildren, ← ih]

/-- A tree is laid out in the order of its walk. -/
theorem walk_eq_map (column : Nat) (n : Node) :
    n.walk = (layout column none n).map Prod.snd := by
  rw [walk_eq_preorder, preorder_eq, layout_eq, List.map_cons, ← forestOrder_eq_map]

/-- A field that a child may have: none, or a wording that is not empty. -/
def IsField : Value → Prop
  | .null => True
  | .text s => s ≠ ""
  | .halved _ => True
  | _ => False

instance : (field : Value) → Decidable (IsField field)
  | .null | .halved _ => inferInstanceAs (Decidable True)
  | .text s => inferInstanceAs (Decidable (s ≠ ""))
  | .bool _ | .int _ | .float _ | .date _ | .clock _ | .moment _ | .octets _ | .pair _ _ | .set _
  | .list _ | .map _ => inferInstanceAs (Decidable False)

/-- The span is not crossed, and a child sits in a proper field. -/
def IsOrderly (v : Visit) : Prop :=
  v.node.span.start ≤ v.node.span.stop ∧ (v.parent = none ∨ IsField v.node.field)

instance (v : Visit) : Decidable (IsOrderly v) :=
  inferInstanceAs (Decidable (_ ∧ _))

/-- The offsets of a node have numerals. -/
def HasNumerals (v : Visit) : Prop :=
  Value.hasNumeral v.node.span.start = true ∧ Value.hasNumeral v.node.span.stop = true

instance (v : Visit) : Decidable (HasNumerals v) :=
  inferInstanceAs (Decidable (_ ∧ _))

/-- The field of a child is kept. -/
def FieldSurvives (indent : Nat) : Value → Prop
  | .text s => Survives indent (.text s)
  | .halved h => Survives indent (.halved h)
  | _ => True

instance (indent : Nat) : (field : Value) → Decidable (FieldSurvives indent field)
  | .text s => inferInstanceAs (Decidable (Survives indent (.text s)))
  | .halved h => inferInstanceAs (Decidable (Survives indent (.halved h)))
  | .null | .bool _ | .int _ | .float _ | .date _ | .clock _ | .moment _ | .octets _ | .pair _ _
  | .set _ | .list _ | .map _ => inferInstanceAs (Decidable True)

/-- The wordings of a node are kept. -/
def IsKept (column : Nat) (v : Visit) : Prop :=
  Survives (deeper column) v.node.type ∧
    (v.parent = none ∨ FieldSurvives (deeper column) v.node.field)

instance (column : Nat) (v : Visit) : Decidable (IsKept column v) :=
  inferInstanceAs (Decidable (_ ∧ _))

/-! ## Descriptions as texts

Each optional entry of a description is there or not, which makes eight shapes. -/

section Description

variable {type : Wording} {span : Span} {named : Bool} {children : List Value}
  {field : Option Value}

theorem entriesWritable_description (hfield : ∀ f ∈ field, f.isWritable = true) :
    Value.entriesWritable (description type span named children field) = true ↔
      Value.hasNumeral span.start = true ∧ Value.hasNumeral span.stop = true ∧
        Value.areWritable children = true := by
  cases named <;> cases children <;> cases field <;>
    simp_all [description, optionalEntry, Value.entriesWritable, Value.isWritable,
      Value.areWritable]

theorem isKeyWord_keys :
    ∀ word ∈ ["type", "start", "end", "named", "children", "field"], IsKeyWord word := by
  decide +kernel

theorem tidy_ofWording (w : Wording) : Tidy (.ofWording w) := by
  cases w <;> simp [Value.ofWording, Tidy, IsLeaf]

theorem reread_ofWording (column : Nat) (w : Wording) :
    reread column (.ofWording w) = .ofWording (rereadText (deeper column) w) := by
  cases w <;> simp [Value.ofWording, reread, rereadLeaf]

theorem tidyEntries_description (hstart : Value.hasNumeral span.start = true)
    (hstop : Value.hasNumeral span.stop = true) (hchildren : TidyItems children)
    (hfield : ∀ f ∈ field, Tidy f) :
    TidyEntries (description type span named children field) := by
  have hwords := isKeyWord_keys
  simp only [List.forall_mem_cons] at hwords
  obtain ⟨htype, hstart', hend, hnamed, hchildren', hfield', -⟩ := hwords
  cases named <;> cases children <;> cases field <;>
    simp [description, optionalEntry, TidyEntries, Tidy, tidy_ofWording, IsLeaf, *]

theorem rereadEntries_description {column : Nat} :
    rereadEntries column (description type span named children field) =
      description (rereadText (deeper column) type) span named (rereadItems column children)
        (field.map (reread column)) := by
  cases named <;> cases children <;> cases field <;>
    simp [description, optionalEntry, rereadEntries, reread, reread_ofWording, rereadLeaf,
      rereadItems]

end Description

/-! ## What can be written -/

theorem exists_wording_of_setField {field : Value} (h : IsField field) :
    ∀ f ∈ setField field, ∃ w, f = .ofWording w := by
  intro f hf
  obtain ⟨hset, hf⟩ := Option.ite_none_right_eq_some.1 hf
  obtain rfl := Option.some.inj hf
  cases field with
  | null => contradiction
  | text s => exact ⟨.text s, rfl⟩
  | halved k => exact ⟨.halved k, rfl⟩
  | _ => exact absurd h (by simp [IsField])

theorem isOrderly_child {n parent : Node} (h : IsOrderly ⟨n, some parent⟩) :
    n.span.start ≤ n.span.stop ∧ IsField n.field :=
  ⟨h.1, h.2.resolve_left (by simp)⟩

theorem areWritable_items {parent : Node} {ns : List Node}
    (horderly : ∀ v ∈ forestOrder parent ns, IsOrderly v) :
    Value.areWritable (items ns) = true ↔ ∀ v ∈ forestOrder parent ns, HasNumerals v := by
  induction ns using forest_induction generalizing parent with
  | nil => simp [items, Value.areWritable, forestOrder]
  | cons n ns ihchildren ih =>
      rw [forall_forestOrder_cons] at horderly ⊢
      obtain ⟨hn, hchildren, hns⟩ := horderly
      have hfield : ∀ f ∈ setField n.field, f.isWritable = true := by
        intro f hf
        obtain ⟨w, rfl⟩ := exists_wording_of_setField (isOrderly_child hn).2 f hf
        exact Value.isWritable_ofWording w
      rw [items_cons, Value.areWritable, Bool.and_eq_true, Value.isWritable,
        entriesWritable_description hfield, ihchildren hchildren, ih hns, HasNumerals]
      simp only [and_assoc]

theorem isWritable_value {n : Node} (horderly : ∀ v ∈ n.walk, IsOrderly v) :
    (value n).isWritable = true ↔ ∀ v ∈ n.walk, HasNumerals v := by
  rw [forall_walk] at horderly ⊢
  rw [value, Value.isWritable, entries_eq, entriesWritable_description (by simp),
    areWritable_items horderly.2, HasNumerals, and_assoc]

theorem tidyItems_items {parent : Node} {ns : List Node}
    (horderly : ∀ v ∈ forestOrder parent ns, IsOrderly v)
    (hnumerals : ∀ v ∈ forestOrder parent ns, HasNumerals v) : TidyItems (items ns) := by
  induction ns using forest_induction generalizing parent with
  | nil => simp [items, TidyItems]
  | cons n ns ihchildren ih =>
      rw [forall_forestOrder_cons] at horderly hnumerals
      obtain ⟨hn, hchildren, hns⟩ := horderly
      obtain ⟨⟨hstart, hstop⟩, hchildren', hns'⟩ := hnumerals
      have hfield : ∀ f ∈ setField n.field, Tidy f := by
        intro f hf
        obtain ⟨w, rfl⟩ := exists_wording_of_setField (isOrderly_child hn).2 f hf
        exact tidy_ofWording w
      rw [items_cons, TidyItems, TidyItem]
      exact ⟨⟨by simp [description], tidyEntries_description hstart hstop
        (ihchildren hchildren hchildren') hfield⟩, ih hns hns'⟩

theorem tidy_value {n : Node} (horderly : ∀ v ∈ n.walk, IsOrderly v)
    (hnumerals : ∀ v ∈ n.walk, HasNumerals v) : Tidy (value n) := by
  rw [forall_walk] at horderly hnumerals
  obtain ⟨⟨hstart, hstop⟩, hchildren⟩ := hnumerals
  rw [value, entries_eq, Tidy]
  exact ⟨by simp [description], tidyEntries_description hstart hstop
    (tidyItems_items horderly.2 hchildren) (by simp)⟩

/-! ## What is read back -/

/-- The field that a child written in a column comes back with. -/
def reloadedField (column : Nat) (field : Value) : Option Value :=
  (setField field).map (reread column)

mutual

/-- The tree that comes back for a tree written in a column, with the field it is given. -/
def reloaded (source : Option Bytes) (column : Nat) (field : Option Value) : Node → Node
  | ⟨type, span, named, _, _, children⟩ =>
    ⟨rereadText (deeper column) type, span, named, field.getD .null, borrowed source,
      reloadedAll source (deeper column) children⟩

/-- The children that come back. -/
def reloadedAll (source : Option Bytes) (column : Nat) : List Node → List Node
  | [] => []
  | n :: rest =>
    reloaded source column (reloadedField column n.field) n :: reloadedAll source column rest

end

theorem reloaded_eq (source : Option Bytes) (column : Nat) (field : Option Value) (n : Node) :
    reloaded source column field n = {
      type := rereadText (deeper column) n.type
      span := n.span
      named := n.named
      field := field.getD .null
      content := borrowed source
      children := reloadedAll source (deeper column) n.children } := by
  cases n
  rw [reloaded]

theorem nodesAt_reloadedAll {source : Option Bytes} {path : String} {i column : Nat} {parent : Node}
    {ns : List Node} (horderly : ∀ v ∈ forestOrder parent ns, IsOrderly v) :
    nodesAt source path i (rereadItems column (items ns)) =
      .ok (reloadedAll source (deeper column) ns) := by
  induction ns using forest_induction generalizing path i column parent with
  | nil => simp [items, rereadItems, nodesAt, reloadedAll]
  | cons n ns ihchildren ih =>
      rw [forall_forestOrder_cons] at horderly
      obtain ⟨hn, hchildren, hns⟩ := horderly
      rw [items_cons, rereadItems, rereadItem, rereadEntries_description,
        nodesAt_cons_description hn.1 (fun _ => ihchildren hchildren) (ih hns), reloadedAll,
        reloaded_eq]
      rfl

theorem nodeAt_reloaded {source : Option Bytes} {path : String} {column : Nat} {n : Node}
    (horderly : ∀ v ∈ n.walk, IsOrderly v) :
    nodeAt source path (.map (rereadEntries column (entries n))) =
      .ok (reloaded source column none n) := by
  rw [forall_walk] at horderly
  rw [entries_eq, rereadEntries_description,
    nodeAt_description horderly.1.1 (nodesAt_reloadedAll horderly.2), reloaded_eq]
  rfl

/-! ## What comes back unchanged -/

theorem setField_ofWording {w : Wording} (h : IsField (.ofWording w)) :
    setField (.ofWording w) = some (.ofWording w) := by
  refine if_pos ?_
  cases w with
  | text s => simpa [Value.ofWording, Value.isSet, IsField] using h
  | halved k => rfl

theorem setField_reloaded_ofWording_iff {column : Nat} {w : Wording} (h : IsField (.ofWording w)) :
    setField ((reloadedField column (.ofWording w)).getD .null) = setField (.ofWording w) ↔
      Survives (deeper column) w := by
  rw [reloadedField, setField_ofWording h, Option.map_some, Option.getD_some, reread_ofWording,
    ← rereadText_eq_self_iff]
  constructor
  · -- A field that came back empty would not be written at all.
    intro heq
    obtain ⟨-, hsame⟩ := Option.ite_none_right_eq_some.1 heq
    simpa using hsame
  · intro hsame
    rw [hsame, setField_ofWording h]

/-- A field comes back if its wording survives. -/
theorem setField_reloaded_iff {column : Nat} {field : Value} (h : IsField field) :
    setField ((reloadedField column field).getD .null) = setField field ↔
      FieldSurvives (deeper column) field := by
  cases field with
  | null => simp [reloadedField, setField, Value.isSet, FieldSurvives]
  | text s => exact setField_reloaded_ofWording_iff (w := .text s) h
  | halved k => exact setField_reloaded_ofWording_iff (w := .halved k) h
  | _ => exact absurd h (by simp [IsField])

theorem items_reloadedAll_iff {source : Option Bytes} {column : Nat} {parent : Node}
    {ns : List Node} (horderly : ∀ v ∈ forestOrder parent ns, IsOrderly v) :
    items (reloadedAll source column ns) = items ns ↔
      ∀ x ∈ layoutAll column parent ns, IsKept x.1 x.2 := by
  induction ns using forest_induction generalizing column parent with
  | nil => simp [reloadedAll, layoutAll]
  | cons n ns ihchildren ih =>
      rw [forall_forestOrder_cons] at horderly
      obtain ⟨hn, hchildren, hns⟩ := horderly
      rw [forall_layoutAll_cons, reloadedAll, reloaded_eq, items_cons, items_cons, List.cons.injEq,
        Value.map.injEq, description_inj, rereadText_eq_self_iff, ihchildren hchildren, ih hns,
        setField_reloaded_iff (isOrderly_child hn).2, IsKept]
      simp only [reduceCtorEq, false_or]
      tauto

/-- **Which trees come back.** -/
theorem value_reloaded_iff {source : Option Bytes} {column : Nat} {n : Node}
    (horderly : ∀ v ∈ n.walk, IsOrderly v) :
    value (reloaded source column none n) = value n ↔
      ∀ x ∈ layout column none n, IsKept x.1 x.2 := by
  rw [forall_walk] at horderly
  rw [layout_eq, List.forall_mem_cons, value, value, Value.map.injEq, entries_eq, entries_eq,
    reloaded_eq, description_inj, rereadText_eq_self_iff, items_reloadedAll_iff horderly.2, IsKept]
  simp

/-! ## Documents -/

/-- The value of a document. -/
def documentValue (source : String) (block inline : Node) : List (Value × Value) :=
  [(.text "source", .text source), (.text "block", value block), (.text "inline", value inline)]

theorem tidyEntries_documentValue {source : String} {block inline : Node}
    (hblock : Tidy (value block)) (hinline : Tidy (value inline)) :
    TidyEntries (documentValue source block inline) := by
  have hwords : ∀ word ∈ ["source", "block", "inline"], IsKeyWord word := by decide +kernel
  simp_all [documentValue, TidyEntries, Tidy, IsLeaf]

/-- **A document is read back** with its wordings as they read back. -/
theorem readDocument_write {source back : String} {block inline : Node}
    (hback : rereadText 2 (.text source) = .text back)
    (hblock : ∀ v ∈ block.walk, IsOrderly v) (hinline : ∀ v ∈ inline.walk, IsOrderly v)
    (hblock' : ∀ v ∈ block.walk, HasNumerals v) (hinline' : ∀ v ∈ inline.walk, HasNumerals v) :
    readDocument (.text (write (.map (documentValue source block inline)))) = .ok {
      block := reloaded (some (.ofText back)) 2 none block
      inline := reloaded (some (.ofText back)) 2 none inline
      source := back } := by
  have htidy := @tidyEntries_documentValue source _ _ (tidy_value hblock hblock')
    (tidy_value hinline hinline')
  have hread := read_write (by simp [documentValue]) htidy
  have hentries : rereadEntries 0 (documentValue source block inline) = [
      (.text "source", .text back),
      (.text "block", .map (rereadEntries 2 (entries block))),
      (.text "inline", .map (rereadEntries 2 (entries inline)))] := by
    simp [documentValue, rereadEntries, reread, rereadLeaf, value, deeper, hback, Value.ofWording]
  have hworded : (Value.text back).worded = .ok (.text back) := rfl
  rw [hentries] at hread
  simp only [readDocument, readDocumentWith, parse, load, hread, Except.mapError, bind, Except.bind,
    documentOf, Value.get?, get?_cons_text, treeUnder]
  simp [hworded, Except.map, Source.bytes?, Source.bytes, Wording.encoded, Wording.text?,
    nodeAt_reloaded hblock, nodeAt_reloaded hinline]

theorem writeDocument_eq {source text : String} {block inline : Node}
    (hblock : ∀ v ∈ block.walk, IsOrderly v) (hinline : ∀ v ∈ inline.walk, IsOrderly v) :
    writeDocument (some (.text (.text source))) block inline = .ok text ↔
      ((∀ v ∈ block.walk, HasNumerals v) ∧ ∀ v ∈ inline.walk, HasNumerals v) ∧
        write (.map (documentValue source block inline)) = text := by
  have hwritable : (Value.map (documentValue source block inline)).isWritable = true ↔
      (∀ v ∈ block.walk, HasNumerals v) ∧ ∀ v ∈ inline.walk, HasNumerals v := by
    rw [← isWritable_value hblock, ← isWritable_value hinline]
    simp [documentValue, Value.isWritable, Value.entriesWritable]
  have hformat : writeDocument (some (.text (.text source))) block inline =
      format (.map (documentValue source block inline)) := rfl
  rw [hformat, format, ← hwritable]
  split <;> simp_all

/-- A document that is written, read back and the same as before. -/
def RoundTrips (source : String) (block inline : Node) : Prop :=
  ∃ text loaded, writeDocument (some (.text (.text source))) block inline = .ok text ∧
    readDocument (.text text) = .ok loaded ∧ loaded.source = source ∧
      value loaded.block = value block ∧ value loaded.inline = value inline

/-- **Which documents come back.** Those whose offsets have numerals and whose source, types and
fields all survive the style that they are written in, each in its column. -/
theorem roundTrips_iff {source : String} {block inline : Node}
    (hblock : ∀ v ∈ block.walk, IsOrderly v) (hinline : ∀ v ∈ inline.walk, IsOrderly v) :
    RoundTrips source block inline ↔
      ((∀ v ∈ block.walk, HasNumerals v) ∧ ∀ v ∈ inline.walk, HasNumerals v) ∧
        Survives 2 (.text source) ∧ (∀ x ∈ layout 2 none block, IsKept x.1 x.2) ∧
          ∀ x ∈ layout 2 none inline, IsKept x.1 x.2 := by
  obtain ⟨back, hback⟩ := exists_text_of_rereadText 2 source
  rw [← rereadText_eq_self_iff, hback, Wording.text.injEq,
    ← @value_reloaded_iff (some (.ofText back)) 2 block hblock,
    ← @value_reloaded_iff (some (.ofText back)) 2 inline hinline]
  constructor
  · rintro ⟨text, loaded, hwrite, hread, hsame⟩
    -- Only a document with numerals is written, so what is read back is known.
    obtain ⟨hnumerals, rfl⟩ := (writeDocument_eq hblock hinline).1 hwrite
    rw [readDocument_write hback hblock hinline hnumerals.1 hnumerals.2] at hread
    cases hread
    exact ⟨hnumerals, hsame⟩
  · rintro ⟨hnumerals, hsame⟩
    exact ⟨_, _, (writeDocument_eq hblock hinline).2 ⟨hnumerals, rfl⟩,
      readDocument_write hback hblock hinline hnumerals.1 hnumerals.2, hsame⟩

/-- A heading comes back; a line that holds a next line character does not. -/
theorem roundTrips_heading :
    let content : Node := { type := "inline", span := ⟨2, 3⟩, field := .text "content" }
    let heading : Node := { type := "atx_heading", span := ⟨0, 4⟩, children := [content] }
    let x : Node := { type := "x", span := ⟨0, 1⟩ }
    RoundTrips "# a\n" heading content ∧ ¬ RoundTrips "a\u0085b" x x := by
  intro content heading x
  have hheading : ∀ v ∈ heading.walk, IsOrderly v := by decide +kernel
  have hcontent : ∀ v ∈ content.walk, IsOrderly v := by decide +kernel
  have hx : ∀ v ∈ x.walk, IsOrderly v := by decide +kernel
  constructor
  · rw [roundTrips_iff hheading hcontent]
    decide +kernel
  · rw [roundTrips_iff hx hx]
    decide +kernel

end Limn.Snapshot
