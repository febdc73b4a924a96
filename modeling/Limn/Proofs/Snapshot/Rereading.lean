import Limn.Proofs.Snapshot.Description
import Limn.Proofs.Snapshot.Reading
import Mathlib.Tactic

/-! # Trees that are read again

A tree that was read can be written and read again, over the same octets. What comes back is the
same tree in all that writing keeps (`reading_again_renews`): a field that does not count as set is
gone, so is the field of the root, and a text of a node's own gives way to the octets under its
span.

Reading settles what is odd about a value: types are texts afterwards, offsets are integers in
order, and truth values are plain. So all that the writer leaves out is what the reader takes for
granted.
-/

namespace Limn

namespace Node

/-! ## Fields by number -/

/-- The number of the first child in a field. -/
def fieldIndex? (n : Node) (name : String) : Option Nat :=
  n.children.findIdx? (·.inField name)

theorem fieldChild?_eq_bind (n : Node) (name : String) :
    n.fieldChild? name = (n.fieldIndex? name).bind fun i => n.children[i]? := by
  unfold fieldChild? fieldIndex?
  induction n.children with
  | nil => rfl
  | cons c cs ih =>
      rw [List.find?_cons, List.findIdx?_cons]
      cases c.inField name with
      | true => rfl
      | false =>
          rw [ih]
          cases cs.findIdx? (·.inField name) <;> rfl

end Node

namespace Snapshot

open Node

/-! ## What is read -/

/-- What is known of a node that was read over octets. -/
structure IsRead (source : Option Bytes) (n : Node) : Prop where
  ordered : n.span.start ≤ n.span.stop
  content : n.content = borrowed source ∨ ∃ s, n.content = .literal s

section Read

variable {source : Option Bytes} {path : String} {v : Value} {n : Node}

theorem content_cases {c : Content} (h : content source v = .ok c) :
    c = borrowed source ∨ ∃ s, c = .literal s := by
  unfold content at h
  split at h
  · cases source <;> exact Or.inl (Except.ok.inj h).symm
  · cases source <;> exact Or.inl (Except.ok.inj h).symm
  · rename_i text _ _
    cases hworded : text.worded with
    | error e =>
        rw [hworded] at h
        contradiction
    | ok s =>
        rw [hworded] at h
        exact Or.inr ⟨s, (Except.ok.inj h).symm⟩

/-- What a node is put together from. -/
theorem parts_of_nodeAt (h : nodeAt source path v = .ok n) :
    IsRead source n ∧ nodesAt source path 0 (itemsOf v) = .ok n.children := by
  rw [nodeAt_eq] at h
  obtain ⟨⟨type, span⟩, hheader, h⟩ := bind_eq_ok h
  dsimp only at h
  cases hfound : childItems? v with
  | none =>
      rw [hfound] at h
      contradiction
  | some items =>
      obtain rfl := itemsOf_eq hfound
      rw [hfound] at h
      obtain ⟨children, hchildren, h⟩ := bind_eq_ok h
      obtain ⟨type, -, h⟩ := bind_eq_ok h
      obtain ⟨c, hc, h⟩ := bind_eq_ok h
      obtain rfl := Except.ok.inj h
      exact ⟨⟨(header_eq_ok_iff.mp hheader).ordered, content_cases hc⟩, hchildren⟩

theorem nodesAt_isRead {i : Nat} {items : List Value} {ns : List Node} (parent : Node)
    (hitems : ∀ item ∈ items, ∀ (path : String) (n : Node), nodeAt source path item = .ok n →
      ∀ x ∈ n.walk, IsRead source x.node)
    (h : nodesAt source path i items = .ok ns) :
    ∀ x ∈ forestOrder parent ns, IsRead source x.node := by
  induction items generalizing i ns with
  | nil =>
      rw [nodesAt] at h
      obtain rfl := Except.ok.inj h
      simp [forestOrder]
  | cons item rest ih =>
      obtain ⟨hitem, hrest⟩ := List.forall_mem_cons.mp hitems
      rw [nodesAt] at h
      obtain ⟨n, hn, h⟩ := bind_eq_ok h
      obtain ⟨nodes, hnodes, h⟩ := bind_eq_ok h
      obtain rfl := Except.ok.inj h
      obtain ⟨hroot, hchildren⟩ := forall_walk.mp (hitem _ n hn)
      exact forall_forestOrder_cons.mpr ⟨hroot, hchildren, ih hrest hnodes⟩

/-- **All nodes that are read** have a span in order and a text from one of two places. -/
theorem nodeAt_isRead (h : nodeAt source path v = .ok n) : ∀ x ∈ n.walk, IsRead source x.node := by
  induction v using value_induction generalizing path n with
  | step v ih =>
    obtain ⟨hroot, hchildren⟩ := parts_of_nodeAt h
    exact forall_walk.mpr ⟨hroot, nodesAt_isRead n (fun item hitem _ _ => ih item hitem) hchildren⟩

end Read

/-! ## What is read again -/

/-- The field that comes back for a child. -/
def renewedField (field : Value) : Value :=
  if field.isSet then field else .null

theorem getD_setField_eq (field : Value) : (setField field).getD .null = renewedField field := by
  unfold setField renewedField
  cases field.isSet <;> rfl

mutual

/-- The tree that comes back, with the field of a child. -/
def renewed (source : Option Bytes) : Node → Node
  | ⟨type, span, named, field, _, children⟩ =>
    ⟨type, span, named, renewedField field, borrowed source, renewedAll source children⟩

/-- The children that come back. -/
def renewedAll (source : Option Bytes) : List Node → List Node
  | [] => []
  | n :: rest => renewed source n :: renewedAll source rest

end

theorem renewedAll_eq_map (source : Option Bytes) (ns : List Node) :
    renewedAll source ns = ns.map (renewed source) := by
  induction ns with
  | nil => rw [renewedAll, List.map_nil]
  | cons n rest ih => rw [renewedAll, ih, List.map_cons]

theorem renewed_eq (source : Option Bytes) (n : Node) : renewed source n =
    { n with
      field := renewedField n.field
      content := borrowed source
      children := n.children.map (renewed source) } := by
  cases n
  rw [renewed, renewedAll_eq_map]

section Renewed

variable {source : Option Bytes} {path : String}

theorem nodesAt_renewed {i : Nat} {parent : Node} {ns : List Node}
    (hordered : ∀ x ∈ forestOrder parent ns, x.node.span.start ≤ x.node.span.stop) :
    nodesAt source path i (items ns) = .ok (ns.map (renewed source)) := by
  induction ns using forest_induction generalizing path i parent with
  | nil => simp [items, nodesAt]
  | cons n ns ihchildren ih =>
      rw [forall_forestOrder_cons] at hordered
      obtain ⟨hn, hchildren, hns⟩ := hordered
      rw [items_cons, nodesAt_cons_description hn (fun _ => ihchildren hchildren) (ih hns),
        getD_setField_eq, List.map_cons, renewed_eq]

/-- **A tree with its spans in order** can be written and read, and comes back renewed. -/
theorem nodeAt_renewed {n : Node}
    (hordered : ∀ x ∈ n.walk, x.node.span.start ≤ x.node.span.stop) :
    nodeAt source path (value n) = .ok { renewed source n with field := .null } := by
  rw [forall_walk] at hordered
  rw [value, entries_eq, nodeAt_description hordered.1 (nodesAt_renewed hordered.2), renewed_eq]
  rfl

theorem setField_renewedField (field : Value) :
    setField (renewedField field) = setField field := by
  unfold setField renewedField
  cases hset : field.isSet with
  | true => simp [hset]
  | false => simp [Value.isSet]

/-- What is read again is written the same way. -/
theorem items_map_renewed (ns : List Node) : items (ns.map (renewed source)) = items ns := by
  induction ns using forest_induction with
  | nil => rfl
  | cons n ns ihchildren ih =>
      rw [List.map_cons, items_cons, items_cons, ih, renewed_eq, setField_renewedField, ihchildren]

/-- A field that is gone was in no place that has a name. -/
theorem inField_eq_false {n : Node} (hset : n.field.isSet = false) {name : String}
    (hname : name ≠ "") : n.inField name = false := by
  unfold inField
  split
  · rename_i s hs
    rw [hs] at hset
    have hempty : s = "" := by simpa [Value.isSet] using hset
    simp [hempty, Ne.symm hname]
  · rfl

theorem inField_renewed (n : Node) {name : String} (hname : name ≠ "") :
    (renewed source n).inField name = n.inField name := by
  rw [renewed_eq]
  cases hset : n.field.isSet with
  | true => simp only [inField, renewedField, hset, if_true]
  | false =>
      rw [inField_eq_false hset hname]
      simp [inField, renewedField, hset]

end Renewed

/-! ## What is kept -/

/-- What a node and the one at the same position of the tree that is read again have in common. -/
structure Renews (p : Position) (m m' : Node) : Prop where
  type : m'.type = m.type
  span : m'.span = m.span
  named : m'.named = m.named
  field : p ≠ [] → m'.field = if m.field.isSet then m.field else .null
  text : (∀ s, m.content ≠ .literal s) → m'.text? = m.text?
  selected : ∀ name, name ≠ "" → m'.fieldIndex? name = m.fieldIndex? name ∧
    m'.fieldChild? name = (m.fieldIndex? name).bind fun i => m'.children[i]?

section Kept

variable {source : Option Bytes}

theorem fieldIndex?_renewed (n : Node) {name : String} (hname : name ≠ "") :
    (renewed source n).fieldIndex? name = n.fieldIndex? name := by
  have hcomp : (fun c : Node => c.inField name) ∘ renewed source = fun c => c.inField name := by
    funext c
    exact inField_renewed c hname
  rw [renewed_eq, fieldIndex?, fieldIndex?, List.findIdx?_map, hcomp]

theorem text?_renewed {n : Node} (h : IsRead source n) (hliteral : ∀ s, n.content ≠ .literal s) :
    (renewed source n).text? = n.text? := by
  rcases h.content with hborrowed | ⟨s, hs⟩
  · rw [renewed_eq, text?, text?, hborrowed]
  · exact absurd hs (hliteral s)

theorem renews_renewed {n : Node} (h : IsRead source n) (p : Position) :
    Renews p n (renewed source n) where
  type := by rw [renewed_eq]
  span := by rw [renewed_eq]
  named := by rw [renewed_eq]
  field := by
    intro _
    rw [renewed_eq]
    rfl
  text := text?_renewed h
  selected := by
    intro name hname
    rw [fieldChild?_eq_bind, fieldIndex?_renewed n hname]
    exact ⟨rfl, rfl⟩

/-- The root loses its field. -/
theorem Renews.withField {n m : Node} {p : Position} (h : Renews p n m) (field : Value) :
    Renews [] n { m with field := field } :=
  ⟨h.type, h.span, h.named, fun h => absurd rfl h, h.text, h.selected⟩

end Kept

/-- **What was read can be read again.** A tree that was read over a document is written as a value
that is read over the same document. At every position the trees agree in all but a field that is
not set and a text of the node's own, and the root has no field. So the second tree is written like
the first, and a field with a name selects children with the same number. -/
theorem reading_again_renews {source : Option Source} {v : Value} {n : Node}
    (h : node source v = .ok n) :
    ∃ n', node source (value n) = .ok n' ∧
      (∀ p, Option.Rel (Renews p) (n.at? p) (n'.at? p)) ∧
      value n' = value n := by
  obtain ⟨bytes, hbytes, hn⟩ := node_eq_ok_iff.mp h
  have hread := nodeAt_isRead hn
  refine ⟨{ renewed bytes n with field := .null },
    node_eq_ok_iff.mpr ⟨bytes, hbytes, nodeAt_renewed fun x hx => (hread x hx).ordered⟩, ?_, ?_⟩
  · intro p
    cases p with
    | nil => exact .some ((renews_renewed (forall_at? (p := []) hread rfl) []).withField .null)
    | cons i p =>
        -- below the root, what comes back is the renewed tree as it is
        show Option.Rel _ _ ((renewed bytes n).at? (i :: p))
        rw [Node.at?, Node.at?, descend_map fun a => by rw [renewed_eq]]
        cases hm : descend Node.children n (i :: p) with
        | none => exact .none
        | some m => exact .some (renews_renewed (forall_at? hread hm) (i :: p))
  · rw [value, value, Value.map.injEq, entries_eq, entries_eq, renewed_eq]
    exact description_inj.mpr ⟨rfl, items_map_renewed n.children, rfl⟩

/-- A node whose type is a number and whose offsets are a truth value and a numeral. Its children
have a text for a field, and zero, and the same text again. -/
def oddValue : Value :=
  .map [(.text "type", .int 7), (.text "start", .bool true), (.text "end", .text " 9 "),
    (.text "field", .text "title"), (.text "named", .int 0), (.text "text", .bool false),
    (.text "children", .list [
      .map [(.text "type", .null), (.text "start", .int 1), (.text "end", .int 2),
        (.text "field", .int 0)],
      .map [(.text "type", .text "a"), (.text "start", .int 2), (.text "end", .int 3),
        (.text "field", .text "title"), (.text "named", .list [])],
      .map [(.text "type", .text "b"), (.text "start", .int 3), (.text "end", .int 3),
        (.text "field", .text "title"), (.text "children", .bool false)]])]

/-- Read again, the node still selects its second child as the title. -/
theorem odd_value_reread : ∃ n n', node none oddValue = .ok n ∧ node none (value n) = .ok n' ∧
    n'.type = "7" ∧ n'.span = ⟨1, 9⟩ ∧ n'.named = false ∧ n'.fieldIndex? "title" = some 1 := by
  have hread : ((node none oddValue).toOption.any fun n => n.type == .text "7" &&
      n.span == ⟨1, 9⟩ && n.named == false && n.fieldIndex? "title" == some 1) = true := by
    decide +kernel
  cases hn : node none oddValue with
  | error e =>
      rw [hn] at hread
      contradiction
  | ok n =>
      rw [hn, Except.toOption, Option.any_some] at hread
      simp only [Bool.and_eq_true, beq_iff_eq] at hread
      obtain ⟨⟨⟨htype, hspan⟩, hnamed⟩, htitle⟩ := hread
      obtain ⟨n', hn', hkept, -⟩ := reading_again_renews hn
      have hroot : Renews [] n n' := by simpa [Node.at?] using hkept []
      refine ⟨n, n', rfl, hn', hroot.type.trans htype, hroot.span.trans hspan,
        hroot.named.trans hnamed, ?_⟩
      exact (hroot.selected "title" (by decide)).1.trans htitle

end Snapshot

end Limn
