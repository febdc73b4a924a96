import Limn.Outline
import Limn.Proofs.Offsets
import Limn.Proofs.Snapshot.RoundTrip

/-! # Live trees and their snapshots

A live tree carries the octets of each node; the tree that is read back from its snapshot carries
none and cuts them out of the document. What reading gives is the same tree with other contents and
a root without a field (`nodeAt_value`). Neither highlighting nor outlining can see the difference:
patterns read types, spans and fields, and titles read the same octets.
-/

namespace Limn.Snapshot

open Node

/-! ## Trees cut out of a document -/

mutual

/-- The tree with every text cut out of a document. -/
def cutFrom (source : Bytes) : Node → Node
  | ⟨type, span, named, field, _, children⟩ =>
    ⟨type, span, named, field, .spanOf source, cutAll source children⟩

/-- The trees of a row with every text cut out of a document. -/
def cutAll (source : Bytes) : List Node → List Node
  | [] => []
  | n :: rest => cutFrom source n :: cutAll source rest

end

theorem cutAll_eq_map (source : Bytes) (ns : List Node) :
    cutAll source ns = ns.map (cutFrom source) := by
  induction ns with
  | nil => rw [cutAll, List.map_nil]
  | cons n rest ih => rw [cutAll, ih, List.map_cons]

theorem cutFrom_eq (source : Bytes) (n : Node) : cutFrom source n =
    { n with content := .spanOf source, children := n.children.map (cutFrom source) } := by
  cases n
  rw [cutFrom, cutAll_eq_map]

/-! ## Reading back -/

theorem getD_setField {field : Value} (h : IsField field) :
    (setField field).getD .null = field := by
  cases field with
  | null => simp [setField, Value.isSet]
  | text s => exact congrArg (·.getD .null) (setField_ofWording (w := .text s) h)
  | halved k => exact congrArg (·.getD .null) (setField_ofWording (w := .halved k) h)
  | _ => exact absurd h (by simp [IsField])

theorem nodesAt_items {source : Bytes} {path : String} {i : Nat} {parent : Node} {ns : List Node}
    (horderly : ∀ v ∈ forestOrder parent ns, IsOrderly v) :
    nodesAt (some source) path i (items ns) = .ok (ns.map (cutFrom source)) := by
  induction ns using forest_induction generalizing path i parent with
  | nil => simp [items, nodesAt]
  | cons n ns ihchildren ih =>
      rw [forall_forestOrder_cons] at horderly
      obtain ⟨hn, hchildren, hns⟩ := horderly
      obtain ⟨hspan, hfield⟩ := isOrderly_child hn
      rw [items_cons, nodesAt_cons_description hspan (fun _ => ihchildren hchildren) (ih hns),
        getD_setField hfield, List.map_cons, cutFrom_eq]
      rfl

/-- **What is read back** from the snapshot of a tree. -/
theorem nodeAt_value {source : Bytes} {path : String} {n : Node}
    (horderly : ∀ v ∈ n.walk, IsOrderly v) :
    nodeAt (some source) path (value n) = .ok { cutFrom source n with field := .null } := by
  rw [forall_walk] at horderly
  rw [value, entries_eq, nodeAt_description horderly.1.1 (nodesAt_items horderly.2), cutFrom_eq]
  rfl

/-! ## What can be seen -/

/-- The second node is the first one cut out of a document, but for its own field and content. -/
structure Mirrors (source : Bytes) (n m : Node) : Prop where
  type : m.type = n.type
  span : m.span = n.span
  children : m.children = n.children.map (cutFrom source)

theorem mirrors_cutFrom (source : Bytes) (n : Node) : Mirrors source n (cutFrom source n) := by
  rw [cutFrom_eq]
  exact ⟨rfl, rfl, rfl⟩

theorem Mirrors.withField {source : Bytes} {n m : Node} (h : Mirrors source n m) (field : Value) :
    Mirrors source n { m with field := field } :=
  ⟨h.type, h.span, h.children⟩

theorem Mirrors.fieldChild? {source : Bytes} {n m : Node} (h : Mirrors source n m)
    (name : String) : m.fieldChild? name = (n.fieldChild? name).map (cutFrom source) :=
  fieldChild?_of_map (fun n => by rw [cutFrom_eq]) h.children name

theorem Mirrors.firstNamed? {source : Bytes} {n m : Node} (h : Mirrors source n m) :
    m.firstNamed? = n.firstNamed?.map (cutFrom source) := by
  have hnamed : (fun c : Node => c.named) ∘ cutFrom source = fun c => c.named := by
    funext c
    simp only [Function.comp_apply, cutFrom_eq]
  rw [Node.firstNamed?, Node.firstNamed?, namedChildren, namedChildren, h.children,
    List.filter_map, hnamed, List.head?_map]

theorem Mirrors.moves {source : Bytes} {n m : Node} (h : Mirrors source n m) : n.Moves id m := by
  refine ⟨h.type, by rw [h.span, Span.moved_id], fun name => ?_⟩
  rw [h.fieldChild?]
  cases n.fieldChild? name with
  | none => exact .none
  | some c => exact .some ⟨(mirrors_cutFrom source c).type, (mirrors_cutFrom source c).span⟩

theorem walk_mirrors {source : Bytes} {n m : Node} (h : Mirrors source n m) :
    List.Forall₂ (Visit.Related (Mirrors source)) n.walk m.walk :=
  walk_related (fun n => (mirrors_cutFrom source n).children) (mirrors_cutFrom source) h h.children

theorem Mirrors.walk_moves {source : Bytes} {n m : Node} (h : Mirrors source n m) :
    List.Forall₂ (Visit.Related (Moves id)) n.walk m.walk := by
  refine (walk_mirrors h).imp ?_
  rintro ⟨n, p⟩ ⟨m, q⟩ ⟨hnode, hparent⟩
  refine ⟨hnode.moves, ?_⟩
  cases hparent with
  | none => exact .none
  | some hpq => exact .some hpq.moves

/-! ## Live trees -/

/-- The text of a node is the octets of its own span of a document. -/
def IsLive (source : Bytes) (n : Node) : Prop :=
  n.content = .raw (source.window n.span.start n.span.stop)

instance (source : Bytes) (n : Node) : Decidable (IsLive source n) :=
  inferInstanceAs (Decidable (_ = _))

theorem text?_cutFrom {source : Bytes} {n : Node} (h : IsLive source n) :
    (cutFrom source n).text? = n.text? := by
  rw [cutFrom_eq, text?, text?, h]

/-- A tree of a host over a document: spans are not crossed, a child sits in no field or in one
with a name, and every node carries its own octets. -/
structure LiveTree (source : Bytes) where
  root : Node
  orderly : ∀ v ∈ root.walk, IsOrderly v
  live : ∀ v ∈ root.walk, IsLive source v.node

section Outline

variable {source : Bytes} {n m : Node} (h : Mirrors source n m)
include h

/-- The title of a section is two steps below it, so the octets there have to be the node's own. -/
theorem title?_mirrors
    (hlive : ∀ marker ∈ n.children, ∀ c ∈ marker.children, IsLive source c) :
    Outline.title? m = Outline.title? n := by
  unfold Outline.title?
  rw [h.firstNamed?]
  cases hmarker : n.firstNamed? with
  | none => rfl
  | some marker =>
      simp only [Option.map_some, Option.bind_eq_bind, Option.bind_some,
        (mirrors_cutFrom source marker).fieldChild?]
      cases hcontent : marker.fieldChild? Outline.titleField with
      | none => rfl
      | some content =>
          have hchild : marker ∈ n.children :=
            List.mem_of_mem_filter (List.mem_of_mem_head? hmarker)
          have hgrandchild : content ∈ marker.children := List.mem_of_find?_eq_some hcontent
          simp only [Option.map_some, Option.bind_some,
            text?_cutFrom (hlive marker hchild content hgrandchild)]

theorem heading?_mirrors (types : List Wording)
    (hlive : ∀ marker ∈ n.children, ∀ c ∈ marker.children, IsLive source c) :
    Outline.heading? types m = Outline.heading? types n := by
  have hsection : Outline.isSection types m = Outline.isSection types n := by
    unfold Outline.isSection
    rw [h.firstNamed?]
    cases n.firstNamed? with
    | none => rfl
    | some marker => simp only [Option.map_some, (mirrors_cutFrom source marker).type]
  rw [Outline.heading?, Outline.heading?, hsection, title?_mirrors h hlive, h.span]

end Outline

theorem filterMap_related {α α' β : Type} {R : α → α' → Prop} {F : α → Option β}
    {F' : α' → Option β} {l : List α} {l' : List α'} (h : List.Forall₂ R l l')
    (hF : ∀ a ∈ l, ∀ a', R a a' → F' a' = F a) : l'.filterMap F' = l.filterMap F := by
  induction h with
  | nil => rfl
  | @cons a a' l l' haa' _ ih =>
      rw [List.filterMap_cons, List.filterMap_cons, hF a List.mem_cons_self a' haa',
        ih fun b hb => hF b (List.mem_cons_of_mem _ hb)]

theorem LiveTree.build_mirrors {source : Bytes} (tree : LiveTree source) {m : Node}
    (h : Mirrors source tree.root m) (types : List Wording) (group : String) :
    Outline.build (some m) types group = Outline.build (some tree.root) types group := by
  simp only [Outline.build]
  rw [filterMap_related (walk_mirrors h)]
  intro v hv w hvw
  apply heading?_mirrors hvw.1 types
  intro marker hmarker c hc
  exact tree.live _ (mem_walk_child (mem_walk_child hv hmarker) hc)

/-- **A live tree and its snapshot agree.** The snapshots of two live trees are read back, over the
octets of their document, as trees that every highlighter and every outline treats like the live
ones. For declared names there is something to treat alike: highlighting succeeds. -/
theorem LiveTree.snapshot_agrees {source : Bytes} (block inline : LiveTree source) :
    ∃ b i, node (some (.octets source)) (value block.root) = .ok b ∧
      node (some (.octets source)) (value inline.root) = .ok i ∧
      (∀ (h : Highlighter) (enabled : Option (List String)),
        h.evaluate (some b) (some i) enabled =
          h.evaluate (some block.root) (some inline.root) enabled) ∧
      (∀ (t : Table) (initial enabled : t.Choice), ∃ h e,
        Highlighter.create t.features initial.names = .ok h ∧
          h.evaluate (some b) (some i) enabled.names = .ok e) ∧
      ∀ (types : List Wording) (group : String),
        Outline.build (some b) types group = Outline.build (some block.root) types group := by
  have hblock := (mirrors_cutFrom source block.root).withField .null
  have hinline := (mirrors_cutFrom source inline.root).withField .null
  refine ⟨_, _, nodeAt_value block.orderly, nodeAt_value inline.orderly, ?_, ?_, ?_⟩
  · intro h enabled
    rw [h.evaluate_moves strictMono_id hblock.walk_moves hinline.walk_moves]
    cases h.evaluate (some block.root) (some inline.root) enabled with
    | error e => rfl
    | ok e => exact congrArg Except.ok e.moved_id
  · intro t initial enabled
    obtain ⟨h, hcreate, heval⟩ := t.exists_highlighter initial
    exact ⟨h, _, hcreate, heval enabled _ _⟩
  · exact block.build_mirrors hblock

/-- The octets of `# é`. -/
def LiveTree.headingSource : Bytes := [35, 32, 195, 169]

/-- A heading with its title in a field, under a section. -/
def LiveTree.heading : LiveTree headingSource where
  root := {
    type := "section", span := ⟨0, 4⟩, content := .raw [35, 32, 195, 169]
    children := [{
      type := "atx_heading", span := ⟨0, 4⟩, content := .raw [35, 32, 195, 169]
      children := [
        { type := "atx_h1_marker", span := ⟨0, 1⟩, content := .raw [35] },
        { type := "inline", span := ⟨1, 4⟩, field := .text "heading_content",
          content := .raw [32, 195, 169] }] }] }
  orderly := by decide +kernel
  live := by decide +kernel

/-- The title of a heading survives its snapshot. -/
theorem LiveTree.heading_title_survives :
    ∃ b, node (some (.octets headingSource)) (value heading.root) = .ok b ∧
      (Outline.build (some b) ["atx_heading"] "Headings").toOption =
        some ⟨"Headings", [⟨"é", ⟨0, 4⟩, 1⟩]⟩ := by
  obtain ⟨b, -, hb, -, -, -, houtline⟩ := heading.snapshot_agrees heading
  refine ⟨b, hb, ?_⟩
  rw [houtline]
  decide +kernel

end Limn.Snapshot
