import Limn.Outline
import Limn.Proofs.Walk
import Mathlib.Tactic

/-! # Trees whose spans nest

A parser lays out the nodes of a tree so that no span is crossed, children lie within their parent
and siblings follow one another. In such a tree, of any two nodes that a walk comes by, the later
one lies within the earlier one or after it (`Nested.walk_disposed`): the two are an ancestor and a
descendant, or stand below two siblings. The headings of an outline are picked from a walk, so
their spans can be folded (`Outline.fold_ranges_never_cross`).
-/

namespace Limn

namespace Span

/-- The span lies within another one. -/
def Within (s t : Span) : Prop :=
  t.start ≤ s.start ∧ s.stop ≤ t.stop

/-- Where a span may lie that comes later in a walk: within the earlier one, or after it. -/
def Disposed (earlier later : Span) : Prop :=
  later.Within earlier ∨ earlier.stop ≤ later.start

instance (s t : Span) : Decidable (s.Within t) :=
  inferInstanceAs (Decidable (_ ∧ _))

theorem Within.refl (s : Span) : s.Within s :=
  ⟨le_rfl, le_rfl⟩

theorem Within.trans {s t u : Span} (h : s.Within t) (h' : t.Within u) : s.Within u :=
  ⟨h'.1.trans h.1, h.2.trans h'.2⟩

end Span

namespace Node

/-! ## Layout -/

/-- The spans of a node and its children are in order. -/
@[mk_iff]
structure LaidOut (n : Node) : Prop where
  forward : n.span.start ≤ n.span.stop
  within : ∀ c ∈ n.children, c.span.Within n.span
  inTurn : n.children.IsChain fun a b => a.span.stop ≤ b.span.start

instance (n : Node) : Decidable n.LaidOut :=
  decidable_of_iff _ (laidOut_iff n).symm

/-- The spans of a tree nest: those of each node and its children are in order. -/
inductive Nested : Node → Prop where
  | node {n : Node} : n.LaidOut → (∀ c ∈ n.children, Nested c) → Nested n

theorem Nested.laidOut {n : Node} (h : n.Nested) : n.LaidOut := by
  cases h
  assumption

theorem Nested.of_mem {n c : Node} (h : n.Nested) (hc : c ∈ n.children) : c.Nested := by
  cases h with
  | node _ hchildren => exact hchildren c hc

/-- Siblings that follow one another do so at any distance, as none of them is crossed. -/
theorem Nested.children_apart {n : Node} (h : n.Nested) :
    n.children.Pairwise fun a b => a.span.stop ≤ b.span.start := by
  have hchain : n.children.IsChain fun a b =>
      a.span.stop ≤ b.span.start ∧ b.span.start ≤ b.span.stop := by
    apply h.laidOut.inTurn.imp_of_mem_imp
    intro a b _ hb hab
    exact ⟨hab, (h.of_mem hb).laidOut.forward⟩
  have : IsTrans Node fun a b =>
      a.span.stop ≤ b.span.start ∧ b.span.start ≤ b.span.stop := by
    constructor
    rintro a b c ⟨hab, hb⟩ ⟨hbc, hc⟩
    exact ⟨by omega, hc⟩
  exact hchain.pairwise.imp And.left

/-! ## Walks of nested trees -/

/-- Every node below a row of nested trees is nested itself and lies within one of them. -/
theorem nested_below {v : Visit} : ∀ (ns : List Node) {parent : Node}, (∀ n ∈ ns, n.Nested) →
    v ∈ forestOrder parent ns → v.node.Nested ∧ ∃ n ∈ ns, v.node.span.Within n.span := by
  intro ns
  induction ns using forest_induction with
  | nil =>
      intro parent _ hv
      simp [forestOrder] at hv
  | cons n ns ihchildren ih =>
      intro parent hnested hv
      rw [List.forall_mem_cons] at hnested
      obtain ⟨hn, hns⟩ := hnested
      rw [mem_forestOrder_cons] at hv
      rcases hv with rfl | hv | hv
      · exact ⟨hn, n, List.mem_cons_self, .refl _⟩
      · obtain ⟨hv, c, hc, hwithin⟩ := ihchildren (fun c hc => hn.of_mem hc) hv
        exact ⟨hv, n, List.mem_cons_self, hwithin.trans (hn.laidOut.within c hc)⟩
      · obtain ⟨hv, m, hm, hwithin⟩ := ih hns hv
        exact ⟨hv, m, List.mem_cons_of_mem _ hm, hwithin⟩

/-- What comes below a nested node lies within it. -/
theorem Nested.within_of_mem {n : Node} (h : n.Nested) {v : Visit}
    (hv : v ∈ forestOrder n n.children) : v.node.span.Within n.span := by
  obtain ⟨-, c, hc, hwithin⟩ := nested_below n.children (fun c hc => h.of_mem hc) hv
  exact hwithin.trans (h.laidOut.within c hc)

/-- A row of nested trees that follow one another is walked in order of position. -/
theorem forestOrder_disposed : ∀ (ns : List Node) {parent : Node}, (∀ n ∈ ns, n.Nested) →
    (ns.Pairwise fun a b => a.span.stop ≤ b.span.start) →
      (forestOrder parent ns).Pairwise fun v w => v.node.span.Disposed w.node.span := by
  intro ns
  induction ns using forest_induction with
  | nil =>
      intro parent _ _
      simp [forestOrder]
  | cons n ns ihchildren ih =>
      intro parent hnested hapart
      rw [List.forall_mem_cons] at hnested
      rw [List.pairwise_cons] at hapart
      obtain ⟨hn, hns⟩ := hnested
      obtain ⟨hfirst, hrest⟩ := hapart
      rw [forestOrder, preorder_eq, List.pairwise_append, List.pairwise_cons]
      refine ⟨⟨?_, ?_⟩, ih hns hrest, ?_⟩
      · intro v hv
        exact Or.inl (hn.within_of_mem hv)
      · exact ihchildren (fun c hc => hn.of_mem hc) hn.children_apart
      · -- the first tree ends before any later one starts, and with it all that is below it
        intro v hv w hw
        right
        have hleft : v.node.span.Within n.span := by
          rcases List.mem_cons.mp hv with rfl | hv
          · exact .refl _
          · exact hn.within_of_mem hv
        obtain ⟨-, m, hm, hright⟩ := nested_below ns hns hw
        calc v.node.span.stop
            _ ≤ n.span.stop := hleft.2
            _ ≤ m.span.start := hfirst m hm
            _ ≤ w.node.span.start := hright.1

/-- **Earlier and later nodes.** Of two nodes of a nested tree that a walk comes by, the later one
lies within the earlier one or after it. -/
theorem Nested.walk_disposed {root : Node} (h : root.Nested) :
    root.walk.Pairwise fun v w => v.node.span.Disposed w.node.span := by
  rw [walk_eq_preorder, preorder_eq, List.pairwise_cons]
  constructor
  · intro v hv
    exact Or.inl (h.within_of_mem hv)
  · exact forestOrder_disposed root.children (fun c hc => h.of_mem hc) h.children_apart

theorem Nested.of_mem_walk {root : Node} (h : root.Nested) {v : Visit} (hv : v ∈ root.walk) :
    v.node.Nested := by
  rw [walk_eq_preorder, preorder_eq, List.mem_cons] at hv
  rcases hv with rfl | hv
  · exact h
  · exact (nested_below root.children (fun c hc => h.of_mem hc) hv).1

theorem nested_of_forestOrder : ∀ (ns : List Node) {parent : Node},
    (∀ v ∈ forestOrder parent ns, v.node.LaidOut) → ∀ n ∈ ns, n.Nested := by
  intro ns
  induction ns using forest_induction with
  | nil =>
      intro parent _ n hn
      exact absurd hn List.not_mem_nil
  | cons n ns ihchildren ih =>
      intro parent h
      rw [forall_forestOrder_cons] at h
      obtain ⟨hn, hchildren, hns⟩ := h
      rw [List.forall_mem_cons]
      exact ⟨.node hn (ihchildren hchildren), ih hns⟩

/-- Whether a tree is nested can be seen on a walk. -/
theorem nested_iff {root : Node} : root.Nested ↔ ∀ v ∈ root.walk, v.node.LaidOut := by
  constructor
  · intro h v hv
    exact (h.of_mem_walk hv).laidOut
  · intro h
    rw [forall_walk] at h
    exact .node h.1 (nested_of_forestOrder root.children h.2)

instance : DecidablePred Nested := fun _ =>
  decidable_of_iff _ nested_iff.symm

end Node

/-! ## Fold ranges -/

namespace Outline

theorem parts_of_heading {types : List Wording} {n : Node} {e : OutlineEntry}
    (h : heading? types n = some e) : e.span = n.span ∧ e.depth = 1 := by
  unfold heading? at h
  split at h
  · obtain ⟨name, -, rfl⟩ := Option.map_eq_some_iff.mp h
    exact ⟨rfl, rfl⟩
  · contradiction

/-- **Fold ranges never cross.** In the outline of a tree whose spans nest, headings come in order
of their starts, and of two headings the later one lies within the section of the earlier or after
it. -/
theorem fold_ranges_never_cross {root : Node} (h : root.Nested) (types : List Wording)
    (group : String) :
    ∃ o, build (some root) types group = .ok o ∧
      (o.entries.Pairwise fun a b => a.span.start ≤ b.span.start) ∧
      o.entries.Pairwise fun a b => b.span.Within a.span ∨ a.span.stop ≤ b.span.start := by
  refine ⟨_, rfl, ?_, ?_⟩
  · rw [List.pairwise_filterMap]
    apply h.walk_disposed.imp_of_mem
    intro v w hv _ hdisposed a ha b hb
    rw [(parts_of_heading ha).1, (parts_of_heading hb).1]
    rcases hdisposed with hwithin | hafter
    · exact hwithin.1
    · exact (h.of_mem_walk hv).laidOut.forward.trans hafter
  · rw [List.pairwise_filterMap]
    apply h.walk_disposed.imp
    intro v w hdisposed a ha b hb
    rw [(parts_of_heading ha).1, (parts_of_heading hb).1]
    exact hdisposed

/-- A section that starts with a heading, over the given subsections. -/
def headed (span heading : Span) (subsections : List Node) : Node where
  type := "section"
  span
  children :=
    { type := "atx_heading", span := heading
      children := [{ type := "inline", span := heading, field := .text titleField
                     content := .literal "title" }] } :: subsections

/-- A subsection folds within its section, and the next section follows both. -/
theorem folds_of_three_sections :
    let root : Node :=
      { type := "document", span := ⟨0, 20⟩
        children := [headed ⟨0, 12⟩ ⟨0, 4⟩ [headed ⟨6, 12⟩ ⟨6, 10⟩ []],
          headed ⟨12, 20⟩ ⟨12, 16⟩ []] }
    root.Nested ∧ ∃ o, build (some root) (defaultTypes.map .text) defaultGroup = .ok o ∧
      o.entries.map (·.span) = [⟨0, 12⟩, ⟨6, 12⟩, ⟨12, 20⟩] ∧
      o.entries.Pairwise fun a b => b.span.Within a.span ∨ a.span.stop ≤ b.span.start := by
  intro root
  have hnested : root.Nested := by decide
  obtain ⟨o, ho, -, hdisposed⟩ :=
    fold_ranges_never_cross hnested (defaultTypes.map .text) defaultGroup
  refine ⟨hnested, o, ho, ?_, hdisposed⟩
  cases ho
  decide

end Outline

end Limn
