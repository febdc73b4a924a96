import Limn.Parser
import Limn.Proofs.Nesting
import Limn.Proofs.Position

/-! # Inline regions as ranges

The inline grammar is told the spans of the nodes of one type, one for each position where such a
node stands and in the order of positions (`Node.Lists`). It expects these ranges in order and
apart. They are, if the tree is nested and no such node stands below another: of two positions of
which neither is above the other, the ways part at a common node (`Position.parting`), and what
stands below an earlier child ends before what stands below a later one starts
(`Node.Nested.apart_of_parting`).
-/

namespace Limn

/-! ## Where ways part -/

/-- Of two positions in order, the earlier one is above the later one, or the ways to them part at a
position where the earlier one takes an earlier child. -/
theorem Position.parting {p q : Position} (h : p < q) : p <+: q ∨
    ∃ (r : Position) (i j : Nat) (s t : Position), i < j ∧ p = r ++ i :: s ∧ q = r ++ j :: t := by
  induction p generalizing q with
  | nil => exact Or.inl List.nil_prefix
  | cons i p ih =>
      cases q with
      | nil => exact absurd h (List.not_lt_nil _)
      | cons j q =>
          rcases List.cons_lt_cons_iff.mp h with hij | ⟨rfl, hpq⟩
          · exact Or.inr ⟨[], i, j, p, q, hij, rfl, rfl⟩
          · rcases ih hpq with hprefix | ⟨r, k, l, s, t, hkl, rfl, rfl⟩
            · exact Or.inl (List.cons_prefix_cons.mpr ⟨rfl, hprefix⟩)
            · exact Or.inr ⟨i :: r, k, l, s, t, hkl, rfl, rfl⟩

namespace Node

variable {root n m : Node} {p q : Position}

theorem at?_append (p q : Position) : root.at? (p ++ q) = (root.at? p).bind (·.at? q) :=
  descend_append p q

theorem at?_cons_eq_some {i : Nat} :
    root.at? (i :: p) = some m ↔ ∃ c, root.children[i]? = some c ∧ c.at? p = some m :=
  descend_cons_eq_some

/-- What stands at a position of a nested tree is nested and lies within the root. -/
theorem Nested.at? (h : root.Nested) (hn : root.at? p = some n) :
    n.Nested ∧ n.span.Within root.span := by
  refine forall_at? (P := fun n => n.Nested ∧ n.span.Within root.span) (fun v hv => ?_) hn
  refine ⟨h.of_mem_walk hv, ?_⟩
  rw [walk_eq_preorder, preorder_eq, List.mem_cons] at hv
  rcases hv with rfl | hv
  · exact .refl _
  · exact h.within_of_mem hv

/-- **Below an earlier child and below a later one.** Where the ways to two nodes part, the earlier
node ends before the later one starts. -/
theorem Nested.apart_of_parting (h : root.Nested) {r s t : Position} {i j : Nat} (hij : i < j)
    (hn : root.at? (r ++ i :: s) = some n) (hm : root.at? (r ++ j :: t) = some m) :
    n.span.stop ≤ m.span.start := by
  rw [at?_append, Option.bind_eq_some_iff] at hn hm
  obtain ⟨fork, hfork, hn⟩ := hn
  obtain ⟨fork', hfork', hm⟩ := hm
  obtain rfl := Option.some.inj (hfork.symm.trans hfork')
  obtain ⟨a, ha, hn⟩ := at?_cons_eq_some.mp hn
  obtain ⟨b, hb, hm⟩ := at?_cons_eq_some.mp hm
  have hnested := (h.at? hfork).1
  have hleft := ((hnested.of_mem (List.mem_of_getElem? ha)).at? hn).2
  have hright := ((hnested.of_mem (List.mem_of_getElem? hb)).at? hm).2
  have hsiblings : a.span.stop ≤ b.span.start := by
    obtain ⟨hi, rfl⟩ := List.getElem?_eq_some_iff.mp ha
    obtain ⟨hj, rfl⟩ := List.getElem?_eq_some_iff.mp hb
    exact List.pairwise_iff_getElem.mp hnested.children_apart i j hi hj hij
  calc n.span.stop
      _ ≤ a.span.stop := hleft.2
      _ ≤ b.span.start := hsiblings
      _ ≤ m.span.start := hright.1

/-! ## Nodes of one type -/

/-- The spans are those of the nodes of a type: one for each position where such a node stands, in
the order of positions. -/
def Lists (root : Node) (type : Wording) (spans : List Span) : Prop :=
  ∃ places : List (Position × Node), places.map (·.2.span) = spans ∧
    (places.Pairwise fun a b => a.1 < b.1) ∧
    ∀ p n, (p, n) ∈ places ↔ root.at? p = some n ∧ n.type = type

/-- No node of a type stands below another one. -/
def Unnested (type : Wording) (root : Node) : Prop :=
  ∀ p n q m, root.at? p = some n → n.at? q = some m → n.type = type → m.type = type → q = []

/-- Whether nodes of a type are unnested can be seen on a walk. -/
theorem unnested_iff {type : Wording} : root.Unnested type ↔ ∀ v ∈ root.walk, v.node.type = type →
    ∀ w ∈ forestOrder v.node v.node.children, w.node.type ≠ type := by
  rw [← map_snd_spots]
  constructor
  · intro h v hv hvtype w hw hwtype
    obtain ⟨s, hs, rfl⟩ := List.mem_map.mp hv
    rw [← map_snd_forestSpots 0, List.mem_map] at hw
    obtain ⟨t, ht, rfl⟩ := hw
    obtain ⟨i, q, c, -, hc, hm⟩ := at?_of_mem_forestSpots ht
    have hbelow := h _ _ (i :: q) _ (at?_of_mem_spots hs) (at?_cons_eq_some.mpr ⟨c, hc, hm⟩)
      hvtype hwtype
    contradiction
  · intro h p n q m hn hm hntype hmtype
    obtain ⟨parent, hv, -⟩ := mem_spots_iff.mp hn
    cases q with
    | nil => rfl
    | cons i q =>
        obtain ⟨c, hc, hm⟩ := at?_cons_eq_some.mp hm
        obtain ⟨parent', hw⟩ := mem_forestSpots 0 n hc hm
        have hw := List.mem_map_of_mem (f := Prod.snd) hw
        rw [map_snd_forestSpots] at hw
        exact absurd hmtype (h _ (List.mem_map_of_mem hv) hntype _ hw)

instance (type : Wording) : DecidablePred (Unnested type) := fun _ =>
  decidable_of_iff _ unnested_iff.symm

/-- The inline regions are the spans of the inline nodes. -/
theorem lists_inlineRegions (root : Node) : root.Lists inlineType root.inlineRegions := by
  refine ⟨((root.spots none).filter fun s => s.2.node.type == inlineType).map
    fun s => (s.1, s.2.node), ?_, ?_, ?_⟩
  · unfold inlineRegions
    rw [← map_snd_spots, List.filter_map, List.map_map, List.map_map]
    rfl
  · rw [List.pairwise_map]
    exact (root.spots_increasing none).filter _
  · intro p n
    simp only [List.mem_map, List.mem_filter, beq_iff_eq, Prod.mk.injEq]
    constructor
    · rintro ⟨s, ⟨hs, htype⟩, rfl, rfl⟩
      exact ⟨at?_of_mem_spots hs, htype⟩
    · rintro ⟨hn, htype⟩
      obtain ⟨parent, hmem, -⟩ := mem_spots_iff.mp hn
      exact ⟨_, ⟨hmem, htype⟩, rfl, rfl⟩

/-- **Ranges in order and apart.** -/
theorem Nested.apart_of_lists (h : root.Nested) {type : Wording} (hunnested : root.Unnested type)
    {spans : List Span} (hspans : root.Lists type spans) :
    spans.Pairwise fun a b => a.stop ≤ b.start := by
  obtain ⟨places, rfl, hordered, hplaces⟩ := hspans
  rw [List.pairwise_map]
  apply hordered.imp_of_mem
  rintro ⟨p, n⟩ ⟨q, m⟩ hp hq hpq
  obtain ⟨hn, hntype⟩ := (hplaces p n).mp hp
  obtain ⟨hm, hmtype⟩ := (hplaces q m).mp hq
  rcases Position.parting hpq with ⟨r, rfl⟩ | ⟨r, i, j, s, t, hij, rfl, rfl⟩
  · -- the later node would stand below the earlier one
    rw [at?_append, hn] at hm
    obtain rfl := hunnested p n r m hn hm hntype hmtype
    exact absurd hpq (by rw [List.append_nil]; exact lt_irrefl _)
  · exact h.apart_of_parting hij hn hm

end Node

/-! ## Parsing -/

namespace Parser

/-- What becomes of a document once the block grammar has given its tree: the ranges are refused, or
the inline grammar breaks down on them, or it gives the other tree. -/
theorem parse_cases {p : Parser} {block inline : Grammar} {source : Bytes} {tree : Node}
    (hblock : p.block = some block) (hinline : p.inline = some inline)
    (htree : block.parse [] source = .ok tree) :
    let regions := tree.inlineRegions
    let given := inlineSource source regions
    let told : List GrammarRequest :=
      [.parse p.blockLanguage source, .ranges p.inlineLanguage regions]
    (∃ reason, inline.accept regions = .error reason ∧ (p.parse source).requests = told ∧
        (p.parse source).document.result = .error (.grammarCrash reason)) ∨
      inline.accept regions = .ok () ∧
        (p.parse source).requests = told ++ [.parse p.inlineLanguage given] ∧
          (p.parse source).document.result =
            match inline.parse regions given with
            | .error reason => .error (.grammarCrash reason)
            | .ok inlineTree => .ok ⟨some tree, some inlineTree, source, regions⟩ := by
  intro regions given told
  have hpair : p.grammarPair = .ok (block, inline) := by
    unfold grammarPair
    rw [hblock, hinline]
  unfold parse
  rw [hpair]
  dsimp only
  rw [htree]
  dsimp only
  cases inline.accept tree.inlineRegions with
  | error reason => exact Or.inl ⟨reason, rfl, rfl, rfl⟩
  | ok accepted =>
      refine Or.inr ⟨rfl, ?_⟩
      dsimp only [regions, given, told]
      cases inline.parse tree.inlineRegions (inlineSource source tree.inlineRegions) with
      | error reason => exact ⟨rfl, rfl⟩
      | ok inlineTree => exact ⟨rfl, rfl⟩

/-- **The inline grammar is given legal ranges.** Whatever tree the block grammar gives, the inline
grammar is told the spans of its inline nodes, each once and in order, and is asked for a tree only
with these ranges in force; the document that comes back has the same regions. If the tree is nested
and no inline node stands below another, each region ends before any later one starts. -/
theorem inline_ranges_in_order {p : Parser} {block inline : Grammar} {source : Bytes} {tree : Node}
    (hblock : p.block = some block) (hinline : p.inline = some inline)
    (htree : block.parse [] source = .ok tree) :
    ∃ regions, tree.Lists Node.inlineType regions ∧
      (p.parse source).requests =
        [.parse p.blockLanguage source, .ranges p.inlineLanguage regions] ++
          (if (inline.accept regions).isOk then
            [.parse p.inlineLanguage (inlineSource source regions)] else []) ∧
      (∀ d, (p.parse source).document.result = .ok d ↔ ∃ inlineTree,
        inline.accept regions = .ok () ∧
          inline.parse regions (inlineSource source regions) = .ok inlineTree ∧
            d = ⟨some tree, some inlineTree, source, regions⟩) ∧
      (tree.Nested → tree.Unnested Node.inlineType →
        regions.Pairwise fun a b => a.stop ≤ b.start) := by
  have hcases := parse_cases hblock hinline htree
  refine ⟨tree.inlineRegions, tree.lists_inlineRegions, ?_, ?_,
    fun hnested hunnested => hnested.apart_of_lists hunnested tree.lists_inlineRegions⟩
  · rcases hcases with ⟨reason, haccept, hrequests, -⟩ | ⟨haccept, hrequests, -⟩
    · rw [hrequests, haccept]
      rfl
    · rw [hrequests, haccept]
      rfl
  · intro d
    rcases hcases with ⟨reason, haccept, -, hresult⟩ | ⟨haccept, -, hresult⟩
    · rw [hresult, haccept]
      simp
    · rw [hresult, haccept]
      cases inline.parse tree.inlineRegions (inlineSource source tree.inlineRegions) with
      | error reason => simp
      | ok inlineTree => simp [eq_comm]

/-- Three sections with a title each, the second of them inside the first. The ranges that are left
over from an earlier document do not matter. -/
theorem ranges_of_three_titles :
    let tree : Node :=
      { type := "document", span := ⟨0, 20⟩
        children := [Outline.headed ⟨0, 12⟩ ⟨0, 4⟩ [Outline.headed ⟨6, 12⟩ ⟨6, 10⟩ []],
          Outline.headed ⟨12, 20⟩ ⟨12, 16⟩ []] }
    let block : Grammar := ⟨fun _ => .ok (), fun _ _ => .ok tree⟩
    let inline : Grammar :=
      { accept := fun spans =>
          if spans.IsChain fun a b => a.stop ≤ b.start then .ok () else .error "overlap"
        parse := fun _ source => .ok { type := "inline", span := ⟨0, source.length⟩ } }
    let p : Parser :=
      { blockLanguage := .text "markdown", inlineLanguage := .text "markdown_inline"
        block := some block, inline := some inline, reasons := [], ranges := [⟨30, 40⟩] }
    tree.Nested ∧ tree.Unnested Node.inlineType ∧
      ∃ d, (p.parse [35, 32, 97]).document.result = .ok d ∧
        d.regions = [⟨0, 4⟩, ⟨6, 10⟩, ⟨12, 16⟩] ∧
          d.regions.Pairwise fun a b => a.stop ≤ b.start := by
  intro tree block inline p
  have hnested : tree.Nested := by decide
  have hunnested : tree.Unnested Node.inlineType := by decide +kernel
  have hblock : p.block = some block := rfl
  have hinline : p.inline = some inline := rfl
  have htree : block.parse [] [35, 32, 97] = .ok tree := rfl
  obtain ⟨regions, -, hrequests, hdocument, hapart⟩ := inline_ranges_in_order hblock hinline htree
  have hregions : regions = [⟨0, 4⟩, ⟨6, 10⟩, ⟨12, 16⟩] := by
    have htold : ∃ later, (p.parse [35, 32, 97]).requests =
        .parse p.blockLanguage [35, 32, 97] ::
          .ranges p.inlineLanguage [⟨0, 4⟩, ⟨6, 10⟩, ⟨12, 16⟩] :: later := ⟨_, by rfl⟩
    obtain ⟨later, htold⟩ := htold
    rw [hrequests] at htold
    simp only [List.cons_append, List.cons.injEq, GrammarRequest.ranges.injEq] at htold
    exact htold.2.1.2
  subst hregions
  refine ⟨hnested, hunnested, _, (hdocument _).mpr ⟨_, by rfl, rfl, rfl⟩, rfl,
    hapart hnested hunnested⟩

end Parser

end Limn
