import Limn.Highlight
import Limn.Proofs.Walk
import Mathlib.Tactic
import Mathlib.Data.Prod.Lex

/-! # Matches of a table of features

A *hit* is a rule of the active features together with a visited node that it matches. The table
is indexed by the types that patterns can capture and a tree keeps one match for each node
identity; neither loses anything: `matchTree_eq` says that the matches of a tree are its hits,
listed one by one and folded with `keep`, and `resolved_keepAll` that the fold keeps the hit of
highest priority for every identity.
-/

namespace Limn

/-! ## Patterns -/

/-- A pattern without anything in it that is no pattern. -/
inductive Pattern.WellFormed : Pattern → Prop where
  | oneOf (types : List Wording) : WellFormed (.oneOf types)
  | childOf (parent child : List Wording) (field : Option String) :
      WellFormed (.childOf parent child field)
  | either {alternatives : List Pattern} (h : ∀ p ∈ alternatives, WellFormed p) :
      WellFormed (.either alternatives)

namespace Pattern

@[simp] theorem wellFormed_oneOf (types : List Wording) : (oneOf types).WellFormed :=
  .oneOf types

@[simp] theorem wellFormed_childOf (parent child : List Wording) (field : Option String) :
    (childOf parent child field).WellFormed :=
  .childOf parent child field

@[simp] theorem wellFormed_either {alternatives : List Pattern} :
    (either alternatives).WellFormed ↔ ∀ p ∈ alternatives, p.WellFormed := by
  constructor
  · intro h
    cases h with
    | either h => exact h
  · exact .either

/-- An answer about a node that these types foresee: it is no error, and yes only for a node of
one of the types. -/
def Foreseen (types : List Wording) (node : Node) (answer : Except Error Bool) : Prop :=
  ∃ b, answer = .ok b ∧ (b = true → node.type ∈ types)

theorem captures_alternatives {node : Node} {parent : Option Node} :
    ∀ alternatives : List Pattern,
      (∀ p ∈ alternatives, ∃ types, p.captures = .ok types ∧
        Foreseen types node (p.accepts node parent)) →
      ∃ types, allCaptures alternatives = .ok types ∧
        Foreseen types node (anyAccepts node parent alternatives)
  | [], _ => ⟨[], rfl, false, rfl, by simp⟩
  | p :: rest, h => by
      obtain ⟨first, hfirst, b, hb, hfst⟩ := h p List.mem_cons_self
      obtain ⟨others, hothers, c, hc, hsnd⟩ :=
        captures_alternatives rest (fun q hq => h q (List.mem_cons_of_mem _ hq))
      refine ⟨(first ++ others).eraseDups, ?_, ?_⟩
      · rw [allCaptures, hfirst, hothers]
        rfl
      · cases b with
        | true =>
            refine ⟨true, ?_, fun _ => ?_⟩
            · rw [anyAccepts, hb]
              rfl
            · simp [hfst rfl]
        | false =>
            refine ⟨c, ?_, fun hct => ?_⟩
            · rw [anyAccepts, hb, ← hc]
              rfl
            · simp [hsnd hct]

/-- **The index of a pattern loses nothing.** -/
theorem WellFormed.captures {p : Pattern} (hp : p.WellFormed) (node : Node)
    (parent : Option Node) :
    ∃ types, p.captures = .ok types ∧ Foreseen types node (p.accepts node parent) := by
  induction hp with
  | oneOf types =>
      refine ⟨types.eraseDups, by rw [Pattern.captures], types.contains node.type, ?_, ?_⟩
      · rw [accepts]
      · intro h
        simpa using h
  | childOf parents children field =>
      refine ⟨children.eraseDups, by rw [Pattern.captures],
        childAccepts parents children field node parent, ?_, ?_⟩
      · rw [accepts]
      · intro h
        cases parent with
        | none => simp [childAccepts] at h
        | some parent =>
            simp only [childAccepts, Bool.and_eq_true, List.contains_iff_mem] at h
            simpa using h.1.1
  | either _ ih =>
      rw [Pattern.captures, accepts]
      exact captures_alternatives _ ih

/-- The types by which a pattern is indexed. -/
def types (p : Pattern) : List Wording :=
  p.captures.toOption.getD []

/-- The pattern matches the node. -/
def holds (p : Pattern) (node : Node) (parent : Option Node) : Bool :=
  (p.accepts node parent).toOption.getD false

theorem WellFormed.captures_eq {p : Pattern} (hp : p.WellFormed) :
    p.captures = .ok p.types := by
  obtain ⟨_, h, -⟩ := hp.captures default none
  rw [types, h]
  rfl

theorem WellFormed.accepts_eq {p : Pattern} (hp : p.WellFormed) (node : Node)
    (parent : Option Node) : p.accepts node parent = .ok (p.holds node parent) := by
  obtain ⟨types, -, b, h, -⟩ := hp.captures node parent
  rw [holds, h]
  rfl

theorem WellFormed.mem_types {p : Pattern} (hp : p.WellFormed) {node : Node}
    {parent : Option Node} (h : p.holds node parent = true) : node.type ∈ p.types := by
  obtain ⟨types, hc, b, ha, hmem⟩ := hp.captures node parent
  rw [holds, ha] at h
  rw [Pattern.types, hc]
  exact hmem h

theorem accepts_eq_true_iff {p : Pattern} {node : Node} {parent : Option Node} :
    p.accepts node parent = .ok true ↔ p.holds node parent = true := by
  rw [holds]
  cases p.accepts node parent with
  | error e => simp [Except.toOption]
  | ok b => simp [Except.toOption]

end Pattern

/-! ## Tables -/

/-- A table of features whose patterns are all patterns. -/
structure Table where
  features : List Feature
  wellFormed : ∀ f ∈ features, ∀ r ∈ f.rules, r.pattern.WellFormed

/-- The table for Markdown. -/
def Table.markdown : Table where
  features := Feature.markdown
  wellFormed := by
    simp [Feature.markdown, Feature.paragraph, Feature.paragraphInline, Feature.delimiter]

/-- A choice among the features of a table by declared names, or none made. -/
structure Table.Choice (t : Table) where
  names : Option (List String)
  declared : ∀ chosen ∈ names, ∀ name ∈ chosen, name ∈ Feature.names t.features

/-- The features with chosen names, in order of declaration; without a choice, all. -/
def Feature.chosen (features : List Feature) : Option (List String) → List Feature
  | none => features
  | some names => features.filter fun f => names.contains f.name

/-- The features of a table that are on: those of the call's choice if it makes one, else those
of the choice made beforehand. -/
def Table.active (t : Table) (initial enabled : t.Choice) : List Feature :=
  Feature.chosen t.features (enabled.names <|> initial.names)

theorem Feature.select_chosen {features : List Feature} {names : Option (List String)}
    (h : ∀ chosen ∈ names, ∀ name ∈ chosen, name ∈ Feature.names features) :
    Feature.select features names = .ok (Feature.chosen features names) := by
  cases names with
  | none => rfl
  | some names =>
      have hnone : names.filter (fun name => !(Feature.names features).contains name) = [] := by
        rw [List.filter_eq_nil_iff]
        intro name hname
        simp [h names rfl name hname]
      rw [Feature.select, hnone]
      rfl

/-- Choosing the names of chosen features chooses the same features again. -/
theorem Feature.chosen_names {features : List Feature} (names : Option (List String)) :
    Feature.chosen features (some (Feature.names (Feature.chosen features names))) =
      Feature.chosen features names := by
  cases names with
  | none =>
      rw [Feature.chosen, Feature.chosen, List.filter_eq_self]
      intro f hf
      simpa [Feature.names] using ⟨f, hf, rfl⟩
  | some names =>
      rw [Feature.chosen, Feature.chosen]
      apply List.filter_congr
      intro f hf
      rw [Bool.eq_iff_iff]
      simp only [List.contains_iff_mem, Feature.names, List.mem_map, List.mem_filter]
      constructor
      · rintro ⟨g, ⟨-, hg⟩, hname⟩
        exact hname ▸ hg
      · intro h
        exact ⟨f, ⟨hf, h⟩, rfl⟩

theorem Feature.mem_of_mem_chosen {features : List Feature} {names : Option (List String)}
    {f : Feature} (h : f ∈ Feature.chosen features names) : f ∈ features := by
  unfold Feature.chosen at h
  split at h
  · exact h
  · exact List.mem_of_mem_filter h

/-- Chosen features can be switched on by their names. -/
theorem Feature.select_names_chosen (features : List Feature) (names : Option (List String)) :
    Feature.select features (some (Feature.names (Feature.chosen features names))) =
      .ok (Feature.chosen features names) := by
  rw [Feature.select_chosen, Feature.chosen_names]
  rintro chosen ⟨⟩ name hname
  simp only [Feature.names, List.mem_map] at hname ⊢
  obtain ⟨f, hf, rfl⟩ := hname
  exact ⟨f, Feature.mem_of_mem_chosen hf, rfl⟩

theorem declaredRules_wellFormed {features : List Feature}
    (h : ∀ f ∈ features, ∀ r ∈ f.rules, r.pattern.WellFormed) :
    ∀ fr ∈ declaredRules features, fr.2.pattern.WellFormed := by
  rintro ⟨f, r⟩ hfr
  simp only [declaredRules, List.mem_flatMap, List.mem_map, Prod.mk.injEq] at hfr
  obtain ⟨g, hg, s, hs, rfl, rfl⟩ := hfr
  exact h g hg s hs

theorem Table.active_wellFormed (t : Table) (initial enabled : t.Choice) :
    ∀ fr ∈ declaredRules (t.active initial enabled), fr.2.pattern.WellFormed :=
  declaredRules_wellFormed fun f hf => t.wellFormed f (Feature.mem_of_mem_chosen hf)

/-- A highlighter of a table evaluates the features that are on. -/
theorem Table.evaluate_eq (t : Table) (initial enabled : t.Choice) (block inline : Node) :
    ∃ h, Highlighter.create t.features initial.names = .ok h ∧
      h.evaluate (some block) (some inline) enabled.names =
        evaluateFeatures block inline (t.active initial enabled) := by
  refine ⟨⟨t.features, Feature.names (Feature.chosen t.features initial.names)⟩, ?_, ?_⟩
  · rw [Highlighter.create, Feature.select_chosen initial.declared]
    rfl
  · have hselect : Feature.select t.features
        (some (enabled.names.getD (Feature.names (Feature.chosen t.features initial.names)))) =
          .ok (t.active initial enabled) := by
      rw [Table.active]
      cases henabled : enabled.names with
      | none =>
          rw [Option.getD_none, Feature.select_names_chosen]
          rfl
      | some names =>
          rw [Option.getD_some, ← henabled, Feature.select_chosen enabled.declared, henabled]
          rfl
    rw [Highlighter.evaluate, hselect]
    rfl

/-! ## Hits -/

/-- A rule with its place among all rules, and a visited node with its place in the walk. -/
structure Hit where
  feature : Feature
  rule : Rule
  rank : Nat
  node : Node
  parent : Option Node
  visit : Nat

namespace Hit

/-- Overriding features first, then the place of the rule, then that of the node. -/
def priority (h : Hit) : Priority :=
  ⟨h.feature.override, h.rank, h.visit⟩

/-- What painting knows of a hit. -/
def toMatch (h : Hit) : Match :=
  ⟨h.node.type, h.node.span, h.rule.category, h.feature.name, h.priority⟩

@[simp] theorem toMatch_type (h : Hit) : h.toMatch.type = h.node.type := rfl
@[simp] theorem toMatch_span (h : Hit) : h.toMatch.span = h.node.span := rfl
@[simp] theorem toMatch_category (h : Hit) : h.toMatch.category = h.rule.category := rfl
@[simp] theorem toMatch_feature (h : Hit) : h.toMatch.feature = h.feature.name := rfl
@[simp] theorem toMatch_priority (h : Hit) : h.toMatch.priority = h.priority := rfl

end Hit

/-- The tree that a rule looks at. -/
def treeOf (block inline : Node) : Layer → Option Node
  | .block => some block
  | .inline => some inline
  | .other _ => none

/-- **A match.** The rule is one of the active features' rules, counted from one in order of
declaration; the node is visited at its place in the pre-order of the rule's tree; and the rule's
pattern accepts it under its parent. -/
structure IsHit (block inline : Node) (active : List Feature) (h : Hit) : Prop where
  declared : ((h.feature, h.rule), h.rank) ∈ (declaredRules active).zipIdx 1
  visited : ∃ root, treeOf block inline h.rule.layer = some root ∧
    (⟨h.node, h.parent⟩, h.visit) ∈ (root.preorder none).zipIdx
  accepted : h.rule.pattern.accepts h.node h.parent = .ok true

/-- Places in a row determine what stands there. -/
theorem eq_of_mem_zipIdx {α : Type} {l : List α} {k i : Nat} {a b : α}
    (ha : (a, i) ∈ l.zipIdx k) (hb : (b, i) ∈ l.zipIdx k) : a = b := by
  rw [List.mk_mem_zipIdx_iff_le_and_getElem?_sub] at ha hb
  exact Option.some.inj (ha.2.symm.trans hb.2)

/-- **Priorities do not tie.** Two hits of one priority are the same hit. -/
theorem IsHit.eq_of_priority {block inline : Node} {active : List Feature} {h k : Hit}
    (hh : IsHit block inline active h) (hk : IsHit block inline active k)
    (heq : h.priority = k.priority) : h = k := by
  obtain ⟨f, r, rank, node, parent, visit⟩ := h
  obtain ⟨g, s, rank', node', parent', visit'⟩ := k
  simp only [Hit.priority, Priority.mk.injEq] at heq
  obtain ⟨-, rfl, rfl⟩ := heq
  have hrule := eq_of_mem_zipIdx hh.declared hk.declared
  simp only [Prod.mk.injEq] at hrule
  obtain ⟨rfl, rfl⟩ := hrule
  obtain ⟨root, hroot, hvisit⟩ := hh.visited
  obtain ⟨root', hroot', hvisit'⟩ := hk.visited
  obtain rfl : root = root' := Option.some.inj (hroot.symm.trans hroot')
  have hnode := eq_of_mem_zipIdx hvisit hvisit'
  simp only [Node.Visit.mk.injEq] at hnode
  obtain ⟨rfl, rfl⟩ := hnode
  rfl

/-- The hits on one visited node of a tree, in order of declaration. -/
def hitsAt (layer : Layer) (active : List Feature) (v : Node.Visit) (visit : Nat) : List Hit :=
  (((declaredRules active).zipIdx 1).filter fun p =>
      p.1.2.layer == layer && p.1.2.pattern.holds v.node v.parent).map
    fun p => ⟨p.1.1, p.1.2, p.2, v.node, v.parent, visit⟩

/-- The hits on one tree, in order of visiting. -/
def hitsIn (root : Node) (layer : Layer) (active : List Feature) : List Hit :=
  (root.preorder none).zipIdx.flatMap fun p => hitsAt layer active p.1 p.2

theorem mem_hitsIn {root : Node} {layer : Layer} {active : List Feature} {h : Hit} :
    h ∈ hitsIn root layer active ↔
      h.rule.layer = layer ∧ ((h.feature, h.rule), h.rank) ∈ (declaredRules active).zipIdx 1 ∧
        (⟨h.node, h.parent⟩, h.visit) ∈ (root.preorder none).zipIdx ∧
        h.rule.pattern.accepts h.node h.parent = .ok true := by
  simp only [hitsIn, hitsAt, List.mem_flatMap, List.mem_map, List.mem_filter, Bool.and_eq_true,
    beq_iff_eq, Pattern.accepts_eq_true_iff]
  constructor
  · rintro ⟨⟨v, visit⟩, hv, ⟨⟨f, r⟩, rank⟩, ⟨hr, hlayer, hholds⟩, rfl⟩
    exact ⟨hlayer, hr, hv, hholds⟩
  · rintro ⟨hlayer, hr, hv, hholds⟩
    exact ⟨(⟨h.node, h.parent⟩, h.visit), hv, ((h.feature, h.rule), h.rank),
      ⟨hr, hlayer, hholds⟩, rfl⟩

/-- The hits are those on the block tree and those on the inline tree. -/
theorem isHit_iff {block inline : Node} {active : List Feature} {h : Hit} :
    IsHit block inline active h ↔
      h ∈ hitsIn block .block active ∨ h ∈ hitsIn inline .inline active := by
  simp only [mem_hitsIn]
  constructor
  · rintro ⟨hdeclared, ⟨root, hroot, hvisit⟩, haccepted⟩
    cases hlayer : h.rule.layer with
    | block =>
        rw [hlayer] at hroot
        cases hroot
        exact Or.inl ⟨rfl, hdeclared, hvisit, haccepted⟩
    | inline =>
        rw [hlayer] at hroot
        cases hroot
        exact Or.inr ⟨rfl, hdeclared, hvisit, haccepted⟩
    | other name =>
        rw [hlayer] at hroot
        cases hroot
  · rintro (⟨hlayer, hdeclared, hvisit, haccepted⟩ | ⟨hlayer, hdeclared, hvisit, haccepted⟩)
    · exact ⟨hdeclared, ⟨block, by rw [hlayer]; rfl, hvisit⟩, haccepted⟩
    · exact ⟨hdeclared, ⟨inline, by rw [hlayer]; rfl, hvisit⟩, haccepted⟩

/-! ## The matches of a tree are its hits, resolved -/

/-- A fold whose steps cannot fail. -/
theorem foldlM_ok {α β : Type} {f : β → α → Except Error β} {g : β → α → β} :
    ∀ (l : List α) (b : β), (∀ b, ∀ a ∈ l, f b a = .ok (g b a)) →
      l.foldlM f b = .ok (l.foldl g b)
  | [], b, _ => rfl
  | a :: rest, b, h => by
      rw [List.foldlM_cons, h b a List.mem_cons_self, List.foldl_cons]
      exact foldlM_ok rest (g b a) (fun b a ha => h b a (List.mem_cons_of_mem _ ha))

/-- A rule of the table as it stands in the index. -/
def indexed (p : (Feature × Rule) × Nat) : IndexedRule :=
  ⟨p.2, p.1.1, p.1.2, p.1.2.pattern.types⟩

theorem indexRules_eq (layer : Layer) : ∀ (rules : List (Feature × Rule)) (rank : Nat),
    (∀ fr ∈ rules, fr.2.pattern.WellFormed) →
      indexRules layer rank rules =
        .ok (((rules.zipIdx rank).filter fun p => p.1.2.layer == layer).map indexed)
  | [], rank, _ => rfl
  | (f, r) :: rest, rank, h => by
      have ih := indexRules_eq layer rest (rank + 1) (fun fr hfr => h fr (List.mem_cons_of_mem _ hfr))
      rw [indexRules, List.zipIdx_cons]
      by_cases hlayer : r.layer = layer
      · rw [if_pos hlayer, (h (f, r) List.mem_cons_self).captures_eq, ih,
          List.filter_cons_of_pos (by simpa using hlayer)]
        rfl
      · rw [if_neg hlayer, ih, List.filter_cons_of_neg (by simpa using hlayer)]

/-- Keep the hits of a row one after the other. -/
def keepAll (held : List Match) (hits : List Hit) : List Match :=
  hits.foldl (fun held h => keep h.toMatch held) held

theorem matchVisit_eq {layer : Layer} {active : List Feature}
    (h : ∀ fr ∈ declaredRules active, fr.2.pattern.WellFormed) (held : List Match) (visit : Nat)
    (v : Node.Visit) :
    matchVisit ((((declaredRules active).zipIdx 1).filter fun p => p.1.2.layer == layer).map indexed)
        held visit v =
      .ok (keepAll held (hitsAt layer active v visit)) := by
  have hwf : ∀ p ∈ (declaredRules active).zipIdx 1, p.1.2.pattern.WellFormed := by
    rintro ⟨fr, rank⟩ hp
    exact h fr (List.fst_mem_of_mem_zipIdx hp)
  rw [matchVisit, foldlM_ok (g := fun held r =>
    if r.rule.pattern.holds v.node v.parent then
      keep ⟨v.node.type, v.node.span, r.rule.category, r.feature.name,
        ⟨r.feature.override, r.rank, visit⟩⟩ held
    else held)]
  · -- both sides fold over the whole table, and what the index leaves out does not match
    rw [keepAll, hitsAt, candidates, List.filter_map, List.foldl_map, List.foldl_map,
      List.filter_filter, List.foldl_filter, List.foldl_filter]
    refine congrArg Except.ok (List.foldl_ext _ _ held ?_)
    intro held p hp
    simp only [Function.comp_apply, indexed, Bool.and_eq_true, List.contains_iff_mem, beq_iff_eq]
    by_cases hlayer : p.1.2.layer = layer
    · by_cases hholds : p.1.2.pattern.holds v.node v.parent = true
      · have htype := (hwf p hp).mem_types hholds
        simp only [hlayer, hholds, htype, and_self, if_true]
        rfl
      · simp only [hholds, and_false, if_false, Bool.false_eq_true, ite_self]
    · simp only [hlayer, and_false, false_and, if_false]
  · intro held r hr
    simp only [candidates, List.mem_filter, List.mem_map] at hr
    obtain ⟨⟨p, ⟨hp, -⟩, rfl⟩, -⟩ := hr
    rw [show (indexed p).rule.pattern.accepts v.node v.parent = _ from (hwf p hp).accepts_eq _ _]
    show (if p.1.2.pattern.holds v.node v.parent = true then _ else _) = _
    split <;> simp_all [indexed]

/-- **The index loses nothing.** The matches of a tree are its hits, each kept unless one of at
least its priority is held for its node. -/
theorem matchTree_eq {root : Node} {layer : Layer} {active : List Feature}
    (h : ∀ fr ∈ declaredRules active, fr.2.pattern.WellFormed) :
    matchTree root layer active = .ok (keepAll [] (hitsIn root layer active)) := by
  rw [matchTree, ruleIndex, indexRules_eq layer _ _ h, Node.walk_eq_preorder]
  refine (foldlM_ok _ [] fun held p _ => matchVisit_eq h held p.2 p.1).trans ?_
  rw [keepAll, hitsIn, List.foldl_flatMap]
  rfl

/-! ## Priorities in order -/

/-- The parts of a priority, to be compared from the first to the last. -/
def Priority.key (p : Priority) : Bool ×ₗ ℕ ×ₗ ℕ :=
  toLex (p.override, toLex (p.rank, p.visit))

theorem Priority.key_injective : Function.Injective Priority.key := by
  rintro ⟨o, r, v⟩ ⟨o', r', v'⟩ h
  simpa [key] using h

theorem Priority.above_iff {a b : Priority} : a.above b = true ↔ b.key < a.key := by
  obtain ⟨o, r, v⟩ := a
  obtain ⟨o', r', v'⟩ := b
  simp only [above, key, Prod.Lex.toLex_lt_toLex]
  by_cases ho : o = o'
  · subst ho
    by_cases hr : r = r'
    · simp [hr]
    · simp [hr, Ne.symm hr]
  · cases o <;> cases o' <;> simp_all

theorem Priority.atLeast_iff {a b : Priority} : a.atLeast b = true ↔ b.key ≤ a.key := by
  rw [atLeast, Bool.not_eq_true', ← Bool.not_eq_true, above_iff, not_lt]

/-! ## One match for each identity -/

theorem Match.sameNode_iff {a b : Match} :
    a.sameNode b = true ↔ a.span = b.span ∧ a.type = b.type := by
  simp [sameNode]

/-- `held` is what resolving leaves of a row of matches: one for each identity, of highest
priority. -/
structure Resolved (ms held : List Match) : Prop where
  distinct : held.Pairwise fun a b => ¬ a.sameNode b = true
  subset : ∀ m ∈ held, m ∈ ms
  best : ∀ m ∈ ms, ∃ k ∈ held, k.sameNode m = true ∧ m.priority.key ≤ k.priority.key

theorem Match.sameNode_comm (a b : Match) : a.sameNode b = b.sameNode a := by
  rw [Bool.eq_iff_iff, sameNode_iff, sameNode_iff]
  exact ⟨fun h => ⟨h.1.symm, h.2.symm⟩, fun h => ⟨h.1.symm, h.2.symm⟩⟩

theorem Resolved.eq_of_sameNode {ms held : List Match} (h : Resolved ms held) {a b : Match}
    (ha : a ∈ held) (hb : b ∈ held) (hsame : a.sameNode b = true) : a = b := by
  by_contra hne
  have hsymm : Std.Symm fun a b : Match => ¬ a.sameNode b = true :=
    ⟨fun a b hab => by rwa [Match.sameNode_comm]⟩
  exact h.distinct.forall ha hb hne hsame

theorem mem_keep {found m : Match} : ∀ {held : List Match},
    m ∈ keep found held → m = found ∨ m ∈ held
  | [], h => by simpa [keep] using h
  | k :: rest, h => by
      rw [keep] at h
      by_cases hsame : k.sameNode found = true
      · rw [if_pos hsame] at h
        rcases List.mem_cons.mp h with rfl | h
        · split
          · exact Or.inl rfl
          · exact Or.inr List.mem_cons_self
        · exact Or.inr (List.mem_cons_of_mem _ h)
      · rw [if_neg hsame] at h
        rcases List.mem_cons.mp h with rfl | h
        · exact Or.inr List.mem_cons_self
        · exact (mem_keep h).imp_right (List.mem_cons_of_mem _)

/-- The fold step keeps a row resolved: the found match takes the place of the one held for its
identity, if it lies above it. -/
theorem keep_best (found : Match) : ∀ (held : List Match),
    (∃ k ∈ keep found held, k.sameNode found = true ∧ found.priority.key ≤ k.priority.key) ∧
      ∀ m ∈ held, ∃ k ∈ keep found held, k.sameNode m = true ∧ m.priority.key ≤ k.priority.key
  | [] => by simp [keep, Match.sameNode_iff]
  | k :: rest => by
      obtain ⟨ihfound, ihheld⟩ := keep_best found rest
      rw [keep]
      by_cases hsame : k.sameNode found = true
      · rw [if_pos hsame]
        have hsym := Match.sameNode_iff.mp hsame
        by_cases habove : found.priority.above k.priority = true
        · rw [if_pos habove]
          have hlt := Priority.above_iff.mp habove
          refine ⟨⟨found, List.mem_cons_self, by simp [Match.sameNode_iff], le_rfl⟩, ?_⟩
          intro m hm
          rcases List.mem_cons.mp hm with rfl | hm
          · exact ⟨found, List.mem_cons_self,
              Match.sameNode_iff.mpr ⟨hsym.1.symm, hsym.2.symm⟩, hlt.le⟩
          · exact ⟨m, List.mem_cons_of_mem _ hm, by simp [Match.sameNode_iff], le_rfl⟩
        · rw [if_neg habove]
          have hle : found.priority.key ≤ k.priority.key := by
            rwa [Priority.above_iff, not_lt] at habove
          refine ⟨⟨k, List.mem_cons_self, hsame, hle⟩, ?_⟩
          intro m hm
          exact ⟨m, hm, by simp [Match.sameNode_iff], le_rfl⟩
      · rw [if_neg hsame]
        obtain ⟨b, hb, hbest⟩ := ihfound
        refine ⟨⟨b, List.mem_cons_of_mem _ hb, hbest⟩, ?_⟩
        intro m hm
        rcases List.mem_cons.mp hm with rfl | hm
        · exact ⟨m, List.mem_cons_self, by simp [Match.sameNode_iff], le_rfl⟩
        · obtain ⟨b, hb, hbest⟩ := ihheld m hm
          exact ⟨b, List.mem_cons_of_mem _ hb, hbest⟩

theorem keep_distinct {found : Match} : ∀ {held : List Match},
    held.Pairwise (fun a b => ¬ a.sameNode b = true) →
      (keep found held).Pairwise fun a b => ¬ a.sameNode b = true
  | [], _ => by simp [keep]
  | k :: rest, h => by
      rw [List.pairwise_cons] at h
      rw [keep]
      by_cases hsame : k.sameNode found = true
      · rw [if_pos hsame, List.pairwise_cons]
        refine ⟨?_, h.2⟩
        intro m hm
        have hkm := h.1 m hm
        split
        · -- the found match stands for the identity of the held one
          rw [Match.sameNode_iff] at hsame hkm ⊢
          rwa [← hsame.1, ← hsame.2]
        · exact hkm
      · rw [if_neg hsame, List.pairwise_cons]
        refine ⟨?_, keep_distinct h.2⟩
        intro m hm
        rcases mem_keep hm with rfl | hm
        · exact hsame
        · exact h.1 m hm

theorem Resolved.keep {ms held : List Match} (h : Resolved ms held) (found : Match) :
    Resolved (ms ++ [found]) (Limn.keep found held) := by
  refine ⟨keep_distinct h.distinct, ?_, ?_⟩
  · intro m hm
    rcases mem_keep hm with rfl | hm
    · simp
    · exact List.mem_append_left _ (h.subset m hm)
  · intro m hm
    rcases List.mem_append.mp hm with hm | hm
    · obtain ⟨k, hk, hsame, hle⟩ := h.best m hm
      obtain ⟨b, hb, hbsame, hble⟩ := (keep_best found held).2 k hk
      rw [Match.sameNode_iff] at hsame hbsame
      exact ⟨b, hb, Match.sameNode_iff.mpr ⟨hbsame.1.trans hsame.1, hbsame.2.trans hsame.2⟩,
        hle.trans hble⟩
    · rw [List.mem_singleton.mp hm]
      exact (keep_best found held).1

/-- **Resolving.** Of the hits of a tree, the one of highest priority is kept for every
identity. -/
theorem resolved_keepAll (hits : List Hit) :
    Resolved (hits.map Hit.toMatch) (keepAll [] hits) := by
  induction hits using List.reverseRecOn with
  | nil => exact ⟨List.Pairwise.nil, by simp [keepAll], by simp⟩
  | append_singleton hits h ih =>
      rw [keepAll, List.foldl_append, List.map_append]
      exact ih.keep h.toMatch

end Limn
