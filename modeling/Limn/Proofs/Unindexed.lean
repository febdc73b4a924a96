import Limn.Proofs.Matching
import Mathlib.Data.List.MinMax

/-! # Matching without an index

The plain way to match a tree is to try every rule for its layer on every node of the walk, whatever
the types (`tryAll`), and to take for each identity the match of highest priority (`best`).
`matchTree` looks at fewer rules and holds one match at a time for each identity, but comes to the
same: a mapping that has the best of all matches tried under each identity
(`Table.matchTree_unindexed`).

A row of held matches is a mapping by `lookUp`. `keep` changes that mapping at one identity only
(`lookUp_keep`, `identities_keep`), and `Summarizes` is what it preserves along the row of matches
tried.
-/

namespace Limn

/-- What a match is held under in its tree. -/
structure Identity where
  span : Span
  type : Wording
deriving DecidableEq, Repr

/-- The identity of the node that a match is on. -/
def Match.identity (m : Match) : Identity :=
  ⟨m.span, m.type⟩

theorem Match.sameNode_iff_identity {a b : Match} :
    a.sameNode b = true ↔ a.identity = b.identity := by
  rw [Match.sameNode_iff, identity, identity, Identity.mk.injEq]

/-- The match held under an identity. -/
def lookUp (held : List Match) (i : Identity) : Option Match :=
  held.find? fun m => m.identity = i

/-! ## The reference -/

/-- One rule tried on one visited node. -/
def tryRule (layer : Layer) (v : Node.Visit) (visit : Nat) (feature : Feature) (rule : Rule)
    (rank : Nat) : Except Error (List Match) :=
  if rule.layer = layer then do
    if ← rule.pattern.accepts v.node v.parent then
      .ok [⟨v.node.type, v.node.span, rule.category, feature.name,
        ⟨feature.override, rank, visit⟩⟩]
    else .ok []
  else .ok []

/-- All rules tried on one visited node. They are counted from one, those for other layers too. -/
def tryVisit (layer : Layer) (features : List Feature) (v : Node.Visit) (visit : Nat) :
    Except Error (List Match) := do
  let found ← ((declaredRules features).zipIdx 1).mapM fun ((feature, rule), rank) =>
    tryRule layer v visit feature rule rank
  .ok found.flatten

/-- All rules tried on all nodes of a tree. -/
def tryAll (root : Node) (layer : Layer) (features : List Feature) : Except Error (List Match) := do
  let found ← root.walk.zipIdx.mapM fun (v, visit) => tryVisit layer features v visit
  .ok found.flatten

/-- The match of highest priority under an identity. -/
def best (tried : List Match) (i : Identity) : Option Match :=
  (tried.filter fun m => m.identity = i).argmax (·.priority.key)

/-! ## Trying all rules gives the hits -/

theorem mapM_ok {α β : Type} {f : α → Except Error β} {g : α → β} :
    ∀ l : List α, (∀ a ∈ l, f a = .ok (g a)) → l.mapM f = .ok (l.map g)
  | [], _ => rfl
  | a :: rest, h => by
      rw [List.mapM_cons, h a List.mem_cons_self,
        mapM_ok rest fun b hb => h b (List.mem_cons_of_mem _ hb)]
      rfl

theorem flatten_singletons {α β : Type} (p : α → Bool) (f : α → β) (l : List α) :
    (l.map fun a => if p a then [f a] else []).flatten = (l.filter p).map f := by
  induction l with
  | nil => rfl
  | cons a rest ih =>
      rw [List.map_cons, List.flatten_cons, ih]
      cases hp : p a <;> simp [hp]

section Trying

variable {features : List Feature} {layer : Layer}
  (hwf : ∀ fr ∈ declaredRules features, fr.2.pattern.WellFormed)
include hwf

theorem tryVisit_eq (v : Node.Visit) (visit : Nat) :
    tryVisit layer features v visit = .ok ((hitsAt layer features v visit).map Hit.toMatch) := by
  have hrule : ∀ p ∈ (declaredRules features).zipIdx 1,
      tryRule layer v visit p.1.1 p.1.2 p.2 =
        .ok (if p.1.2.layer == layer && p.1.2.pattern.holds v.node v.parent then
          [Hit.toMatch ⟨p.1.1, p.1.2, p.2, v.node, v.parent, visit⟩] else []) := by
    rintro ⟨⟨f, r⟩, rank⟩ hp
    dsimp only
    rw [tryRule, (hwf _ (List.fst_mem_of_mem_zipIdx hp)).accepts_eq]
    by_cases hlayer : r.layer = layer
    · cases hholds : r.pattern.holds v.node v.parent <;> simp [hlayer] <;> rfl
    · simp [hlayer]
  rw [tryVisit, mapM_ok _ hrule, hitsAt, List.map_map, ← flatten_singletons]
  rfl

theorem tryAll_eq (root : Node) :
    tryAll root layer features = .ok ((hitsIn root layer features).map Hit.toMatch) := by
  rw [tryAll, mapM_ok _ fun p _ => tryVisit_eq hwf p.1 p.2, Node.walk_eq_preorder, hitsIn,
    List.map_flatMap, List.flatMap_def]
  rfl

end Trying

/-! ## Keeping a match -/

theorem identities_keep (m : Match) (held : List Match) :
    (keep m held).map Match.identity =
      if m.identity ∈ held.map Match.identity then held.map Match.identity
      else held.map Match.identity ++ [m.identity] := by
  induction held with
  | nil => simp [keep]
  | cons k rest ih =>
      rw [keep]
      by_cases hsame : k.identity = m.identity
      · rw [if_pos (Match.sameNode_iff_identity.mpr hsame)]
        split <;> simp [hsame]
      · rw [if_neg (Match.sameNode_iff_identity.not.mpr hsame), List.map_cons, ih]
        by_cases hmem : m.identity ∈ rest.map Match.identity
        · simp [hmem]
        · simp [hmem, Ne.symm hsame]

/-- The higher of a match and the one held before it, if there is one. -/
def higher (m : Match) : Option Match → Match
  | none => m
  | some k => if m.priority.above k.priority then m else k

theorem lookUp_keep (m : Match) (i : Identity) (held : List Match) :
    lookUp (keep m held) i =
      if m.identity = i then some (higher m (lookUp held i)) else lookUp held i := by
  induction held with
  | nil => by_cases hm : m.identity = i <;> simp [lookUp, keep, higher, hm]
  | cons k rest ih =>
      rw [keep]
      by_cases hsame : k.identity = m.identity
      · rw [if_pos (Match.sameNode_iff_identity.mpr hsame)]
        by_cases hm : m.identity = i
        · -- the match held under the identity is the first of the row
          rw [if_pos hm]
          have hk := hsame.trans hm
          simp only [lookUp, List.find?_cons_of_pos, hk, decide_true, higher]
          split <;> simp [hm, hk]
        · rw [if_neg hm]
          have hk : k.identity ≠ i := hsame ▸ hm
          simp only [lookUp]
          split <;> simp [hm, hk]
      · rw [if_neg (Match.sameNode_iff_identity.not.mpr hsame)]
        by_cases hk : k.identity = i
        · have hm : m.identity ≠ i := fun hm => hsame (hk.trans hm.symm)
          simp [lookUp, hk, hm]
        · simpa [lookUp, hk] using ih

theorem best_concat (tried : List Match) (m : Match) (i : Identity) :
    best (tried ++ [m]) i =
      if m.identity = i then some (higher m (best tried i)) else best tried i := by
  unfold best
  rw [List.filter_append]
  by_cases hm : m.identity = i
  · rw [if_pos hm, List.filter_cons_of_pos (by simpa using hm), List.filter_nil, List.argmax_concat]
    cases (tried.filter fun m => m.identity = i).argmax (·.priority.key) with
    | none => rfl
    | some k =>
        simp only [higher, Priority.above_iff]
        split <;> rfl
  · rw [if_neg hm, List.filter_cons_of_neg (by simpa using hm), List.filter_nil, List.append_nil]

/-! ## Main statement -/

/-- What is held after a row of matches: under each identity, in order of the first match that has
it, the best of the row. -/
structure Summarizes (held tried : List Match) : Prop where
  identities : held.map Match.identity = (tried.map Match.identity).eraseDups
  highest : ∀ i, lookUp held i = best tried i

theorem Summarizes.keep {held tried : List Match} (h : Summarizes held tried) (m : Match) :
    Summarizes (Limn.keep m held) (tried ++ [m]) := by
  constructor
  · have hmem : m.identity ∈ held.map Match.identity ↔ m.identity ∈ tried.map Match.identity := by
      rw [h.identities, List.mem_eraseDups]
    have hnew : [m.identity].removeAll (tried.map Match.identity) =
        if m.identity ∈ tried.map Match.identity then [] else [m.identity] := by
      by_cases hm : m.identity ∈ tried.map Match.identity <;> simp [List.removeAll, List.filter, hm]
    rw [identities_keep, List.map_append, List.map_singleton, List.eraseDups_append, hnew,
      ← h.identities]
    by_cases hm : m.identity ∈ tried.map Match.identity
    · rw [if_pos (hmem.mpr hm), if_pos hm]
      simp
    · rw [if_neg (hmem.not.mpr hm), if_neg hm]
      rfl
  · intro i
    rw [lookUp_keep, h.highest, best_concat]

theorem summarizes_keepAll (hits : List Hit) :
    Summarizes (keepAll [] hits) (hits.map Hit.toMatch) := by
  induction hits using List.reverseRecOn with
  | nil => exact ⟨rfl, fun _ => rfl⟩
  | append_singleton hits h ih =>
      rw [keepAll, List.foldl_append, List.map_append]
      exact ih.keep h.toMatch

/-- **The index loses nothing and adds nothing.** For a table of well-formed features, trying all
rules for a layer on all nodes of a tree does not fail, nor does matching the tree; and matching
holds, under each identity that some match tried has and under no other, the match of highest
priority. -/
theorem Table.matchTree_unindexed (t : Table) (root : Node) (layer : Layer) :
    ∃ tried held, tryAll root layer t.features = .ok tried ∧
      matchTree root layer t.features = .ok held ∧
      held.map Match.identity = (tried.map Match.identity).eraseDups ∧
      ∀ i, lookUp held i = best tried i := by
  have hwf := declaredRules_wellFormed t.wellFormed
  have hsum := summarizes_keepAll (hitsIn root layer t.features)
  exact ⟨_, _, tryAll_eq hwf root, matchTree_eq hwf, hsum.identities, hsum.highest⟩

end Limn
