import Limn.Proofs.Canvas
import Limn.Proofs.Matching
import Mathlib.Tactic

/-! # Painting, octet by octet

Painting claims spans from the highest priority to the lowest on a merging canvas and sorts what
comes out. One step of it is described by `paintMatch_spec`; from that, by induction over the row
of matches:

- `paintAll_covers`: each octet is painted once, by the first match of the row that covers it;
- `paintAll_empty`: a match without octets leaves one run, unless a match before it has its place
  strictly inside.

The matches that reach the canvas are the best hits of their identities (`Kept`), so the first of
them to cover an octet is the best of all hits that cover it. The three main statements read this
off for a table of features: `Table.octet_painted_by_best_hit`, `Table.runs_ordered_disjoint` and
`Table.empty_runs_unburied`.
-/

namespace Limn

/-! ## One match on the canvas -/

/-- The category and the feature of a run. -/
def Run.paint (r : Run) : String × String :=
  (r.category, r.feature)

/-- The category and the feature that a match paints. -/
def Match.paint (m : Match) : String × String :=
  (m.category, m.feature)

/-- The run that a match paints on a span. -/
def Match.run (m : Match) (s : Span) : Run :=
  ⟨s, m.category, m.feature⟩

@[simp] theorem Match.run_span (m : Match) (s : Span) : (m.run s).span = s := rfl
@[simp] theorem Match.run_paint (m : Match) (s : Span) : (m.run s).paint = m.paint := rfl

theorem paintMatch_of_empty {c : Canvas} {m : Match} (h : m.span.isEmpty = true) :
    paintMatch c m = (if c.inside m.span.start then [] else [m.run m.span], c) := by
  rw [paintMatch, if_pos h]
  rfl

theorem paintMatch_of_nonempty {c : Canvas} {m : Match} (h : ¬ m.span.isEmpty = true) :
    paintMatch c m = ((c.claim m.span).1.map m.run, (c.claim m.span).2) := by
  rw [paintMatch, if_neg h]
  rfl

/-- What painting one match does to the canvas. -/
structure PaintStep (c : Canvas) (m : Match) (after : Canvas) : Prop where
  ordered : after.Ordered
  covers : ∀ o, after.Covers o ↔ c.Covers o ∨ m.span.covers o = true
  encloses : ∀ p, after.Encloses p ↔ c.Encloses p ∨ m.span.Encloses p

theorem paintMatch_spec {c : Canvas} (hc : c.Ordered) (m : Match) :
    PaintStep c m (paintMatch c m).2 := by
  by_cases hm : m.span.isEmpty = true
  · rw [paintMatch_of_empty hm]
    rw [Span.isEmpty_iff] at hm
    -- a span without octets covers nothing and encloses nothing
    refine ⟨hc, fun o => ?_, fun p => ?_⟩
    · have hno : ¬ m.span.covers o = true := by
        rw [Span.covers_iff]
        omega
      exact ⟨Or.inl, fun h => h.resolve_right hno⟩
    · have hno : ¬ m.span.Encloses p := by
        rw [Span.Encloses]
        omega
      exact ⟨Or.inl, fun h => h.resolve_right hno⟩
  · rw [paintMatch_of_nonempty hm]
    have hspan : m.span.start < m.span.stop := by
      rwa [Span.isEmpty_iff, not_le] at hm
    exact ⟨Canvas.ordered_claim hc hspan, Canvas.covers_claim hc, Canvas.encloses_claim hc⟩

/-- Spans in a row that do not touch cover an octet once. -/
theorem filter_covers_singleton {o : Int} : ∀ {spans : List Span},
    spans.Pairwise (fun a b => a.stop < b.start) → (∃ s ∈ spans, s.covers o = true) →
      ∃ s, spans.filter (fun s => s.covers o) = [s]
  | [], _, h => by simp at h
  | s :: rest, hsep, h => by
      rw [List.pairwise_cons] at hsep
      by_cases hs : s.covers o = true
      · refine ⟨s, ?_⟩
        rw [List.filter_cons_of_pos (by exact hs), List.filter_eq_nil_iff.mpr]
        intro t ht htc
        have := hsep.1 t ht
        rw [Span.covers_iff] at hs htc
        omega
      · rw [List.filter_cons_of_neg (by exact hs)]
        obtain ⟨t, ht, htc⟩ := h
        rcases List.mem_cons.mp ht with rfl | ht
        · exact absurd htc hs
        · exact filter_covers_singleton hsep.2 ⟨t, ht, htc⟩

/-- A match paints an octet that it covers and that is free, once, and no other. -/
theorem paintMatch_covers {c : Canvas} (hc : c.Ordered) (m : Match) (o : Int) :
    (m.span.covers o = true ∧ ¬ c.Covers o →
      ((paintMatch c m).1.filter fun r => r.span.covers o).map Run.paint = [m.paint]) ∧
    (¬ (m.span.covers o = true ∧ ¬ c.Covers o) →
      (paintMatch c m).1.filter (fun r => r.span.covers o) = []) := by
  by_cases hm : m.span.isEmpty = true
  · have hno : ¬ m.span.covers o = true := by
      rw [Span.isEmpty_iff] at hm
      rw [Span.covers_iff]
      omega
    refine ⟨fun h => absurd h.1 hno, fun _ => ?_⟩
    rw [paintMatch_of_empty hm, List.filter_eq_nil_iff]
    intro r hr
    split at hr
    · simp at hr
    · rw [List.mem_singleton.mp hr]
      exact hno
  · rw [paintMatch_of_nonempty hm]
    have hiff := Canvas.claim_covers hc m.span o
    constructor
    · intro h
      obtain ⟨s, hs⟩ := filter_covers_singleton (Canvas.claim_separated hc m.span).1 (hiff.mpr h)
      rw [List.filter_map, Function.comp_def]
      simp [hs]
    · intro h
      rw [List.filter_eq_nil_iff]
      intro r hr hcov
      obtain ⟨s, hs, rfl⟩ := List.mem_map.mp hr
      exact h (hiff.mp ⟨s, hs, hcov⟩)

/-! ## A row of matches -/

theorem paintAll_cons (c : Canvas) (m : Match) (rest : List Match) :
    paintAll c (m :: rest) = (paintMatch c m).1 ++ paintAll (paintMatch c m).2 rest := rfl

/-- What is painted stays as it is. -/
theorem paintAll_covered {o : Int} : ∀ (ms : List Match) {c : Canvas}, c.Ordered → c.Covers o →
    (paintAll c ms).filter (fun r => r.span.covers o) = []
  | [], _, _, _ => rfl
  | m :: rest, c, hc, ho => by
      have hstep := paintMatch_spec hc m
      rw [paintAll_cons, List.filter_append, (paintMatch_covers hc m o).2 (fun h => h.2 ho),
        paintAll_covered rest hstep.ordered ((hstep.covers o).mpr (Or.inl ho)), List.append_nil]

/-- **Each octet is painted once**, by the first match of the row that covers it. -/
theorem paintAll_covers {o : Int} : ∀ (ms : List Match) {c : Canvas}, c.Ordered → ¬ c.Covers o →
    ((paintAll c ms).filter fun r => r.span.covers o).map Run.paint =
      ((ms.find? fun m => m.span.covers o).map Match.paint).toList
  | [], _, _, _ => rfl
  | m :: rest, c, hc, ho => by
      have hstep := paintMatch_spec hc m
      rw [paintAll_cons, List.filter_append, List.map_append]
      by_cases hm : m.span.covers o = true
      · rw [(paintMatch_covers hc m o).1 ⟨hm, ho⟩,
          paintAll_covered rest hstep.ordered ((hstep.covers o).mpr (Or.inr hm)),
          List.find?_cons_of_pos (by exact hm)]
        rfl
      · rw [(paintMatch_covers hc m o).2 (fun h => hm h.1),
          paintAll_covers rest hstep.ordered (fun h => ((hstep.covers o).mp h).elim ho hm),
          List.find?_cons_of_neg (by exact hm)]
        rfl

/-- The place of the match lies strictly inside a match of higher priority. -/
def Match.isBuried (all : List Match) (m : Match) : Bool :=
  all.any fun k => k.priority.above m.priority &&
    (k.span.start < m.span.start && m.span.start < k.span.stop)

theorem Match.isBuried_iff {all : List Match} {m : Match} :
    m.isBuried all = true ↔
      ∃ k ∈ all, m.priority.key < k.priority.key ∧ k.span.Encloses m.span.start := by
  simp [isBuried, Priority.above_iff, Span.Encloses]

/-- The match has no octets, and its place is not buried. -/
def Match.isBare (all : List Match) (m : Match) : Bool :=
  m.span.isEmpty && !m.isBuried all

/-- **Runs without octets.** In a row of decreasing priority, one run for each match without octets
that is not buried. The induction carries the matches already painted: they are those above the
next one, and the canvas encloses what they enclose. -/
theorem paintAll_empty {all : List Match}
    (hall : all.Pairwise fun a b => b.priority.key < a.priority.key) :
    ∀ (ms done : List Match) {c : Canvas}, all = done ++ ms → c.Ordered →
      (∀ p, c.Encloses p ↔ ∃ k ∈ done, k.span.Encloses p) →
        (paintAll c ms).filter (fun r => r.span.isEmpty) =
          (ms.filter (·.isBare all)).map fun m => m.run m.span
  | [], _, _, _, _, _ => rfl
  | m :: rest, done, c, hsplit, hc, hdone => by
      have hstep := paintMatch_spec hc m
      have ih := paintAll_empty hall rest (done ++ [m]) (c := (paintMatch c m).2)
        (by simp [hsplit]) hstep.ordered
        (by
          intro p
          rw [hstep.encloses, hdone]
          simp [or_and_right, exists_or])
      have hburied : m.isBuried all = true ↔ c.Encloses m.span.start := by
        rw [hsplit, List.pairwise_append, List.pairwise_cons] at hall
        obtain ⟨-, ⟨hbelow, -⟩, habove⟩ := hall
        rw [Match.isBuried_iff, hdone, hsplit]
        constructor
        · rintro ⟨k, hk, hlt, henc⟩
          rcases List.mem_append.mp hk with hk | hk
          · exact ⟨k, hk, henc⟩
          · rcases List.mem_cons.mp hk with rfl | hk
            · exact absurd hlt (lt_irrefl _)
            · exact absurd hlt (hbelow k hk).asymm
        · rintro ⟨k, hk, henc⟩
          exact ⟨k, List.mem_append_left _ hk, habove k hk m List.mem_cons_self, henc⟩
      rw [paintAll_cons, List.filter_append, ih]
      by_cases hm : m.span.isEmpty = true
      · have hinside : c.inside m.span.start = m.isBuried all := by
          rw [Bool.eq_iff_iff, Canvas.inside_iff hc, hburied]
        rw [paintMatch_of_empty hm, hinside]
        cases hb : m.isBuried all with
        | true => simp [Match.isBare, hb]
        | false => simp [Match.isBare, hb, hm]
      · have hnone : (paintMatch c m).1.filter (fun r => r.span.isEmpty) = [] := by
          rw [paintMatch_of_nonempty hm, List.filter_eq_nil_iff]
          intro r hr hempty
          obtain ⟨s, hs, rfl⟩ := List.mem_map.mp hr
          have := (Canvas.claim_separated hc m.span).2 s hs
          rw [Match.run_span, Span.isEmpty_iff] at hempty
          omega
        rw [hnone, List.filter_cons_of_neg (by simp [Match.isBare, hm])]
        rfl

/-! ## What reaches the canvas -/

/-- The matches of both trees, each the best of its identity. -/
def kept (block inline : Node) (active : List Feature) : List Match :=
  keepAll [] (hitsIn block .block active) ++ keepAll [] (hitsIn inline .inline active)

theorem evaluateFeatures_eq {block inline : Node} {active : List Feature}
    (h : ∀ fr ∈ declaredRules active, fr.2.pattern.WellFormed) :
    evaluateFeatures block inline active =
      .ok ⟨Feature.names active, (kept block inline active).length,
        paint (kept block inline active)⟩ := by
  rw [evaluateFeatures, matchTree_eq h, matchTree_eq h]
  rfl

/-- A highlighter of a table answers every choice of declared names. -/
theorem Table.exists_highlighter (t : Table) (initial : t.Choice) :
    ∃ h, Highlighter.create t.features initial.names = .ok h ∧
      ∀ (enabled : t.Choice) (block inline : Node),
        h.evaluate (some block) (some inline) enabled.names =
          .ok ⟨Feature.names (t.active initial enabled),
            (kept block inline (t.active initial enabled)).length,
            paint (kept block inline (t.active initial enabled))⟩ := by
  obtain ⟨h, hcreate, -⟩ := t.evaluate_eq initial initial default default
  refine ⟨h, hcreate, fun enabled block inline => ?_⟩
  obtain ⟨h', hcreate', heval⟩ := t.evaluate_eq initial enabled block inline
  cases hcreate.symm.trans hcreate'
  rw [heval, evaluateFeatures_eq (t.active_wellFormed initial enabled)]

/-- Two hits on one identity: the same tree, span and type. -/
def Hit.SameIdentity (h k : Hit) : Prop :=
  h.rule.layer = k.rule.layer ∧ h.node.span = k.node.span ∧ h.node.type = k.node.type

section Kept

variable {block inline : Node} {active : List Feature}

/-- The kept matches of one tree. -/
def keptIn (block inline : Node) (active : List Feature) : Layer → List Match
  | .block => keepAll [] (hitsIn block .block active)
  | .inline => keepAll [] (hitsIn inline .inline active)
  | .other _ => []

theorem mem_kept {m : Match} :
    m ∈ kept block inline active ↔ ∃ layer, m ∈ keptIn block inline active layer := by
  rw [kept, List.mem_append]
  constructor
  · rintro (h | h)
    · exact ⟨.block, h⟩
    · exact ⟨.inline, h⟩
  · rintro ⟨_ | _ | _, h⟩
    · exact Or.inl h
    · exact Or.inr h
    · simp [keptIn] at h

/-- On each tree, the kept matches resolve the hits on it. -/
theorem keptIn_resolved (block inline : Node) (active : List Feature) (layer : Layer) :
    ∃ hits : List Hit, Resolved (hits.map Hit.toMatch) (keptIn block inline active layer) ∧
      ∀ h, h ∈ hits ↔ IsHit block inline active h ∧ h.rule.layer = layer := by
  cases layer with
  | block =>
      refine ⟨_, resolved_keepAll _, fun h => ?_⟩
      rw [isHit_iff, mem_hitsIn, mem_hitsIn]
      constructor
      · intro hh
        exact ⟨Or.inl hh, hh.1⟩
      · rintro ⟨hh | hh, hlayer⟩
        · exact hh
        · exact absurd (hlayer.symm.trans hh.1) (by simp)
  | inline =>
      refine ⟨_, resolved_keepAll _, fun h => ?_⟩
      rw [isHit_iff, mem_hitsIn, mem_hitsIn]
      constructor
      · intro hh
        exact ⟨Or.inr hh, hh.1⟩
      · rintro ⟨hh | hh, hlayer⟩
        · exact absurd (hlayer.symm.trans hh.1) (by simp)
        · exact hh
  | other name =>
      refine ⟨[], ⟨List.Pairwise.nil, by simp [keptIn], by simp⟩, fun h => ?_⟩
      simp only [List.not_mem_nil, false_iff, not_and]
      rintro ⟨-, ⟨root, hroot, -⟩, -⟩ hlayer
      rw [hlayer] at hroot
      simp [treeOf] at hroot

/-- What reaches the canvas comes from a hit on the tree where it is kept. -/
theorem exists_hit_of_mem_keptIn {layer : Layer} {m : Match}
    (hm : m ∈ keptIn block inline active layer) :
    ∃ h, IsHit block inline active h ∧ h.rule.layer = layer ∧ h.toMatch = m := by
  obtain ⟨hits, hres, hmem⟩ := keptIn_resolved block inline active layer
  obtain ⟨h, hh, rfl⟩ := List.mem_map.mp (hres.subset m hm)
  exact ⟨h, ((hmem h).mp hh).1, ((hmem h).mp hh).2, rfl⟩

theorem exists_hit_of_mem_kept {m : Match} (hm : m ∈ kept block inline active) :
    ∃ h, IsHit block inline active h ∧ h.toMatch = m := by
  obtain ⟨layer, hm⟩ := mem_kept.mp hm
  obtain ⟨h, hh, -, rfl⟩ := exists_hit_of_mem_keptIn hm
  exact ⟨h, hh, rfl⟩

/-- Every hit has a kept one of its identity, of at least its priority. -/
theorem exists_kept {h : Hit} (hh : IsHit block inline active h) :
    ∃ k, IsHit block inline active k ∧ k.toMatch ∈ keptIn block inline active h.rule.layer ∧
      k.SameIdentity h ∧ h.priority.key ≤ k.priority.key := by
  obtain ⟨hits, hres, hmem⟩ := keptIn_resolved block inline active h.rule.layer
  obtain ⟨m, hm, hsame, hle⟩ :=
    hres.best h.toMatch (List.mem_map_of_mem ((hmem h).mpr ⟨hh, rfl⟩))
  obtain ⟨k, hk, hlayer, rfl⟩ := exists_hit_of_mem_keptIn hm
  exact ⟨k, hk, hm, ⟨hlayer, Match.sameNode_iff.mp hsame⟩, hle⟩

/-- A hit whose match reaches the canvas is kept on its own tree. -/
theorem mem_keptIn_layer {h : Hit} (hh : IsHit block inline active h)
    (hm : h.toMatch ∈ kept block inline active) :
    h.toMatch ∈ keptIn block inline active h.rule.layer := by
  obtain ⟨layer, hm⟩ := mem_kept.mp hm
  obtain ⟨k, hk, hlayer, heq⟩ := exists_hit_of_mem_keptIn hm
  have hkh : k = h := hk.eq_of_priority hh (congrArg Match.priority heq)
  rwa [← hkh, hlayer, heq]

/-- **A hit reaches the canvas iff it is the best of its identity.** -/
theorem toMatch_mem_kept_iff {h : Hit} (hh : IsHit block inline active h) :
    h.toMatch ∈ kept block inline active ↔
      ∀ k, IsHit block inline active k → k.SameIdentity h → k.priority.key ≤ h.priority.key := by
  obtain ⟨k, hk, hkmem, hkid, hkle⟩ := exists_kept hh
  constructor
  · intro hmem g hg hgid
    obtain ⟨b, hb, hbmem, hbid, hble⟩ := exists_kept hg
    -- two kept matches of one identity are one match
    have hown := mem_keptIn_layer hh hmem
    rw [hgid.1] at hbmem
    obtain ⟨hits, hres, -⟩ := keptIn_resolved block inline active h.rule.layer
    have heq : b.toMatch = h.toMatch :=
      hres.eq_of_sameNode hbmem hown
        (Match.sameNode_iff.mpr ⟨hbid.2.1.trans hgid.2.1, hbid.2.2.trans hgid.2.2⟩)
    have hprio : b.priority = h.priority := congrArg Match.priority heq
    rwa [hprio] at hble
  · intro hbest
    have hprio : k.priority = h.priority :=
      Priority.key_injective (le_antisymm (hbest k hk hkid) hkle)
    have hkh : k = h := hk.eq_of_priority hh hprio
    exact mem_kept.mpr ⟨h.rule.layer, hkh ▸ hkmem⟩

/-- Distinct kept matches differ in priority. -/
theorem kept_priorities :
    (kept block inline active).Pairwise fun a b => a.priority.key ≠ b.priority.key := by
  have htree : ∀ layer, (keptIn block inline active layer).Pairwise
      fun a b => a.priority.key ≠ b.priority.key := by
    intro layer
    obtain ⟨hits, hres, -⟩ := keptIn_resolved block inline active layer
    refine hres.distinct.imp_of_mem ?_
    intro a b ha hb hne heq
    obtain ⟨h, hh, -, rfl⟩ := exists_hit_of_mem_keptIn ha
    obtain ⟨k, hk, -, rfl⟩ := exists_hit_of_mem_keptIn hb
    rw [hh.eq_of_priority hk (Priority.key_injective heq)] at hne
    exact hne (Match.sameNode_iff.mpr ⟨rfl, rfl⟩)
  refine List.pairwise_append.mpr ⟨htree .block, htree .inline, ?_⟩
  intro a ha b hb heq
  obtain ⟨h, hh, hlayer, rfl⟩ := exists_hit_of_mem_keptIn (show a ∈ keptIn _ _ _ .block from ha)
  obtain ⟨k, hk, hlayer', rfl⟩ := exists_hit_of_mem_keptIn (show b ∈ keptIn _ _ _ .inline from hb)
  rw [hh.eq_of_priority hk (Priority.key_injective heq), hlayer'] at hlayer
  cases hlayer

/-- The kept matches in the order in which they are painted. -/
def painted (block inline : Node) (active : List Feature) : List Match :=
  (kept block inline active).mergeSort fun a b => a.priority.atLeast b.priority

theorem mem_painted {m : Match} :
    m ∈ painted block inline active ↔ m ∈ kept block inline active :=
  List.mem_mergeSort

/-- Matches that differ in priority are painted in strictly decreasing order. -/
theorem mergeSort_decreasing {ms : List Match}
    (h : ms.Pairwise fun a b => a.priority.key ≠ b.priority.key) :
    (ms.mergeSort fun a b => a.priority.atLeast b.priority).Pairwise
      fun a b => b.priority.key < a.priority.key := by
  have hsorted : (ms.mergeSort fun a b => a.priority.atLeast b.priority).Pairwise
      fun a b => a.priority.atLeast b.priority = true := by
    apply List.pairwise_mergeSort
    · intro a b c hab hbc
      rw [Priority.atLeast_iff] at *
      exact hbc.trans hab
    · intro a b
      rw [Bool.or_eq_true, Priority.atLeast_iff, Priority.atLeast_iff]
      exact le_total _ _
  have hne : (ms.mergeSort fun a b => a.priority.atLeast b.priority).Pairwise
      fun a b => a.priority.key ≠ b.priority.key :=
    (List.mergeSort_perm _ _).symm.pairwise h (fun h => h.symm)
  refine hsorted.and hne |>.imp ?_
  rintro a b ⟨hle, hne⟩
  exact lt_of_le_of_ne (Priority.atLeast_iff.mp hle) hne.symm

theorem painted_decreasing :
    (painted block inline active).Pairwise fun a b => b.priority.key < a.priority.key :=
  mergeSort_decreasing kept_priorities

/-- In a row of decreasing priority, the first match with a property is the best one with it. -/
theorem le_of_find? {p : Match → Bool} {m k : Match} : ∀ {ms : List Match},
    ms.Pairwise (fun a b => b.priority.key < a.priority.key) → ms.find? p = some m →
      k ∈ ms → p k = true → k.priority.key ≤ m.priority.key
  | [], _, h, _, _ => by simp at h
  | a :: rest, hdec, h, hk, hpk => by
      rw [List.pairwise_cons] at hdec
      by_cases hpa : p a = true
      · rw [List.find?_cons_of_pos hpa] at h
        cases h
        rcases List.mem_cons.mp hk with rfl | hk
        · exact le_rfl
        · exact (hdec.1 k hk).le
      · rw [List.find?_cons_of_neg hpa] at h
        rcases List.mem_cons.mp hk with rfl | hk
        · exact absurd hpk hpa
        · exact le_of_find? hdec.2 h hk hpk

end Kept

/-! ## Runs in order -/

theorem Run.before_iff {a b : Run} : a.before b = true ↔
    a.span.start < b.span.start ∨ a.span.start = b.span.start ∧ a.span.stop ≤ b.span.stop := by
  simp [before]

theorem Run.before_trans (a b c : Run) (hab : a.before b = true) (hbc : b.before c = true) :
    a.before c = true := by
  rw [before_iff] at *
  omega

theorem Run.before_total (a b : Run) : (a.before b || b.before a) = true := by
  rw [Bool.or_eq_true, before_iff, before_iff]
  omega

/-- Sorting keeps the runs on one span in their order. -/
theorem filter_span_mergeSort (runs : List Run) (s : Span) :
    (runs.mergeSort Run.before).filter (fun r => r.span == s) =
      runs.filter fun r => r.span == s := by
  have hsub : (runs.filter fun r => r.span == s).Sublist (runs.mergeSort Run.before) := by
    refine List.sublist_mergeSort Run.before_trans Run.before_total ?_ List.filter_sublist
    refine List.pairwise_of_forall_mem_list ?_
    intro a ha b hb
    have ha' : a.span = s := by simpa using (List.mem_filter.mp ha).2
    have hb' : b.span = s := by simpa using (List.mem_filter.mp hb).2
    rw [Run.before_iff, ha', hb']
    omega
  have hfilter := hsub.filter fun r => r.span == s
  simp only [List.filter_filter, Bool.and_self] at hfilter
  exact (hfilter.eq_of_length
    ((List.mergeSort_perm runs Run.before).filter _).length_eq.symm).symm

/-- Runs of which no octet is covered twice share no octet. -/
theorem pairwise_of_covers_once : ∀ {runs : List Run},
    (∀ o, (runs.filter fun r => r.span.covers o).length ≤ 1) →
      runs.Pairwise fun a b => ∀ o, ¬ (a.span.covers o = true ∧ b.span.covers o = true)
  | [], _ => List.Pairwise.nil
  | a :: rest, h => by
      refine List.pairwise_cons.mpr ⟨?_, pairwise_of_covers_once fun o => ?_⟩
      · rintro b hb o ⟨ha, hbo⟩
        have hlen := h o
        rw [List.filter_cons_of_pos (by exact ha), List.length_cons] at hlen
        have : b ∈ rest.filter fun r => r.span.covers o := List.mem_filter.mpr ⟨hb, hbo⟩
        have := List.length_pos_of_mem this
        omega
      · have hlen := h o
        by_cases ha : a.span.covers o = true
        · rw [List.filter_cons_of_pos (by exact ha), List.length_cons] at hlen
          omega
        · rwa [List.filter_cons_of_neg (by exact ha)] at hlen

section Paint

variable (block inline : Node) (active : List Feature)

/-- At every octet, the runs are those of the first match painted there. -/
theorem paint_covers (o : Int) :
    ((paint (kept block inline active)).filter fun r => r.span.covers o).map Run.paint =
      (((painted block inline active).find? fun m => m.span.covers o).map Match.paint).toList := by
  have hperm := ((List.mergeSort_perm (paintAll .blank (painted block inline active))
    Run.before).filter fun r => r.span.covers o).map Run.paint
  rw [paintAll_covers _ Canvas.ordered_blank (Canvas.not_covers_blank o)] at hperm
  cases hfind : (painted block inline active).find? fun m => m.span.covers o with
  | none =>
      rw [hfind] at hperm
      exact hperm.eq_nil
  | some m =>
      rw [hfind] at hperm
      exact hperm.eq_singleton

theorem paint_covers_once (o : Int) :
    ((paint (kept block inline active)).filter fun r => r.span.covers o).length ≤ 1 := by
  rw [← List.length_map Run.paint, paint_covers]
  cases (painted block inline active).find? fun m => m.span.covers o <;> simp

/-- The first match painted at an octet comes from the best hit that covers it. -/
theorem find?_painted_spec (o : Int) :
    ((painted block inline active).find? (fun m => m.span.covers o) = none ∧
      ∀ h, IsHit block inline active h → ¬ h.node.span.covers o = true) ∨
    ∃ h, IsHit block inline active h ∧ h.node.span.covers o = true ∧
      (painted block inline active).find? (fun m => m.span.covers o) = some h.toMatch ∧
      ∀ k, IsHit block inline active k → k.node.span.covers o = true →
        k.priority.key ≤ h.priority.key := by
  cases hfind : (painted block inline active).find? fun m => m.span.covers o with
  | none =>
      refine Or.inl ⟨rfl, fun h hh hcov => ?_⟩
      obtain ⟨k, hk, hkmem, hid, -⟩ := exists_kept hh
      have := List.find?_eq_none.mp hfind k.toMatch
        (mem_painted.mpr (mem_kept.mpr ⟨_, hkmem⟩))
      rw [Hit.toMatch_span, hid.2.1] at this
      exact this hcov
  | some m =>
      obtain ⟨h, hh, rfl⟩ :=
        exists_hit_of_mem_kept (mem_painted.mp (List.mem_of_find?_eq_some hfind))
      have hcovers := List.find?_some hfind
      refine Or.inr ⟨h, hh, hcovers, rfl, fun k hk hcov => ?_⟩
      obtain ⟨b, hb, hbmem, hid, hle⟩ := exists_kept hk
      have hbest := le_of_find? painted_decreasing hfind
        (mem_painted.mpr (mem_kept.mpr ⟨_, hbmem⟩)) (by
          rw [Hit.toMatch_span, hid.2.1]
          exact hcov)
      exact hle.trans hbest

end Paint

/-! ## The main statements -/

/-- **Painter's law at every octet.** For every table, choice of features and pair of trees,
highlighting succeeds, and at every offset: where no hit covers the octet nothing is painted;
elsewhere exactly one run covers it, painted by the hit of highest priority that does. -/
theorem Table.octet_painted_by_best_hit (t : Table) (initial enabled : t.Choice)
    (block inline : Node) :
    ∃ h e, Highlighter.create t.features initial.names = .ok h ∧
      h.evaluate (some block) (some inline) enabled.names = .ok e ∧
      ∀ o : Int,
        ((∀ m, IsHit block inline (t.active initial enabled) m → ¬ m.node.span.covers o = true) →
          (∀ r ∈ e.runs, ¬ r.span.covers o = true) ∧ categoryAt e.runs o = none) ∧
        ((∃ m, IsHit block inline (t.active initial enabled) m ∧ m.node.span.covers o = true) →
          ∃ m, IsHit block inline (t.active initial enabled) m ∧ m.node.span.covers o = true ∧
            (∀ k, IsHit block inline (t.active initial enabled) k →
              k.node.span.covers o = true → k.priority.key ≤ m.priority.key) ∧
            ∃ r, e.runs.filter (fun r => r.span.covers o) = [r] ∧
              r.category = m.rule.category ∧ r.feature = m.feature.name ∧
              categoryAt e.runs o = some m.rule.category) := by
  obtain ⟨h, hcreate, heval⟩ := t.evaluate_eq initial enabled block inline
  rw [evaluateFeatures_eq (t.active_wellFormed initial enabled)] at heval
  refine ⟨h, _, hcreate, heval, fun o => ?_⟩
  have hpaint := paint_covers block inline (t.active initial enabled) o
  have hat : ∀ runs : List Run,
      categoryAt runs o = (runs.filter fun r => r.span.covers o).head?.map (·.category) := by
    intro runs
    rw [categoryAt, List.head?_filter]
  rcases find?_painted_spec block inline (t.active initial enabled) o with
    ⟨hnone, hfree⟩ | ⟨m, hm, hcov, hsome, hbest⟩
  · rw [hnone] at hpaint
    have hnil := List.map_eq_nil_iff.mp hpaint
    refine ⟨fun _ => ⟨?_, ?_⟩, fun ⟨m, hm, hcov⟩ => absurd hcov (hfree m hm)⟩
    · intro r hr hcov
      exact List.filter_eq_nil_iff.mp hnil r hr hcov
    · rw [hat, hnil]
      rfl
  · rw [hsome] at hpaint
    obtain ⟨r, hr, hrpaint⟩ := List.map_eq_singleton_iff.mp hpaint
    simp only [Run.paint, Match.paint, Prod.mk.injEq] at hrpaint
    refine ⟨fun hfree => absurd hcov (hfree m hm), fun _ => ⟨m, hm, hcov, hbest, r, hr,
      hrpaint.1, hrpaint.2, ?_⟩⟩
    rw [hat, hr]
    simp [hrpaint.1]

/-- **Shape of the runs.** The runs are ordered by start and then by end, and of two runs that
hold octets the earlier one ends before the later one starts. -/
theorem Table.runs_ordered_disjoint (t : Table) (initial enabled : t.Choice)
    (block inline : Node) :
    ∃ h e, Highlighter.create t.features initial.names = .ok h ∧
      h.evaluate (some block) (some inline) enabled.names = .ok e ∧
      (e.runs.Pairwise fun a b => a.span.start < b.span.start ∨
        a.span.start = b.span.start ∧ a.span.stop ≤ b.span.stop) ∧
      e.runs.Pairwise fun a b => a.span.start < a.span.stop → b.span.start < b.span.stop →
        a.span.stop ≤ b.span.start := by
  obtain ⟨h, hcreate, heval⟩ := t.evaluate_eq initial enabled block inline
  rw [evaluateFeatures_eq (t.active_wellFormed initial enabled)] at heval
  have hsorted : (paint (kept block inline (t.active initial enabled))).Pairwise
      fun a b => a.before b = true :=
    List.pairwise_mergeSort Run.before_trans Run.before_total _
  refine ⟨h, _, hcreate, heval, hsorted.imp Run.before_iff.mp, ?_⟩
  refine (hsorted.and (pairwise_of_covers_once (paint_covers_once _ _ _))).imp ?_
  rintro a b ⟨hbefore, hdisjoint⟩ ha hb
  rw [Run.before_iff] at hbefore
  -- otherwise both would cover the octet where the later one starts
  by_contra hover
  refine hdisjoint b.span.start ⟨Span.covers_iff.mpr ?_, Span.covers_iff.mpr ?_⟩ <;> omega

/-- A row of matches that come from hits, as a row of hits. -/
theorem exists_hits (block inline : Node) (active : List Feature) : ∀ (ms : List Match),
    (∀ m ∈ ms, ∃ h, IsHit block inline active h ∧ h.toMatch = m) →
      ∃ hits : List Hit, hits.map Hit.toMatch = ms ∧ ∀ h ∈ hits, IsHit block inline active h
  | [], _ => ⟨[], rfl, by simp⟩
  | m :: rest, h => by
      obtain ⟨k, hk, rfl⟩ := h m List.mem_cons_self
      obtain ⟨hits, rfl, hhits⟩ :=
        exists_hits block inline active rest fun m hm => h m (List.mem_cons_of_mem _ hm)
      exact ⟨k :: hits, rfl, List.forall_mem_cons.mpr ⟨hk, hhits⟩⟩

/-- The hit is the best of its identity, and no better hit has its place strictly inside. -/
structure IsBare (block inline : Node) (active : List Feature) (m : Hit) : Prop where
  hit : IsHit block inline active m
  empty : m.node.span.stop ≤ m.node.span.start
  best : ∀ k, IsHit block inline active k → k.SameIdentity m → k.priority.key ≤ m.priority.key
  unburied : ¬ ∃ k, IsHit block inline active k ∧ m.priority.key < k.priority.key ∧
    k.node.span.start < m.node.span.start ∧ m.node.span.start < k.node.span.stop

/-- A hit leaves a run without octets iff its match is painted bare. -/
theorem isBare_iff {block inline : Node} {active : List Feature} {h : Hit}
    (hh : IsHit block inline active h) :
    IsBare block inline active h ↔
      h.toMatch ∈ (painted block inline active).filter
        (·.isBare (painted block inline active)) := by
  have hburied : h.toMatch.isBuried (painted block inline active) = true ↔
      ∃ k, IsHit block inline active k ∧ h.priority.key < k.priority.key ∧
        k.node.span.Encloses h.node.span.start := by
    rw [Match.isBuried_iff]
    constructor
    · rintro ⟨m, hm, hlt, henc⟩
      obtain ⟨k, hk, rfl⟩ := exists_hit_of_mem_kept (mem_painted.mp hm)
      exact ⟨k, hk, hlt, henc⟩
    · rintro ⟨k, hk, hlt, henc⟩
      obtain ⟨b, -, hbmem, hid, hle⟩ := exists_kept hk
      refine ⟨b.toMatch, mem_painted.mpr (mem_kept.mpr ⟨_, hbmem⟩), lt_of_lt_of_le hlt hle, ?_⟩
      rw [Hit.toMatch_span, hid.2.1]
      exact henc
  rw [List.mem_filter, mem_painted, toMatch_mem_kept_iff hh, Match.isBare, Bool.and_eq_true,
    Hit.toMatch_span, Span.isEmpty_iff, Bool.not_eq_true', ← Bool.not_eq_true, hburied]
  constructor
  · rintro ⟨-, hempty, hbest, hunburied⟩
    exact ⟨hbest, hempty, hunburied⟩
  · rintro ⟨hbest, hempty, hunburied⟩
    exact ⟨hh, hempty, hbest, hunburied⟩

/-- **Law of the runs without octets.** They are, in some order, one run for each identity without
octets whose best hit is not buried; the run is painted by that hit. Runs on one span appear in
the order of decreasing priority. -/
theorem Table.empty_runs_unburied (t : Table) (initial enabled : t.Choice)
    (block inline : Node) :
    ∃ h e, Highlighter.create t.features initial.names = .ok h ∧
      h.evaluate (some block) (some inline) enabled.names = .ok e ∧
      ∃ bare : List Hit,
        (∀ m, m ∈ bare ↔ IsBare block inline (t.active initial enabled) m) ∧
        (bare.Pairwise fun a b => b.priority.key < a.priority.key) ∧
        (bare.Pairwise fun a b => ¬ a.SameIdentity b) ∧
        (e.runs.filter fun r => r.span.isEmpty).Perm
          (bare.map fun m => ⟨m.node.span, m.rule.category, m.feature.name⟩) ∧
        ∀ s : Span, s.isEmpty = true →
          e.runs.filter (fun r => r.span == s) =
            (bare.filter fun m => m.node.span == s).map
              fun m => ⟨m.node.span, m.rule.category, m.feature.name⟩ := by
  obtain ⟨h, hcreate, heval⟩ := t.evaluate_eq initial enabled block inline
  rw [evaluateFeatures_eq (t.active_wellFormed initial enabled)] at heval
  refine ⟨h, _, hcreate, heval, ?_⟩
  set active := t.active initial enabled
  set all := painted block inline active with hall
  obtain ⟨bare, hbare, hhits⟩ := exists_hits block inline active (all.filter (·.isBare all)) (by
      intro m hm
      exact exists_hit_of_mem_kept (mem_painted.mp (List.mem_of_mem_filter hm)))
  have hdecreasing : bare.Pairwise fun a b => b.priority.key < a.priority.key := by
    have : all.Pairwise fun a b => b.priority.key < a.priority.key := painted_decreasing
    have := this.sublist (List.filter_sublist (p := (·.isBare all)))
    rw [← hbare, List.pairwise_map] at this
    exact this
  have hmem : ∀ m, m ∈ bare ↔ IsBare block inline active m := by
    intro m
    constructor
    · intro hm
      rw [isBare_iff (hhits m hm), ← hall, ← hbare]
      exact List.mem_map_of_mem hm
    · intro hm
      have := (isBare_iff hm.hit).mp hm
      rw [← hall, ← hbare] at this
      obtain ⟨k, hk, heq⟩ := List.mem_map.mp this
      rwa [← (hhits k hk).eq_of_priority hm.hit (congrArg Match.priority heq)]
  have hrow : (paintAll .blank all).filter (fun r => r.span.isEmpty) =
      bare.map fun m => ⟨m.node.span, m.rule.category, m.feature.name⟩ := by
    rw [paintAll_empty painted_decreasing all [] rfl Canvas.ordered_blank (by
      intro p
      simp [Canvas.not_encloses_blank]), ← hbare, List.map_map]
    rfl
  refine ⟨bare, hmem, hdecreasing, ?_, ?_, ?_⟩
  · refine hdecreasing.imp_of_mem ?_
    intro a b ha hb hlt hid
    exact absurd (((hmem b).mp hb).best a ((hmem a).mp ha).hit hid) hlt.not_ge
  · rw [← hrow]
    exact (List.mergeSort_perm _ _).filter _
  · intro s hs
    have hsplit : (paintAll .blank all).filter (fun r => r.span == s) =
        ((paintAll .blank all).filter fun r => r.span.isEmpty).filter fun r => r.span == s := by
      rw [List.filter_filter]
      apply List.filter_congr
      intro r _
      by_cases hrs : r.span = s
      · simp [hrs, hs]
      · simp [hrs]
    show (List.mergeSort _ _).filter _ = _
    rw [filter_span_mergeSort]
    exact hsplit.trans (by rw [hrow, List.filter_map]; rfl)

end Limn
