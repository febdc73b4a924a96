import Limn.Proofs.Painting
import Limn.Proofs.Unindexed

/-! # How many runs there are

A claim can be cut into as many pieces as there are claimed spans, and one more; but then it merges
them. So the pieces are paid for by the spans that disappear from the canvas: with every claim, the
pieces answered so far together with the spans now claimed grow by two at most
(`Canvas.length_claim`, `length_paintAll`). As something is claimed in the end, `n` matches that
hold octets leave at most `2 * n - 1` runs that do. Matches without octets leave at most one run
each.

What is painted is one match for each identity that some rule matches, so the bounds can be read in
terms of identities (`Table.runs_linear`).
-/

namespace Limn

/-! ## Pieces are paid for -/

namespace Canvas

theorem length_gaps (stop : Int) : ∀ (met : List Span) (cursor : Int),
    (gaps cursor stop met).length ≤ met.length + 1
  | [], cursor => by
      unfold gaps
      split <;> simp
  | s :: rest, cursor => by
      have ih := length_gaps stop rest (max cursor s.stop)
      unfold gaps
      dsimp only
      split
      · rw [List.length_cons, List.length_cons]
        omega
      · rw [List.length_cons]
        omega

/-- **The pieces of a claim are paid for by the spans that it merges.** -/
theorem length_claim {c : Canvas} (hc : c.Ordered) (span : Span) :
    (c.claim span).1.length + (c.claim span).2.claimed.length ≤ c.claimed.length + 2 := by
  obtain ⟨before, met, past, hsplit, -, -, -, hclaim⟩ := claim_split hc span
  have hgaps := length_gaps span.stop met span.start
  rw [hclaim, hsplit]
  simp only [List.length_append, List.length_cons]
  omega

theorem length_claim_pos (c : Canvas) (span : Span) : 0 < (c.claim span).2.claimed.length := by
  unfold claim
  simp

end Canvas

/-! ## Painting a row of matches -/

/-- The canvas after painting a row of matches. -/
def canvasAfter (c : Canvas) (ms : List Match) : Canvas :=
  ms.foldl (fun c m => (paintMatch c m).2) c

theorem paintMatch_of_bare {c : Canvas} {m : Match} (h : m.span.isEmpty = true) :
    (paintMatch c m).1.filter (fun r => !r.span.isEmpty) = [] ∧ (paintMatch c m).2 = c := by
  rw [paintMatch_of_empty h]
  refine ⟨?_, rfl⟩
  rw [List.filter_eq_nil_iff]
  intro r hr
  split at hr
  · exact absurd hr List.not_mem_nil
  · rw [List.mem_singleton.mp hr, Match.run_span, h]
    decide

/-- One match: the runs with octets and the spans then claimed are at most two more than the spans
claimed before. -/
theorem length_paintMatch {c : Canvas} (hc : c.Ordered) {m : Match} (h : ¬m.span.isEmpty = true) :
    ((paintMatch c m).1.filter fun r => !r.span.isEmpty).length +
        (paintMatch c m).2.claimed.length ≤ c.claimed.length + 2 ∧
      0 < (paintMatch c m).2.claimed.length := by
  rw [paintMatch_of_nonempty h]
  refine ⟨?_, Canvas.length_claim_pos c m.span⟩
  have hclaim := Canvas.length_claim hc m.span
  have hfilter := List.length_filter_le (fun r : Run => !r.span.isEmpty)
    ((c.claim m.span).1.map m.run)
  rw [List.length_map] at hfilter
  dsimp only
  omega

/-- A row of matches: every match with octets adds two at most. -/
theorem length_paintAll : ∀ (ms : List Match) {c : Canvas}, c.Ordered →
    ((paintAll c ms).filter fun r => !r.span.isEmpty).length + (canvasAfter c ms).claimed.length ≤
      c.claimed.length + 2 * ms.countP fun m => !m.span.isEmpty
  | [], c, _ => by simp [paintAll, canvasAfter]
  | m :: rest, c, hc => by
      have ih := length_paintAll rest (paintMatch_spec hc m).ordered
      rw [paintAll_cons, List.filter_append, List.length_append, canvasAfter, List.foldl_cons]
      change _ + _ + (canvasAfter _ rest).claimed.length ≤ _
      by_cases hm : m.span.isEmpty = true
      · obtain ⟨hruns, hcanvas⟩ := paintMatch_of_bare (c := c) hm
        rw [List.countP_cons_of_neg (by simp [hm]), hruns]
        rw [hcanvas] at ih ⊢
        simpa using ih
      · have hstep := (length_paintMatch hc hm).1
        rw [List.countP_cons_of_pos (by simpa using hm)]
        omega

theorem length_canvasAfter_pos : ∀ (ms : List Match) {c : Canvas}, c.Ordered →
    (0 < c.claimed.length ∨ ∃ m ∈ ms, m.span.isEmpty = false) →
      0 < (canvasAfter c ms).claimed.length
  | [], c, _, h => by
      rcases h with h | ⟨m, hm, -⟩
      · exact h
      · exact absurd hm List.not_mem_nil
  | m :: rest, c, hc, h => by
      refine length_canvasAfter_pos rest (paintMatch_spec hc m).ordered ?_
      dsimp only
      by_cases hm : m.span.isEmpty = true
      · rw [(paintMatch_of_bare hm).2]
        refine h.imp_right ?_
        rintro ⟨k, hk, hempty⟩
        rcases List.mem_cons.mp hk with rfl | hk
        · rw [hm] at hempty
          contradiction
        · exact ⟨k, hk, hempty⟩
      · exact Or.inl (length_paintMatch hc hm).2

/-- **Runs with octets.** There are less than twice as many as matches with octets, and none without
such matches. -/
theorem length_filled_le (ms : List Match) :
    ((paintAll .blank ms).filter fun r => !r.span.isEmpty).length ≤
      2 * (ms.countP fun m => !m.span.isEmpty) - 1 := by
  have hlength := length_paintAll ms Canvas.ordered_blank
  have hblank : Canvas.blank.claimed.length = 0 := rfl
  by_cases hany : ∃ m ∈ ms, m.span.isEmpty = false
  · have hpos := length_canvasAfter_pos ms Canvas.ordered_blank (Or.inr hany)
    omega
  · have hnone : (ms.countP fun m => !m.span.isEmpty) = 0 := by
      rw [List.countP_eq_zero]
      intro m hm hempty
      exact hany ⟨m, hm, by simpa using hempty⟩
    omega

/-- **Runs without octets.** There are no more than matches without octets. -/
theorem length_bare_le (block inline : Node) (active : List Feature) :
    ((paintAll .blank (painted block inline active)).filter fun r => r.span.isEmpty).length ≤
      (painted block inline active).countP fun m => m.span.isEmpty := by
  have hblank : ∀ p, Canvas.blank.Encloses p ↔ ∃ k ∈ ([] : List Match), k.span.Encloses p := by
    intro p
    simp [Canvas.not_encloses_blank]
  rw [paintAll_empty painted_decreasing (painted block inline active) [] rfl Canvas.ordered_blank
    hblank, List.length_map, ← List.countP_eq_length_filter]
  apply List.countP_mono_left
  intro m _ hm
  unfold Match.isBare at hm
  rw [Bool.and_eq_true] at hm
  exact hm.1

/-! ## Identities -/

section Identities

variable (block inline : Node) (active : List Feature)

/-- Some rule that is on matches a node of the identity, in the tree of the layer. -/
def IsMatched (i : Layer × Identity) : Prop :=
  ∃ h, IsHit block inline active h ∧ h.rule.layer = i.1 ∧ h.node.span = i.2.span ∧
    h.node.type = i.2.type

/-- The identities of the kept matches. -/
def keptIdentities : List (Layer × Identity) :=
  (keptIn block inline active .block).map (fun m => (.block, m.identity)) ++
    (keptIn block inline active .inline).map fun m => (.inline, m.identity)

theorem nodup_keptIdentities : (keptIdentities block inline active).Nodup := by
  have hlayer : ∀ layer : Layer,
      ((keptIn block inline active layer).map fun m => (layer, m.identity)).Nodup := by
    intro layer
    obtain ⟨hits, hresolved, -⟩ := keptIn_resolved block inline active layer
    rw [List.Nodup, List.pairwise_map]
    apply hresolved.distinct.imp
    rintro a b hne heq
    exact hne (Match.sameNode_iff_identity.mpr (Prod.mk.inj heq).2)
  unfold keptIdentities
  refine List.nodup_append.mpr ⟨hlayer .block, hlayer .inline, ?_⟩
  intro a ha b hb
  obtain ⟨m, -, rfl⟩ := List.mem_map.mp ha
  obtain ⟨k, -, rfl⟩ := List.mem_map.mp hb
  simp

theorem mem_keptIdentities {i : Layer × Identity} :
    i ∈ keptIdentities block inline active ↔ IsMatched block inline active i := by
  have hlayers : i ∈ keptIdentities block inline active ↔
      ∃ layer, ∃ m ∈ keptIn block inline active layer, (layer, m.identity) = i := by
    unfold keptIdentities
    rw [List.mem_append, List.mem_map, List.mem_map]
    constructor
    · rintro (h | h)
      · exact ⟨_, h⟩
      · exact ⟨_, h⟩
    · rintro ⟨_ | _ | _, m, hm, rfl⟩
      · exact Or.inl ⟨m, hm, rfl⟩
      · exact Or.inr ⟨m, hm, rfl⟩
      · exact absurd hm List.not_mem_nil
  rw [hlayers]
  constructor
  · rintro ⟨layer, m, hm, rfl⟩
    obtain ⟨h, hh, rfl, rfl⟩ := exists_hit_of_mem_keptIn hm
    exact ⟨h, hh, rfl, rfl, rfl⟩
  · obtain ⟨layer, span, type⟩ := i
    rintro ⟨h, hh, rfl, rfl, rfl⟩
    obtain ⟨k, -, hk, ⟨-, hspan, htype⟩, -⟩ := exists_kept hh
    refine ⟨_, _, hk, ?_⟩
    rw [Match.identity, Hit.toMatch_span, Hit.toMatch_type, hspan, htype]

/-- The kept matches whose span has a property are as many as the identities with it. -/
theorem card_identities (p : Span → Bool) :
    ((keptIdentities block inline active).filter fun i => p i.2.span).toFinset.card =
      (painted block inline active).countP fun m => p m.span := by
  have hperm : (painted block inline active).countP (fun m => p m.span) =
      (kept block inline active).countP fun m => p m.span :=
    (List.mergeSort_perm _ _).countP_eq _
  rw [List.toFinset_card_of_nodup ((nodup_keptIdentities block inline active).filter _), hperm,
    ← List.countP_eq_length_filter]
  unfold keptIdentities kept
  rw [List.countP_append, List.countP_append, List.countP_map, List.countP_map]
  rfl

end Identities

/-! ## The number of runs -/

/-- **The number of runs is linear in the number of matched nodes**, however they overlap.
Highlighting gives at most `2 * n - 1` runs with octets (which is none for `n = 0`), where `n` is
the number of identities with octets that some rule matches, and at most as many runs without octets
as there are matched identities without. -/
theorem Table.runs_linear (t : Table) (initial enabled : t.Choice) (block inline : Node) :
    ∃ h e, Highlighter.create t.features initial.names = .ok h ∧
      h.evaluate (some block) (some inline) enabled.names = .ok e ∧
      ∃ filled bare : Finset (Layer × Identity),
        (∀ i, i ∈ filled ↔ IsMatched block inline (t.active initial enabled) i ∧
          i.2.span.start < i.2.span.stop) ∧
        (∀ i, i ∈ bare ↔ IsMatched block inline (t.active initial enabled) i ∧
          i.2.span.stop ≤ i.2.span.start) ∧
        (e.runs.countP fun r => r.span.start < r.span.stop) ≤ 2 * filled.card - 1 ∧
        (e.runs.countP fun r => r.span.stop ≤ r.span.start) ≤ bare.card := by
  obtain ⟨h, hcreate, heval⟩ := t.evaluate_eq initial enabled block inline
  rw [evaluateFeatures_eq (t.active_wellFormed initial enabled)] at heval
  set active := t.active initial enabled
  have hfilled : ∀ s : Span, (!s.isEmpty) = true ↔ s.start < s.stop := by
    intro s
    rw [Bool.not_eq_true', ← Bool.not_eq_true, Span.isEmpty_iff, not_le]
  have hruns : ∀ p : Run → Bool, (paint (kept block inline active)).countP p =
      (paintAll .blank (painted block inline active)).countP p :=
    fun p => (List.mergeSort_perm _ _).countP_eq p
  refine ⟨h, _, hcreate, heval,
    ((keptIdentities block inline active).filter fun i => !i.2.span.isEmpty).toFinset,
    ((keptIdentities block inline active).filter fun i => i.2.span.isEmpty).toFinset,
    ?_, ?_, ?_, ?_⟩
  · intro i
    rw [List.mem_toFinset, List.mem_filter, mem_keptIdentities, hfilled]
  · intro i
    rw [List.mem_toFinset, List.mem_filter, mem_keptIdentities, Span.isEmpty_iff]
  · rw [card_identities block inline active fun s => !s.isEmpty]
    have hcount : (paint (kept block inline active)).countP
        (fun r => decide (r.span.start < r.span.stop)) =
          ((paintAll .blank (painted block inline active)).filter
            fun r => !r.span.isEmpty).length := by
      rw [hruns, List.countP_eq_length_filter]
      congr 2
      funext r
      rw [Bool.eq_iff_iff, decide_eq_true_iff, hfilled]
    rw [hcount]
    exact length_filled_le _
  · rw [card_identities block inline active fun s => s.isEmpty]
    change (paint (kept block inline active)).countP (fun r => r.span.isEmpty) ≤ _
    rw [hruns, List.countP_eq_length_filter]
    exact length_bare_le block inline active

end Limn
