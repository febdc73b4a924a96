import Limn.Canvas
import Mathlib.Tactic

/-! # The canvas as a set of claims

A canvas stays *ordered*: its spans hold octets, and each ends before the next one starts. On an
ordered canvas bisection finds exactly the spans that a claim meets (`claim_split`), and everything
else is read off that decomposition:

- `ordered_claim`: a claim keeps the canvas ordered;
- `covers_claim`, `encloses_claim`: what the canvas covers, and what lies strictly inside its
  spans, is what did so before or does so for the claimed span alone;
- `gaps_covers`, `gaps_separated`: the answer of a claim is what was still free of it, in pieces
  that do not even touch.
-/

namespace Limn

/-! ## Spans -/

theorem Span.covers_iff {s : Span} {o : Int} : s.covers o = true ↔ s.start ≤ o ∧ o < s.stop := by
  simp [Span.covers]

theorem Span.isEmpty_iff {s : Span} : s.isEmpty = true ↔ s.stop ≤ s.start := by
  simp [Span.isEmpty]

/-- The position lies strictly between the ends of the span. -/
def Span.Encloses (s : Span) (p : Int) : Prop :=
  s.start < p ∧ p < s.stop

/-! ## Bisection -/

/-- Bisection finds the place where a row passes a number, if there is one. -/
theorem insertionPoint_eq {row : Array Int} {x : Int} {k : Nat} (low high : Nat)
    (hlow : low ≤ k) (hhigh : k ≤ high)
    (hbelow : ∀ i, low ≤ i → i < k → row.getD i 0 ≤ x)
    (habove : ∀ i, k ≤ i → i < high → x < row.getD i 0) :
    insertionPoint row x low high = k := by
  induction low, high using insertionPoint.induct row x with
  | case1 low high hlt middle hx ih =>
      -- the middle lies above the number, so the place is not after it
      have hk : k ≤ middle := by
        by_contra hk
        have := hbelow middle (by omega) (by omega)
        omega
      rw [insertionPoint, if_pos hlt]
      simp only [middle] at hx
      rw [if_pos hx]
      exact ih hlow hk hbelow (fun i hi hm => habove i hi (by omega))
  | case2 low high hlt middle hx ih =>
      have hk : middle + 1 ≤ k := by
        by_contra hk
        exact hx (habove middle (by omega) (by omega))
      rw [insertionPoint, if_pos hlt]
      simp only [middle] at hx
      rw [if_neg hx]
      exact ih hk hhigh (fun i hi hm => hbelow i (by omega) hm) habove
  | case3 low high hlt =>
      rw [insertionPoint, if_neg hlt]
      omega

/-- Where the numbers of a row of spans pass `x`, bisection finds the place. -/
theorem insertionPoint_append (f : Span → Int) (x : Int) (below above : List Span)
    (hbelow : ∀ s ∈ below, f s ≤ x) (habove : ∀ s ∈ above, x < f s) :
    insertionPoint ((below ++ above).map f).toArray x 0 (below ++ above).length =
      below.length := by
  apply insertionPoint_eq
  · exact Nat.zero_le _
  · simp
  · intro i _ hi
    have hget : (((below ++ above).map f).toArray).getD i 0 = f (below.get ⟨i, hi⟩) := by
      rw [List.map_append]
      simp [Array.getD, hi, show i < below.length + above.length by omega]
    rw [hget]
    exact hbelow _ (List.get_mem _ _)
  · intro i hki hi
    rw [List.length_append] at hi
    have hget : (((below ++ above).map f).toArray).getD i 0 =
        f (above.get ⟨i - below.length, by omega⟩) := by
      rw [List.map_append]
      simp [Array.getD, hi, hki]
    rw [hget]
    exact habove _ (List.get_mem _ _)

/-- A row whose numbers do not decrease passes every number somewhere. -/
theorem exists_passing (f : Span → Int) (x : Int) : ∀ row : List Span,
    row.Pairwise (fun a b => f a ≤ f b) →
      ∃ below above, row = below ++ above ∧ (∀ s ∈ below, f s ≤ x) ∧ ∀ s ∈ above, x < f s
  | [], _ => ⟨[], [], rfl, by simp, by simp⟩
  | s :: rest, h => by
      rw [List.pairwise_cons] at h
      by_cases hs : f s ≤ x
      · obtain ⟨below, above, rfl, hb, ha⟩ := exists_passing f x rest h.2
        refine ⟨s :: below, above, rfl, ?_, ha⟩
        intro t ht
        rcases List.mem_cons.mp ht with rfl | ht
        · exact hs
        · exact hb t ht
      · refine ⟨[], s :: rest, rfl, by simp, ?_⟩
        intro t ht
        rcases List.mem_cons.mp ht with rfl | ht
        · omega
        · have := h.1 t ht
          omega

namespace Canvas

/-! ## Ordered canvases -/

/-- Spans that hold octets, each ending before the next one starts. -/
def Row (spans : List Span) : Prop :=
  spans.Pairwise (fun a b => a.stop ≤ b.start) ∧ ∀ s ∈ spans, s.start < s.stop

/-- The claimed spans are in order and hold octets. -/
def Ordered (c : Canvas) : Prop :=
  Row c.claimed

/-- Some claimed span covers the octet. -/
def Covers (c : Canvas) (o : Int) : Prop :=
  ∃ s ∈ c.claimed, s.covers o = true

/-- The position lies strictly inside some claimed span. -/
def Encloses (c : Canvas) (p : Int) : Prop :=
  ∃ s ∈ c.claimed, s.Encloses p

theorem ordered_blank : blank.Ordered := by
  simp [Ordered, Row, blank]

theorem not_covers_blank (o : Int) : ¬ blank.Covers o := by
  simp [Covers, blank]

theorem not_encloses_blank (p : Int) : ¬ blank.Encloses p := by
  simp [Encloses, blank]

theorem Row.append_iff {xs ys : List Span} :
    Row (xs ++ ys) ↔ Row xs ∧ Row ys ∧ ∀ a ∈ xs, ∀ b ∈ ys, a.stop ≤ b.start := by
  simp only [Row, List.pairwise_append, List.mem_append]
  constructor
  · rintro ⟨⟨h₁, h₂, h₃⟩, h₄⟩
    exact ⟨⟨h₁, fun s hs => h₄ s (Or.inl hs)⟩, ⟨h₂, fun s hs => h₄ s (Or.inr hs)⟩, h₃⟩
  · rintro ⟨⟨h₁, h₂⟩, ⟨h₃, h₄⟩, h₅⟩
    exact ⟨⟨h₁, h₃, h₅⟩, fun s hs => hs.elim (h₂ s) (h₄ s)⟩

theorem Row.cons_iff {s : Span} {rest : List Span} :
    Row (s :: rest) ↔ s.start < s.stop ∧ (∀ t ∈ rest, s.stop ≤ t.start) ∧ Row rest := by
  simp only [Row, List.pairwise_cons, List.forall_mem_cons]
  tauto

theorem Row.starts {spans : List Span} (h : Row spans) :
    spans.Pairwise (fun a b => a.start ≤ b.start) := by
  refine h.1.imp_of_mem ?_
  intro a b ha _ hab
  have := h.2 a ha
  omega

theorem Row.stops {spans : List Span} (h : Row spans) :
    spans.Pairwise (fun a b => a.stop ≤ b.stop) := by
  refine h.1.imp_of_mem ?_
  intro a b _ hb hab
  have := h.2 b hb
  omega

/-! ## What a claim does -/

/-- **The inversion of a claim.** The canvas falls into the spans that end before the claimed one,
those that it meets and those that start after it; the middle part is answered by its gaps and
replaced by one span. -/
theorem claim_split {c : Canvas} (hc : c.Ordered) (span : Span) :
    ∃ before met past, c.claimed = before ++ (met ++ past) ∧
      (∀ s ∈ before, s.stop ≤ span.start) ∧
      (∀ s ∈ met, span.start < s.stop ∧ s.start < span.stop) ∧
      (∀ s ∈ past, span.stop ≤ s.start) ∧
      c.claim span =
        (gaps span.start span.stop met, ⟨before ++ merged span met :: past⟩) := by
  obtain ⟨before, ahead, hsplit, hbefore, hahead⟩ :=
    exists_passing (·.stop) span.start c.claimed hc.stops
  have hrow : Row ahead := by
    have h : Row c.claimed := hc
    rw [hsplit, Row.append_iff] at h
    exact h.2.1
  obtain ⟨met, past, rfl, hmet, hpast⟩ :=
    exists_passing (·.start) (span.stop - 1) ahead hrow.starts
  have hended : c.endedBy span.start = before.length := by
    have := insertionPoint_append (·.stop) span.start before (met ++ past) hbefore hahead
    simpa [endedBy, stops, hsplit] using this
  have htake : (met ++ past).takeWhile (fun s => s.start < span.stop) = met := by
    rw [List.takeWhile_append_of_pos]
    · cases past with
      | nil => simp
      | cons s rest =>
          have := hpast s (by simp)
          rw [List.takeWhile_cons_of_neg (by simp; omega), List.append_nil]
    · intro s hs
      have := hmet s hs
      simp only [decide_eq_true_eq]
      omega
  refine ⟨before, met, past, hsplit, hbefore, ?_, ?_, ?_⟩
  · intro s hs
    have := hmet s hs
    exact ⟨hahead s (List.mem_append_left _ hs), by omega⟩
  · intro s hs
    have := hpast s hs
    omega
  · simp [claim, hended, hsplit, htake]

/-- The ends of the merged span come from the claimed span or from a span that it meets, and no
span that it meets goes beyond them. -/
theorem merged_bounds (span : Span) {met : List Span} (hmet : Row met) :
    ((merged span met).start ≤ span.start ∧ ∀ s ∈ met, (merged span met).start ≤ s.start) ∧
      ((merged span met).start = span.start ∨ ∃ s ∈ met, (merged span met).start = s.start) ∧
      (span.stop ≤ (merged span met).stop ∧ ∀ s ∈ met, s.stop ≤ (merged span met).stop) ∧
      ((merged span met).stop = span.stop ∨ ∃ s ∈ met, (merged span met).stop = s.stop) := by
  rcases List.eq_nil_or_concat' met with rfl | ⟨init, last, rfl⟩
  · simp [merged]
  · obtain ⟨first, rest, hfirst⟩ : ∃ first rest, init ++ [last] = first :: rest := by
      cases init <;> simp
    have hm : merged span (init ++ [last]) =
        ⟨min span.start first.start, max span.stop last.stop⟩ := by
      rw [merged, List.getLast?_concat, hfirst, List.head?_cons]
    have hlow : ∀ s ∈ init ++ [last], first.start ≤ s.start := by
      have h := hmet.starts
      rw [hfirst, List.pairwise_cons] at h
      intro s hs
      rcases List.mem_cons.mp (hfirst ▸ hs) with rfl | hs
      · exact le_rfl
      · exact h.1 s hs
    have hhigh : ∀ s ∈ init ++ [last], s.stop ≤ last.stop := by
      have h := List.pairwise_append.mp hmet.stops
      intro s hs
      rcases List.mem_append.mp hs with hs | hs
      · exact h.2.2 s hs last (by simp)
      · rw [List.mem_singleton.mp hs]
    have hmem : first ∈ init ++ [last] := hfirst ▸ List.mem_cons_self
    rw [hm]
    refine ⟨⟨min_le_left _ _, fun s hs => ?_⟩, ?_, ⟨le_max_left _ _, fun s hs => ?_⟩, ?_⟩
    · have := hlow s hs
      simp only
      omega
    · rcases le_total span.start first.start with h | h
      · exact Or.inl (min_eq_left h)
      · exact Or.inr ⟨first, hmem, min_eq_right h⟩
    · have := hhigh s hs
      simp only
      omega
    · rcases le_total last.stop span.stop with h | h
      · exact Or.inl (max_eq_left h)
      · exact Or.inr ⟨last, by simp, max_eq_right h⟩

/-! ## The canvas after a claim -/

section Claim

variable {c : Canvas} {span : Span}

theorem ordered_claim (hc : c.Ordered) (hspan : span.start < span.stop) :
    (c.claim span).2.Ordered := by
  obtain ⟨before, met, past, hsplit, hbefore, hmet, hpast, hclaim⟩ := claim_split hc span
  have hrow : Row (before ++ (met ++ past)) := hsplit ▸ hc
  simp only [Row.append_iff] at hrow
  obtain ⟨hrb, ⟨hrm, hrp, hmp⟩, hbmp⟩ := hrow
  obtain ⟨⟨hlow, -⟩, hstart, ⟨hhigh, -⟩, hstop⟩ := merged_bounds span hrm
  rw [hclaim]
  refine Row.append_iff.mpr ⟨hrb, Row.cons_iff.mpr ⟨by omega, ?_, hrp⟩, ?_⟩
  · intro s hs
    rcases hstop with h | ⟨t, ht, h⟩
    · exact h ▸ hpast s hs
    · exact h ▸ hmp t ht s hs
  · intro a ha b hb
    rcases List.mem_cons.mp hb with rfl | hb
    · rcases hstart with h | ⟨t, ht, h⟩
      · exact h ▸ hbefore a ha
      · exact h ▸ hbmp a ha t (List.mem_append_left _ ht)
    · exact hbmp a ha b (List.mem_append_right _ hb)

/-- Any property of single spans that the merged span has exactly when the claimed span or one
that it meets has it, holds somewhere on the canvas after a claim iff it did before or holds of
the claimed span. -/
theorem exists_claim {P : Span → Prop} (hc : c.Ordered)
    (hP : ∀ met : List Span, Row met →
      (∀ s ∈ met, span.start < s.stop ∧ s.start < span.stop) →
        (P (merged span met) ↔ P span ∨ ∃ s ∈ met, P s)) :
    (∃ s ∈ (c.claim span).2.claimed, P s) ↔ (∃ s ∈ c.claimed, P s) ∨ P span := by
  obtain ⟨before, met, past, hsplit, -, hmet, -, hclaim⟩ := claim_split hc span
  have hrow : Row (before ++ (met ++ past)) := hsplit ▸ hc
  simp only [Row.append_iff] at hrow
  have h := hP met hrow.2.1.1 hmet
  rw [hclaim, hsplit]
  simp only [List.mem_append, List.mem_cons, or_and_right, exists_or, exists_eq_left, h,
    or_assoc, or_comm, or_left_comm]

/-- Spans that are merged share an octet, so of two octets side by side both lie in one of them.
What is at most that wide lies in one span of the canvas iff it did so before or lies in the claimed
span. -/
theorem window_claim (hc : c.Ordered) (low high : Int) (hnarrow : high ≤ low + 2) :
    (∃ s ∈ (c.claim span).2.claimed, s.start ≤ low ∧ high ≤ s.stop) ↔
      (∃ s ∈ c.claimed, s.start ≤ low ∧ high ≤ s.stop) ∨
        span.start ≤ low ∧ high ≤ span.stop := by
  apply exists_claim hc
  intro met hrow hmet
  obtain ⟨⟨hlow, hlows⟩, hstart, ⟨hhigh, hhighs⟩, hstop⟩ := merged_bounds span hrow
  constructor
  · rintro ⟨h₁, h₂⟩
    by_cases hleft : low < span.start
    · -- the start of the merged span is then that of a span which reaches the claimed one
      rcases hstart with h | ⟨t, ht, h⟩
      · omega
      · have := hmet t ht
        exact Or.inr ⟨t, ht, by omega, by omega⟩
    · by_cases hright : span.stop < high
      · rcases hstop with h | ⟨t, ht, h⟩
        · omega
        · have := hmet t ht
          exact Or.inr ⟨t, ht, by omega, by omega⟩
      · exact Or.inl ⟨by omega, by omega⟩
  · rintro (⟨h₁, h₂⟩ | ⟨t, ht, h₁, h₂⟩)
    · exact ⟨by omega, by omega⟩
    · have := hlows t ht
      have := hhighs t ht
      exact ⟨by omega, by omega⟩

theorem covers_claim (hc : c.Ordered) (o : Int) :
    (c.claim span).2.Covers o ↔ c.Covers o ∨ span.covers o = true := by
  have hone : ∀ s : Span, s.covers o = true ↔ s.start ≤ o ∧ o + 1 ≤ s.stop := by
    intro s
    rw [Span.covers_iff, Int.add_one_le_iff]
  simp only [Covers, hone]
  exact window_claim hc o (o + 1) (by omega)

theorem encloses_claim (hc : c.Ordered) (p : Int) :
    (c.claim span).2.Encloses p ↔ c.Encloses p ∨ span.Encloses p := by
  have htwo : ∀ s : Span, s.Encloses p ↔ s.start ≤ p - 1 ∧ p + 1 ≤ s.stop := by
    intro s
    rw [Span.Encloses, Int.le_sub_one_iff, Int.add_one_le_iff]
  simp only [Encloses, htwo]
  exact window_claim hc (p - 1) (p + 1) (by omega)

end Claim

/-! ## The inside of a canvas -/

/-- On an ordered canvas the last span that starts by a position is the only one that can have it
inside. -/
theorem inside_iff {c : Canvas} (hc : c.Ordered) (p : Int) :
    c.inside p = true ↔ c.Encloses p := by
  obtain ⟨below, above, hsplit, hbelow, habove⟩ :=
    exists_passing (·.start) p c.claimed hc.starts
  have hstarted : c.startedBy p = below.length := by
    have := insertionPoint_append (·.start) p below above hbelow habove
    simpa [startedBy, starts, hsplit] using this
  have hrow : Row (below ++ above) := hsplit ▸ hc
  rw [Row.append_iff] at hrow
  rw [inside, hstarted, Encloses, hsplit]
  rcases List.eq_nil_or_concat' below with rfl | ⟨init, last, rfl⟩
  · constructor
    · intro h
      simp at h
    · rintro ⟨s, hs, h⟩
      have := habove s (by simpa using hs)
      simp only [Span.Encloses] at h
      omega
  · have hget : (init ++ [last] ++ above)[init.length]? = some last := by
      simp
    simp only [List.length_append, List.length_singleton, hget, Bool.and_eq_true,
      decide_eq_true_eq]
    constructor
    · intro h
      exact ⟨last, by simp, h⟩
    · rintro ⟨s, hs, h⟩
      simp only [Span.Encloses] at h
      rcases List.mem_append.mp hs with hs | hs
      · rcases List.mem_append.mp hs with hs | hs
        · -- an earlier span ends before the last one starts
          have h₁ := (Row.append_iff.mp hrow.1).2.2 s hs last (by simp)
          have h₂ := hbelow last (by simp)
          omega
        · exact List.mem_singleton.mp hs ▸ h
      · have := habove s hs
        omega

/-! ## What a claim answers -/

/-- The gaps cover what lies between the cursor and the end and under none of the spans. -/
theorem gaps_covers (stop o : Int) : ∀ {met : List Span} (cursor : Int), Row met →
    (∀ s ∈ met, s.start < stop) →
      ((∃ g ∈ gaps cursor stop met, g.covers o = true) ↔
        (cursor ≤ o ∧ o < stop) ∧ ¬ ∃ s ∈ met, s.covers o = true)
  | [], cursor, _, _ => by
      by_cases h : cursor < stop
      · simp [gaps, h, Span.covers_iff]
      · simp only [gaps, if_neg h, List.not_mem_nil, false_and, exists_false, not_false_eq_true,
          and_true, false_iff]
        omega
  | s :: rest, cursor, hrow, hmet => by
      obtain ⟨hs, hnext, hrest⟩ := Row.cons_iff.mp hrow
      have hstop := hmet s List.mem_cons_self
      have ih := gaps_covers stop o (max cursor s.stop) hrest
        (fun t ht => hmet t (List.mem_cons_of_mem _ ht))
      have hlater : s.stop ≤ o ∨ ¬ ∃ t ∈ rest, t.covers o = true := by
        by_cases ho : s.stop ≤ o
        · exact Or.inl ho
        · right
          rintro ⟨t, ht, hcov⟩
          have := hnext t ht
          rw [Span.covers_iff] at hcov
          omega
      have hhead : (∃ g ∈ gaps cursor stop (s :: rest), g.covers o = true) ↔
          (cursor ≤ o ∧ o < s.start) ∨
            ∃ g ∈ gaps (max cursor s.stop) stop rest, g.covers o = true := by
        by_cases h : cursor < s.start
        · simp [gaps, h, Span.covers_iff]
        · simp only [gaps, if_neg h]
          constructor
          · exact Or.inr
          · rintro (h' | h')
            · omega
            · exact h'
      rw [hhead, ih]
      simp only [List.mem_cons, or_and_right, exists_or, exists_eq_left, Span.covers_iff, not_or]
        at hlater ⊢
      constructor
      · rintro (⟨h₁, h₂⟩ | ⟨⟨h₁, h₂⟩, h₃⟩)
        · refine ⟨⟨h₁, by omega⟩, by omega, ?_⟩
          exact hlater.resolve_left (by omega)
        · exact ⟨⟨by omega, h₂⟩, by omega, h₃⟩
      · rintro ⟨⟨h₁, h₂⟩, h₃, h₄⟩
        by_cases h : o < s.start
        · exact Or.inl ⟨h₁, h⟩
        · exact Or.inr ⟨⟨by omega, h₂⟩, h₄⟩

/-- No gap starts before the cursor. -/
theorem cursor_le_of_mem_gaps {stop : Int} {g : Span} : ∀ {met : List Span} {cursor : Int},
    g ∈ gaps cursor stop met → cursor ≤ g.start
  | [], cursor, h => by
      unfold gaps at h
      split at h
      · rw [List.mem_singleton.mp h]
      · simp at h
  | s :: rest, cursor, h => by
      have hlater : g ∈ gaps (max cursor s.stop) stop rest → cursor ≤ g.start :=
        fun h => le_trans (le_max_left _ _) (cursor_le_of_mem_gaps h)
      unfold gaps at h
      split at h
      · rcases List.mem_cons.mp h with rfl | h
        · exact le_rfl
        · exact hlater h
      · exact hlater h

/-- Gaps hold octets, and a span that holds octets lies between any two of them. -/
theorem gaps_separated (stop : Int) : ∀ {met : List Span} (cursor : Int), Row met →
    (gaps cursor stop met).Pairwise (fun a b => a.stop < b.start) ∧
      ∀ g ∈ gaps cursor stop met, g.start < g.stop
  | [], cursor, _ => by
      by_cases h : cursor < stop <;> simp [gaps, h]
  | s :: rest, cursor, hrow => by
      obtain ⟨hs, -, hrest⟩ := Row.cons_iff.mp hrow
      have ih := gaps_separated stop (max cursor s.stop) hrest
      by_cases h : cursor < s.start
      · simp only [gaps, if_pos h, List.pairwise_cons, List.forall_mem_cons]
        refine ⟨⟨?_, ih.1⟩, h, ih.2⟩
        intro g hg
        have := cursor_le_of_mem_gaps hg
        omega
      · simpa only [gaps, if_neg h] using ih

theorem claim_covers {c : Canvas} (hc : c.Ordered) (span : Span) (o : Int) :
    (∃ g ∈ (c.claim span).1, g.covers o = true) ↔ span.covers o = true ∧ ¬ c.Covers o := by
  obtain ⟨before, met, past, hsplit, hbefore, hmet, hpast, hclaim⟩ := claim_split hc span
  have hrow : Row (before ++ (met ++ past)) := hsplit ▸ hc
  simp only [Row.append_iff] at hrow
  rw [hclaim, gaps_covers _ _ _ hrow.2.1.1 (fun s hs => (hmet s hs).2), Span.covers_iff]
  refine and_congr_right ?_
  rintro ⟨h₁, h₂⟩
  rw [Covers, hsplit, not_iff_not]
  constructor
  · rintro ⟨s, hs, h⟩
    exact ⟨s, by simp [hs], h⟩
  · rintro ⟨s, hs, h⟩
    simp only [List.mem_append] at hs
    rw [Span.covers_iff] at h
    rcases hs with hs | hs | hs
    · have := hbefore s hs
      omega
    · exact ⟨s, hs, Span.covers_iff.mpr h⟩
    · have := hpast s hs
      omega

theorem claim_separated {c : Canvas} (hc : c.Ordered) (span : Span) :
    (c.claim span).1.Pairwise (fun a b => a.stop < b.start) ∧
      ∀ g ∈ (c.claim span).1, g.start < g.stop := by
  obtain ⟨before, met, past, hsplit, -, -, -, hclaim⟩ := claim_split hc span
  have hrow : Row (before ++ (met ++ past)) := hsplit ▸ hc
  simp only [Row.append_iff] at hrow
  rw [hclaim]
  exact gaps_separated span.stop span.start hrow.2.1.1

end Canvas

end Limn
