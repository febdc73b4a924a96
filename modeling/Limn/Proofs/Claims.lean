import Limn.Proofs.Canvas

/-! # Histories of claims

A canvas forgets which spans were claimed and keeps merged ones. What it shows of its history is
nevertheless exact: `Reflects` says that a canvas is ordered, covers the octets of the spans claimed
so far and has strictly inside what one of them has strictly inside. A claim keeps it
(`Reflects.claim`), so it holds after any history (`reflects_after`), and the two main statements
are read off: `claim_takes_the_free_part` and `inside_iff_enclosed`.
-/

namespace Limn

/-- A span that holds at least one octet. -/
structure Stretch extends Span where
  proper : start < stop
deriving DecidableEq

namespace Canvas

/-! ## What a canvas shows of its history -/

/-- The canvas after a row of claims. -/
def after (history : List Stretch) : Canvas :=
  history.foldl (fun c s => (c.claim s.toSpan).2) blank

theorem after_snoc (history : List Stretch) (s : Stretch) :
    after (history ++ [s]) = ((after history).claim s.toSpan).2 := by
  unfold after
  rw [List.foldl_append]
  rfl

/-- The canvas shows the history: octets and insides of its spans are those of the spans claimed. -/
structure Reflects (c : Canvas) (history : List Stretch) : Prop where
  ordered : c.Ordered
  covers : ∀ o, c.Covers o ↔ ∃ s ∈ history, s.covers o = true
  encloses : ∀ p, c.Encloses p ↔ ∃ s ∈ history, s.Encloses p

theorem reflects_blank : Reflects blank [] := by
  refine ⟨ordered_blank, ?_, ?_⟩
  · intro o
    simp [not_covers_blank]
  · intro p
    simp [not_encloses_blank]

theorem Reflects.claim {c : Canvas} {history : List Stretch} (h : Reflects c history)
    (s : Stretch) : Reflects (c.claim s.toSpan).2 (history ++ [s]) := by
  constructor
  · exact ordered_claim h.ordered s.proper
  · intro o
    rw [covers_claim h.ordered, h.covers]
    simp [or_and_right, exists_or]
  · intro p
    rw [encloses_claim h.ordered, h.encloses]
    simp [or_and_right, exists_or]

theorem reflects_after (history : List Stretch) : Reflects (after history) history := by
  induction history using List.reverseRecOn with
  | nil => exact reflects_blank
  | append_singleton history s ih =>
      rw [after_snoc]
      exact ih.claim s

/-! ## The two rows of a canvas -/

/-- The rows of starts and of ends belong together: at each place a start lies before its end, and
an end not after the next start. -/
structure Aligned (c : Canvas) : Prop where
  length : c.starts.length = c.stops.length
  proper : ∀ (k : Nat) (a b : Int), c.starts[k]? = some a → c.stops[k]? = some b → a < b
  apart : ∀ (k : Nat) (b a : Int), c.stops[k]? = some b → c.starts[k + 1]? = some a → b ≤ a

/-- The octet lies between a start and the end at the same place. -/
def RowsCover (c : Canvas) (o : Int) : Prop :=
  ∃ (k : Nat) (a b : Int), c.starts[k]? = some a ∧ c.stops[k]? = some b ∧ a ≤ o ∧ o < b

theorem getElem?_rows_iff {c : Canvas} {k : Nat} {a b : Int} :
    c.starts[k]? = some a ∧ c.stops[k]? = some b ↔ c.claimed[k]? = some ⟨a, b⟩ := by
  rw [starts, stops, List.getElem?_map, List.getElem?_map]
  cases c.claimed[k]? with
  | none => simp
  | some s =>
      cases s
      simp

theorem Ordered.aligned {c : Canvas} (h : c.Ordered) : c.Aligned := by
  obtain ⟨hpairs, hproper⟩ := h
  constructor
  · rw [starts, stops, List.length_map, List.length_map]
  · intro k a b ha hb
    exact hproper ⟨a, b⟩ (List.mem_of_getElem? (getElem?_rows_iff.mp ⟨ha, hb⟩))
  · intro k b a hb ha
    rw [stops, List.getElem?_map, Option.map_eq_some_iff] at hb
    rw [starts, List.getElem?_map, Option.map_eq_some_iff] at ha
    obtain ⟨s, hs, rfl⟩ := hb
    obtain ⟨t, ht, rfl⟩ := ha
    obtain ⟨hk, rfl⟩ := List.getElem?_eq_some_iff.mp hs
    obtain ⟨hk', rfl⟩ := List.getElem?_eq_some_iff.mp ht
    exact List.pairwise_iff_getElem.mp hpairs k (k + 1) hk hk' (Nat.lt_succ_self k)

theorem rowsCover_iff {c : Canvas} {o : Int} : c.RowsCover o ↔ c.Covers o := by
  constructor
  · rintro ⟨k, a, b, ha, hb, ho⟩
    exact ⟨⟨a, b⟩, List.mem_of_getElem? (getElem?_rows_iff.mp ⟨ha, hb⟩), Span.covers_iff.mpr ho⟩
  · rintro ⟨⟨a, b⟩, hs, ho⟩
    obtain ⟨k, hk⟩ := List.mem_iff_getElem?.mp hs
    obtain ⟨ha, hb⟩ := getElem?_rows_iff.mpr hk
    exact ⟨k, a, b, ha, hb, Span.covers_iff.mp ho⟩

/-! ## Main statements -/

/-- **A claim takes what is free.** After any history, a further claim leaves two aligned rows that
cover what was claimed so far, and answers with separate pieces of the claimed span that cover what
no earlier claim did. -/
theorem claim_takes_the_free_part (history : List Stretch) (s : Stretch) :
    let answer := ((after history).claim s.toSpan).1
    let c := after (history ++ [s])
    c = ((after history).claim s.toSpan).2 ∧ c.Aligned ∧
      (∀ o, c.RowsCover o ↔ ∃ t ∈ history ++ [s], t.start ≤ o ∧ o < t.stop) ∧
      (answer.Pairwise fun g h => g.start < h.start ∧ g.stop < h.start) ∧
      (∀ g ∈ answer, g.start < g.stop) ∧
      ∀ o, (∃ g ∈ answer, g.start ≤ o ∧ o < g.stop) ↔
        (s.start ≤ o ∧ o < s.stop) ∧ ¬∃ t ∈ history, t.start ≤ o ∧ o < t.stop := by
  intro answer c
  have hbefore := reflects_after history
  have hafter := reflects_after (history ++ [s])
  obtain ⟨hapart, hproper⟩ := claim_separated hbefore.ordered s.toSpan
  refine ⟨after_snoc history s, hafter.ordered.aligned, ?_, ?_, hproper, ?_⟩
  · intro o
    rw [rowsCover_iff, hafter.covers]
    simp only [Span.covers_iff]
  · apply hapart.imp_of_mem
    intro g h hg _ hgh
    have := hproper g hg
    exact ⟨by omega, hgh⟩
  · intro o
    have hfree := claim_covers hbefore.ordered s.toSpan o
    rw [hbefore.covers] at hfree
    simpa only [Span.covers_iff] using hfree

/-- **Inside means inside a claimed span**, however the claims were merged. Where two of them meet,
it takes a third one. -/
theorem inside_iff_enclosed (history : List Stretch) (p : Int) :
    ((after history).inside p = true ↔ ∃ s ∈ history, s.start < p ∧ p < s.stop) ∧
      ∀ s ∈ history, ∀ t ∈ history, s.stop = p → t.start = p →
        ((after history).inside p = true ↔
          ∃ u ∈ history, u ≠ s ∧ u ≠ t ∧ u.start < p ∧ p < u.stop) := by
  have hafter := reflects_after history
  have hinside : (after history).inside p = true ↔ ∃ s ∈ history, s.start < p ∧ p < s.stop := by
    rw [inside_iff hafter.ordered, hafter.encloses]
    rfl
  refine ⟨hinside, ?_⟩
  intro s _ t _ hs ht
  rw [hinside]
  constructor
  · rintro ⟨u, hu, hlow, hhigh⟩
    refine ⟨u, hu, ?_, ?_, hlow, hhigh⟩
    · rintro rfl
      omega
    · rintro rfl
      omega
  · rintro ⟨u, hu, -, -, hlow, hhigh⟩
    exact ⟨u, hu, hlow, hhigh⟩

/-- The point between two claims that touch is not inside; a claim across it puts it inside. -/
theorem meeting_point_enclosed_by_third :
    let left : Stretch := ⟨⟨2, 4⟩, by decide⟩
    let right : Stretch := ⟨⟨4, 6⟩, by decide⟩
    let across : Stretch := ⟨⟨3, 5⟩, by decide⟩
    (after [left, right]).inside 4 = false ∧ (after [left, right, across]).inside 4 = true := by
  intro left right across
  constructor
  · have hmeet := (inside_iff_enclosed [left, right] 4).2 left (by decide) right (by decide)
      rfl rfl
    rw [← Bool.not_eq_true, hmeet]
    decide
  · have hmeet := (inside_iff_enclosed [left, right, across] 4).2 left (by decide) right
      (by decide) rfl rfl
    rw [hmeet]
    decide

end Canvas

end Limn
