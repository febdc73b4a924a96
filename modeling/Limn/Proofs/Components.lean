import Limn.Proofs.Claims
import Limn.Proofs.Nesting

/-! # Components of the claims

Claims are *linked* if one is reached from the other by claims of which each overlaps the one
before; spans that merely touch do not overlap. Linked claims end up in one span of the canvas, and
no others do (`Canvas.Reflects.linked_iff`). So what is claimed on a canvas is, for each component
of linked claims, the span from its first start to its last end
(`Canvas.Reflects.mem_claimed_iff`).

Components are a matter of the set of claims. The spans of an ordered canvas are known with their
members (`Canvas.Row.eq_of_mem_iff`), and therefore a canvas shows neither the order of the claims
nor how often they were made (`Canvas.rows_of_same_claims`).
-/

namespace Limn

/-! ## Linked claims -/

namespace Stretch

/-- The two spans share an octet. -/
def Overlaps (s t : Stretch) : Prop :=
  s.start < t.stop ∧ t.start < s.stop

/-- The second span is reached from the first by claims of which each overlaps the one before. -/
def Linked (claims : Set Stretch) : Stretch → Stretch → Prop :=
  Relation.ReflTransGen fun s t => t ∈ claims ∧ s.Overlaps t

/-- The span goes from the first start to the last end of what is linked with `s`. -/
structure IsHull (claims : Set Stretch) (s : Stretch) (u : Span) : Prop where
  within : ∀ t, Linked claims s t → t.Within u
  start : ∃ t, Linked claims s t ∧ t.start = u.start
  stop : ∃ t, Linked claims s t ∧ t.stop = u.stop

theorem IsHull.unique {claims : Set Stretch} {s : Stretch} {u v : Span} (hu : IsHull claims s u)
    (hv : IsHull claims s v) : u = v := by
  obtain ⟨a, ha, hau⟩ := hu.start
  obtain ⟨b, hb, hbv⟩ := hv.start
  obtain ⟨x, hx, hxu⟩ := hu.stop
  obtain ⟨y, hy, hyv⟩ := hv.stop
  have hstart : u.start = v.start :=
    le_antisymm (hbv ▸ (hu.within b hb).1) (hau ▸ (hv.within a ha).1)
  have hstop : u.stop = v.stop :=
    le_antisymm (hxu ▸ (hv.within x hx).2) (hyv ▸ (hu.within y hy).2)
  cases u
  cases v
  exact congrArg₂ Span.mk hstart hstop

end Stretch

namespace Canvas

open Stretch (Linked IsHull)

/-! ## Rows and their members -/

/-- No two spans of a row share an octet. -/
theorem Row.eq_of_overlap {spans : List Span} (h : Row spans) {a b : Span} (ha : a ∈ spans)
    (hb : b ∈ spans) (hab : a.start < b.stop) (hba : b.start < a.stop) : a = b := by
  by_contra hne
  have hsymm : Std.Symm fun a b : Span => a.stop ≤ b.start ∨ b.stop ≤ a.start :=
    ⟨fun _ _ => Or.symm⟩
  have hapart : spans.Pairwise fun a b => a.stop ≤ b.start ∨ b.stop ≤ a.start := h.1.imp Or.inl
  have := hapart.forall ha hb hne
  omega

theorem Row.nodup {spans : List Span} (h : Row spans) : spans.Nodup := by
  refine h.1.imp_of_mem ?_
  rintro a _ ha - hle rfl
  exact absurd (h.2 a ha) hle.not_gt

/-- **A row is known with its members**: their order is that of their places. -/
theorem Row.eq_of_mem_iff {xs ys : List Span} (hx : Row xs) (hy : Row ys)
    (h : ∀ s, s ∈ xs ↔ s ∈ ys) : xs = ys := by
  have hperm : xs.Perm ys := (List.perm_ext_iff_of_nodup hx.nodup hy.nodup).mpr h
  refine hperm.eq_of_pairwise ?_ hx.1 hy.1
  intro a b ha hb hab hba
  have hproper := hx.2 a ha
  have hproper' := hy.2 b hb
  omega

/-! ## What a canvas shows of components -/

namespace Reflects

variable {c : Canvas} {history : List Stretch} {s t : Stretch} {u : Span}

/-- Every claim lies within one span of the canvas. -/
theorem exists_within (h : Reflects c history) (hs : s ∈ history) :
    ∃ u ∈ c.claimed, s.Within u := by
  obtain ⟨u, hu, hcov⟩ := (h.covers s.start).mpr ⟨s, hs, Span.covers_iff.mpr ⟨le_rfl, s.proper⟩⟩
  obtain ⟨hlow, hhigh⟩ := Span.covers_iff.mp hcov
  refine ⟨u, hu, hlow, ?_⟩
  by_contra hstop
  -- the end of `u` would lie inside the claim, and thus inside another span of the canvas
  obtain ⟨v, hv, hvlow, hvhigh⟩ := (h.encloses u.stop).mpr ⟨s, hs, hhigh, not_le.mp hstop⟩
  have huv : u = v := Row.eq_of_overlap h.ordered hu hv (by omega) hvlow
  exact lt_irrefl _ (huv ▸ hvhigh)

/-- A claim that shares an octet with a span of the canvas lies within it. -/
theorem within_of_meets (h : Reflects c history) (hu : u ∈ c.claimed) (ht : t ∈ history)
    (hstart : u.start < t.stop) (hstop : t.start < u.stop) : t.Within u := by
  obtain ⟨v, hv, htv⟩ := h.exists_within ht
  have huv : u = v := by
    apply Row.eq_of_overlap h.ordered hu hv
    · exact hstart.trans_le htv.2
    · exact htv.1.trans_lt hstop
  exact huv ▸ htv

theorem within_of_overlaps (h : Reflects c history) (hu : u ∈ c.claimed) (hs : s.Within u)
    (ht : t ∈ history) (hst : s.Overlaps t) : t.Within u := by
  apply h.within_of_meets hu ht
  · exact hs.1.trans_lt hst.1
  · exact hst.2.trans_le hs.2

theorem within_of_linked (h : Reflects c history) (hu : u ∈ c.claimed) (hs : s.Within u)
    (hst : Linked {t | t ∈ history} s t) : t.Within u := by
  induction hst with
  | refl => exact hs
  | tail _ hstep ih => exact h.within_of_overlaps hu ih hstep.1 hstep.2

/-- Where a part of a span of the canvas ends before the span does, a claim reaches across. -/
theorem exists_across (h : Reflects c history) (hu : u ∈ c.claimed) (hs : s.Within u) {p : Int}
    (hp : u.Encloses p) (hstart : s.start ≤ p) (hstop : p ≤ s.stop) :
    ∃ t ∈ history, t.Encloses p ∧ s.Overlaps t ∧ t.Within u := by
  obtain ⟨t, ht, hin⟩ := (h.encloses p).mp ⟨u, hu, hp⟩
  have hst : s.Overlaps t := ⟨hstart.trans_lt hin.2, hin.1.trans_le hstop⟩
  exact ⟨t, ht, hin, hst, h.within_of_overlaps hu hs ht hst⟩

/-- **Links go through a whole span.** From any part of a span of the canvas, a claim that covers a
given octet of the span is reached. -/
theorem exists_linked_covers (h : Reflects c history) (hu : u ∈ c.claimed) {s : Stretch}
    (hs : s.Within u) {o : Int} (ho : u.covers o = true) :
    ∃ t, Linked {t | t ∈ history} s t ∧ t.covers o = true := by
  have hproper := s.proper
  have hstart := hs.1
  have hstop := hs.2
  obtain ⟨hlow, hhigh⟩ := Span.covers_iff.mp ho
  -- a claim across the end of `s` that faces the octet is nearer to it
  by_cases hleft : o < s.start
  · obtain ⟨t, ht, ⟨hnearer, hacross⟩, hst, htu⟩ :=
      h.exists_across hu hs (p := s.start) ⟨by omega, by omega⟩ le_rfl hproper.le
    obtain ⟨r, hr, hcov⟩ := h.exists_linked_covers hu htu ho
    exact ⟨r, .head ⟨ht, hst⟩ hr, hcov⟩
  · by_cases hright : s.stop ≤ o
    · obtain ⟨t, ht, ⟨hacross, hnearer⟩, hst, htu⟩ :=
        h.exists_across hu hs (p := s.stop) ⟨by omega, by omega⟩ hproper.le le_rfl
      obtain ⟨r, hr, hcov⟩ := h.exists_linked_covers hu htu ho
      exact ⟨r, .head ⟨ht, hst⟩ hr, hcov⟩
    · exact ⟨s, .refl, Span.covers_iff.mpr ⟨by omega, by omega⟩⟩
termination_by (s.start - o).toNat + (o - s.stop + 1).toNat
decreasing_by all_goals omega

theorem isHull (h : Reflects c history) (hu : u ∈ c.claimed) (hs : s.Within u) :
    IsHull {t | t ∈ history} s u := by
  have hproper := h.ordered.2 u hu
  refine ⟨fun t => h.within_of_linked hu hs, ?_, ?_⟩
  · obtain ⟨t, ht, hcov⟩ := h.exists_linked_covers hu hs (o := u.start)
      (Span.covers_iff.mpr ⟨le_rfl, hproper⟩)
    exact ⟨t, ht, le_antisymm (Span.covers_iff.mp hcov).1 (h.within_of_linked hu hs ht).1⟩
  · obtain ⟨t, ht, hcov⟩ := h.exists_linked_covers hu hs (o := u.stop - 1)
      (Span.covers_iff.mpr ⟨by omega, by omega⟩)
    have hlast := (Span.covers_iff.mp hcov).2
    have hwithin := (h.within_of_linked hu hs ht).2
    exact ⟨t, ht, by omega⟩

/-- **A canvas lists the components**: each of its spans goes from the first start to the last end
of a component, and each component has its span. -/
theorem mem_claimed_iff (h : Reflects c history) :
    u ∈ c.claimed ↔ ∃ s ∈ history, IsHull {t | t ∈ history} s u := by
  constructor
  · intro hu
    have hproper := h.ordered.2 u hu
    have hfirst : u.covers u.start = true := Span.covers_iff.mpr ⟨le_rfl, hproper⟩
    obtain ⟨s, hs, hcov⟩ := (h.covers u.start).mp ⟨u, hu, hfirst⟩
    rw [Span.covers_iff] at hcov
    have hsu : s.Within u := h.within_of_meets hu hs hcov.2 (hcov.1.trans_lt hproper)
    exact ⟨s, hs, h.isHull hu hsu⟩
  · rintro ⟨s, hs, hhull⟩
    obtain ⟨v, hv, hsv⟩ := h.exists_within hs
    exact hhull.unique (h.isHull hv hsv) ▸ hv

/-- **One component, one span**: two claims are linked just if some span of the canvas holds
both. -/
theorem linked_iff (h : Reflects c history) (hs : s ∈ history) (ht : t ∈ history) :
    Linked {t | t ∈ history} s t ↔ ∃ u ∈ c.claimed, s.Within u ∧ t.Within u := by
  constructor
  · intro hst
    obtain ⟨u, hu, hsu⟩ := h.exists_within hs
    exact ⟨u, hu, hsu, h.within_of_linked hu hsu hst⟩
  · rintro ⟨u, hu, hsu, htu⟩
    have hproper := t.proper
    obtain ⟨r, hr, hcov⟩ := h.exists_linked_covers hu hsu (o := t.start)
      (Span.covers_iff.mpr ⟨htu.1, hproper.trans_le htu.2⟩)
    rw [Span.covers_iff] at hcov
    exact hr.tail ⟨ht, hcov.1.trans_lt hproper, hcov.2⟩

end Reflects

/-! ## Main statement -/

/-- **A canvas forgets the order of its claims.** After two histories with the same claims, made in
whatever order and however often, the rows of starts are equal, and so are the rows of ends. -/
theorem rows_of_same_claims (history other : List Stretch) (h : ∀ s, s ∈ history ↔ s ∈ other) :
    (after history).starts = (after other).starts ∧
      (after history).stops = (after other).stops := by
  have hclaims : {s | s ∈ history} = {s | s ∈ other} := Set.ext h
  have hmem : ∀ u, u ∈ (after history).claimed ↔ u ∈ (after other).claimed := by
    intro u
    rw [(reflects_after history).mem_claimed_iff, (reflects_after other).mem_claimed_iff, hclaims]
    simp only [h]
  have hspans : (after history).claimed = (after other).claimed :=
    Row.eq_of_mem_iff (reflects_after history).ordered (reflects_after other).ordered hmem
  constructor
  · rw [starts, starts, hspans]
  · rw [stops, stops, hspans]

/-- Two claims that touch are joined by a third one across them, whether it comes last or first; a
claim that touches all of them stays apart. -/
theorem touching_claims_joined_alike :
    let left : Stretch := ⟨⟨2, 4⟩, by decide⟩
    let right : Stretch := ⟨⟨4, 6⟩, by decide⟩
    let across : Stretch := ⟨⟨3, 5⟩, by decide⟩
    let beyond : Stretch := ⟨⟨6, 9⟩, by decide⟩
    let history := [left, right, beyond, across]
    let other := [beyond, across, right, beyond, left, across]
    (∀ s, s ∈ history ↔ s ∈ other) ∧
      (after [left, right]).starts = [2, 4] ∧ (after [beyond, across]).starts = [3, 6] ∧
      (after history).starts = [2, 6] ∧ (after history).stops = [6, 9] ∧
      (after history).starts = (after other).starts ∧
      (after history).stops = (after other).stops := by
  intro left right across beyond history other
  have hsame : ∀ s, s ∈ history ↔ s ∈ other := by
    intro s
    simp only [history, other, List.mem_cons, List.not_mem_nil, or_false]
    tauto
  exact ⟨hsame, by decide +kernel, by decide +kernel, by decide +kernel, by decide +kernel,
    rows_of_same_claims history other hsame⟩

end Canvas

end Limn
