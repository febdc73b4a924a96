import Limn.Proofs.Painting
import Mathlib.Tactic

/-! # Offsets count only through their order

Highlighting compares offsets and never computes with them: whatever a strictly increasing function
does to the offsets of both trees, it does to the offsets of the runs, and nothing else changes.

The canvas commutes with such a function at every step (`Canvas.claim_moved`,
`Canvas.inside_moved`), hence so does painting (`paint_moved`). On the side of the trees,
`Node.Moves` says that no pattern can tell a node from another one whose offsets are moved; trees
that correspond in this way, visit by visit, have the same matches with moved spans
(`matchTree_moves`).
-/

namespace Limn

/-! ## Moved spans -/

/-- Both ends of a span, moved. -/
def Span.moved (f : Int → Int) (s : Span) : Span :=
  ⟨f s.start, f s.stop⟩

@[simp] theorem Span.moved_start (f : Int → Int) (s : Span) : (s.moved f).start = f s.start := rfl
@[simp] theorem Span.moved_stop (f : Int → Int) (s : Span) : (s.moved f).stop = f s.stop := rfl
@[simp] theorem Span.moved_id (s : Span) : s.moved id = s := rfl

def Canvas.moved (f : Int → Int) (c : Canvas) : Canvas :=
  ⟨c.claimed.map (·.moved f)⟩

def Match.moved (f : Int → Int) (m : Match) : Match :=
  { m with span := m.span.moved f }

def Run.moved (f : Int → Int) (r : Run) : Run :=
  { r with span := r.span.moved f }

def Evaluation.moved (f : Int → Int) (e : Evaluation) : Evaluation :=
  { e with runs := e.runs.map (·.moved f) }

@[simp] theorem Run.moved_id (r : Run) : r.moved id = r := rfl

@[simp] theorem Evaluation.moved_id (e : Evaluation) : e.moved id = e := by
  simp [Evaluation.moved]

section Order

variable {f : Int → Int} (hf : StrictMono f)
include hf

theorem Span.moved_inj {s t : Span} : s.moved f = t.moved f ↔ s = t := by
  constructor
  · intro h
    obtain ⟨hstart, hstop⟩ := Span.mk.inj h
    cases s
    cases t
    rw [Span.mk.injEq]
    exact ⟨hf.injective hstart, hf.injective hstop⟩
  · rintro rfl
    rfl

theorem Span.isEmpty_moved (s : Span) : (s.moved f).isEmpty = s.isEmpty := by
  simp only [Span.isEmpty, Span.moved_start, Span.moved_stop, hf.le_iff_le]

/-! ## The canvas -/

theorem lt_getD_moved {row : List Int} {x : Int} {i : Nat} (hi : i < row.length) :
    f x < (row.map f).toArray.getD i 0 ↔ x < row.toArray.getD i 0 := by
  simp [Array.getD, hi, hf.lt_iff_lt]

/-- Bisection asks only which of two numbers is smaller. -/
theorem insertionPoint_moved (row : List Int) (x : Int) (low high : Nat)
    (hhigh : high ≤ row.length) :
    insertionPoint (row.map f).toArray (f x) low high = insertionPoint row.toArray x low high := by
  induction low, high using insertionPoint.induct row.toArray x with
  | case1 low high hlt middle hx ih =>
      rw [insertionPoint, if_pos hlt, insertionPoint, if_pos hlt]
      have hmiddle : (low + high) / 2 < row.length := by omega
      simp only [lt_getD_moved hf hmiddle, show x < row.toArray.getD ((low + high) / 2) 0 from hx,
        if_true]
      exact ih (by omega)
  | case2 low high hlt middle hx ih =>
      rw [insertionPoint, if_pos hlt, insertionPoint, if_pos hlt]
      have hmiddle : (low + high) / 2 < row.length := by omega
      simp only [lt_getD_moved hf hmiddle, show ¬ x < row.toArray.getD ((low + high) / 2) 0 from hx,
        if_false]
      exact ih hhigh
  | case3 low high hlt =>
      rw [insertionPoint, if_neg hlt, insertionPoint, if_neg hlt]

namespace Canvas

theorem startedBy_moved (c : Canvas) (p : Int) : (c.moved f).startedBy (f p) = c.startedBy p := by
  have := insertionPoint_moved hf c.starts p 0 c.claimed.length (by simp [starts])
  simpa [startedBy, starts, moved, Function.comp_def] using this

theorem endedBy_moved (c : Canvas) (p : Int) : (c.moved f).endedBy (f p) = c.endedBy p := by
  have := insertionPoint_moved hf c.stops p 0 c.claimed.length (by simp [stops])
  simpa [endedBy, stops, moved, Function.comp_def] using this

theorem inside_moved (c : Canvas) (p : Int) : (c.moved f).inside (f p) = c.inside p := by
  unfold inside
  rw [startedBy_moved hf]
  cases c.startedBy p with
  | zero => rfl
  | succ i =>
      simp only [moved, List.getElem?_map]
      cases c.claimed[i]? with
      | none => rfl
      | some s => simp [hf.lt_iff_lt]

theorem gaps_moved (stop : Int) : ∀ (met : List Span) (cursor : Int),
    gaps (f cursor) (f stop) (met.map (·.moved f)) = (gaps cursor stop met).map (·.moved f) := by
  intro met
  induction met with
  | nil =>
      intro cursor
      by_cases h : cursor < stop
      · simp [gaps, h, hf.lt_iff_lt, Span.moved]
      · simp [gaps, h, hf.lt_iff_lt]
  | cons s rest ih =>
      intro cursor
      rw [List.map_cons, gaps, gaps, Span.moved_start, Span.moved_stop, ← hf.monotone.map_max, ih]
      by_cases h : cursor < s.start
      · simp [h, hf.lt_iff_lt, Span.moved]
      · simp [h, hf.lt_iff_lt]

theorem merged_moved (span : Span) (met : List Span) :
    merged (span.moved f) (met.map (·.moved f)) = (merged span met).moved f := by
  unfold merged
  rw [List.head?_map, List.getLast?_map]
  cases met.head? with
  | none => rfl
  | some first =>
      cases met.getLast? with
      | none => rfl
      | some last => simp [Span.moved, hf.monotone.map_min, hf.monotone.map_max]

theorem claim_moved (c : Canvas) (span : Span) :
    (c.moved f).claim (span.moved f) =
      ((c.claim span).1.map (·.moved f), (c.claim span).2.moved f) := by
  unfold claim
  rw [Span.moved_start, endedBy_moved hf]
  simp only [moved, Span.moved_start, Span.moved_stop, ← List.map_drop, List.takeWhile_map,
    Function.comp_def, hf.lt_iff_lt, List.length_map, gaps_moved hf, merged_moved hf,
    List.map_append, List.map_cons, List.map_take]

end Canvas

/-! ## Painting -/

theorem paintMatch_moved (c : Canvas) (m : Match) :
    paintMatch (c.moved f) (m.moved f) =
      ((paintMatch c m).1.map (·.moved f), (paintMatch c m).2.moved f) := by
  by_cases hm : m.span.isEmpty = true
  · have hm' : (m.moved f).span.isEmpty = true := by
      simpa [Match.moved, Span.isEmpty_moved hf] using hm
    rw [paintMatch_of_empty hm, paintMatch_of_empty hm']
    simp only [Match.moved, Span.moved_start, Canvas.inside_moved hf]
    cases c.inside m.span.start <;> rfl
  · have hm' : ¬ (m.moved f).span.isEmpty = true := by
      simpa [Match.moved, Span.isEmpty_moved hf] using hm
    rw [paintMatch_of_nonempty hm, paintMatch_of_nonempty hm']
    have hclaim := Canvas.claim_moved hf c m.span
    have hspan : (m.moved f).span = m.span.moved f := rfl
    rw [hspan, hclaim, List.map_map, List.map_map]
    rfl

theorem paintAll_moved : ∀ (ms : List Match) (c : Canvas),
    paintAll (c.moved f) (ms.map (·.moved f)) = (paintAll c ms).map (·.moved f) := by
  intro ms
  induction ms with
  | nil =>
      intro c
      rfl
  | cons m rest ih =>
      intro c
      rw [List.map_cons, paintAll_cons, paintAll_cons, paintMatch_moved hf, ih, List.map_append]

theorem Run.before_moved (a b : Run) : (a.moved f).before (b.moved f) = a.before b := by
  rw [Bool.eq_iff_iff, Run.before_iff, Run.before_iff]
  simp only [Run.moved, Span.moved_start, Span.moved_stop, hf.lt_iff_lt, hf.le_iff_le,
    hf.injective.eq_iff]

/-- **Painting commutes with moving.** Priorities carry no offsets, so the matches are painted in
the same order. -/
theorem paint_moved (ms : List Match) :
    paint (ms.map (·.moved f)) = (paint ms).map (·.moved f) := by
  have hsorted : (ms.map (·.moved f)).mergeSort (fun a b => a.priority.atLeast b.priority) =
      (ms.mergeSort fun a b => a.priority.atLeast b.priority).map (·.moved f) := by
    rw [List.map_mergeSort]
    intro a _ b _
    rfl
  have hblank : Canvas.blank = Canvas.blank.moved f := rfl
  unfold paint
  rw [hsorted, hblank, paintAll_moved hf, List.map_mergeSort]
  · rw [← hblank]
  · intro a _ b _
    exact (Run.before_moved hf a b).symm

end Order

/-! ## Trees that no pattern can tell apart -/

/-- The second node is to a pattern what the first one is, with the offsets moved: its type and its
span, and those of the child in each field. -/
structure Node.Moves (f : Int → Int) (n m : Node) : Prop where
  type : m.type = n.type
  span : m.span = n.span.moved f
  held : ∀ name, Option.Rel (fun c d => d.type = c.type ∧ d.span = c.span.moved f)
    (n.fieldChild? name) (m.fieldChild? name)

namespace Pattern

section Accepts

variable {f : Int → Int} {v w : Node.Visit}

theorem childAccepts_moves (hf : StrictMono f) (h : v.Related (Node.Moves f) w)
    (parents children : List Wording) (field : Option String) :
    childAccepts parents children field w.node w.parent =
      childAccepts parents children field v.node v.parent := by
  obtain ⟨node, parent⟩ := v
  obtain ⟨node', parent'⟩ := w
  obtain ⟨hnode, hparent⟩ : node.Moves f node' ∧ Option.Rel (Node.Moves f) parent parent' := h
  cases hparent with
  | none => rfl
  | @some p q hpq =>
      cases field with
      | none => simp only [childAccepts, hnode.type, hpq.type]
      | some name =>
          have hheld := hpq.held name
          simp only [childAccepts, hnode.type, hpq.type]
          generalize p.fieldChild? name = c, q.fieldChild? name = d at hheld ⊢
          cases hheld with
          | none => rfl
          | some hcd =>
              simp only [Node.same, hcd.1, hcd.2, hnode.type, hnode.span, Span.moved_start,
                Span.moved_stop, hf.injective.beq_eq]

mutual

theorem accepts_moves (hf : StrictMono f) (h : v.Related (Node.Moves f) w) :
    ∀ p : Pattern, p.accepts w.node w.parent = p.accepts v.node v.parent
  | .oneOf types => by rw [accepts, accepts, h.1.type]
  | .childOf parents children field => by rw [accepts, accepts, childAccepts_moves hf h]
  | .either alternatives => by rw [accepts, accepts, anyAccepts_moves hf h alternatives]
  | .unknown variant => by rw [accepts, accepts]

theorem anyAccepts_moves (hf : StrictMono f) (h : v.Related (Node.Moves f) w) :
    ∀ ps : List Pattern, anyAccepts w.node w.parent ps = anyAccepts v.node v.parent ps
  | [] => by rw [anyAccepts, anyAccepts]
  | p :: rest => by
      rw [anyAccepts, anyAccepts, accepts_moves hf h p, anyAccepts_moves hf h rest]

end

end Accepts

end Pattern

/-! ## Matching -/

/-- Folds over rows that are related one by one, whose steps agree up to a map of the state. -/
theorem foldlM_related {α α' β β' : Type} {R : α → α' → Prop} {g : β → β'}
    {step : β → α → Except Error β} {step' : β' → α' → Except Error β'}
    (hstep : ∀ b a a', R a a' → step' (g b) a' = (step b a).map g) {l : List α} {l' : List α'}
    (h : List.Forall₂ R l l') : ∀ b, l'.foldlM step' (g b) = (l.foldlM step b).map g := by
  induction h with
  | nil =>
      intro b
      rfl
  | @cons a a' l l' ha _ ih =>
      intro b
      rw [List.foldlM_cons, List.foldlM_cons, hstep b a a' ha]
      cases step b a with
      | error e => rfl
      | ok b' => exact ih b'

theorem zipIdx_related {α α' : Type} {R : α → α' → Prop} {l : List α} {l' : List α'}
    (h : List.Forall₂ R l l') : ∀ k,
      List.Forall₂ (fun a b => R a.1 b.1 ∧ a.2 = b.2) (l.zipIdx k) (l'.zipIdx k) := by
  induction h with
  | nil =>
      intro k
      exact .nil
  | cons hab _ ih =>
      intro k
      exact .cons ⟨hab, rfl⟩ (ih (k + 1))

section Matching

variable {f : Int → Int} (hf : StrictMono f)
include hf

theorem Match.sameNode_moved (a b : Match) : (a.moved f).sameNode (b.moved f) = a.sameNode b := by
  rw [Bool.eq_iff_iff, Match.sameNode_iff, Match.sameNode_iff]
  exact and_congr_left fun _ => Span.moved_inj hf

theorem keep_moved (found : Match) (held : List Match) :
    keep (found.moved f) (held.map (·.moved f)) = (keep found held).map (·.moved f) := by
  induction held with
  | nil => rfl
  | cons k rest ih =>
      rw [List.map_cons, keep, keep, Match.sameNode_moved hf, ih]
      by_cases hsame : k.sameNode found = true
      · rw [if_pos hsame, if_pos hsame, List.map_cons]
        congr 1
        exact (apply_ite (Match.moved f) _ _ _).symm
      · rw [if_neg hsame, if_neg hsame, List.map_cons]

theorem matchVisit_moves (index : List IndexedRule) (held : List Match) (visit : Nat)
    {v w : Node.Visit} (h : v.Related (Node.Moves f) w) :
    matchVisit index (held.map (·.moved f)) visit w =
      (matchVisit index held visit v).map (List.map (·.moved f)) := by
  unfold matchVisit
  rw [h.1.type]
  refine foldlM_related (R := Eq) ?_ (List.forall₂_refl _) held
  rintro held r _ rfl
  rw [Pattern.accepts_moves hf h]
  cases r.rule.pattern.accepts v.node v.parent with
  | error e => rfl
  | ok b =>
      cases b with
      | false => rfl
      | true =>
          rw [h.1.span]
          exact congrArg Except.ok (keep_moved hf ⟨_, v.node.span, _, _, _⟩ held)

/-- **Matching commutes with moving.** -/
theorem matchTree_moves {root root' : Node}
    (h : List.Forall₂ (Node.Visit.Related (Node.Moves f)) root.walk root'.walk) (layer : Layer)
    (features : List Feature) :
    matchTree root' layer features =
      (matchTree root layer features).map (List.map (·.moved f)) := by
  unfold matchTree
  cases ruleIndex layer features with
  | error e => rfl
  | ok index =>
      simp only [bind, Except.bind]
      refine foldlM_related (g := List.map (Match.moved f)) ?_ (zipIdx_related h 0) []
      rintro held ⟨v, i⟩ ⟨w, j⟩ ⟨hvw, rfl⟩
      exact matchVisit_moves hf index held i hvw

theorem evaluateFeatures_moves {block block' inline inline' : Node}
    (hblock : List.Forall₂ (Node.Visit.Related (Node.Moves f)) block.walk block'.walk)
    (hinline : List.Forall₂ (Node.Visit.Related (Node.Moves f)) inline.walk inline'.walk)
    (active : List Feature) :
    evaluateFeatures block' inline' active =
      (evaluateFeatures block inline active).map (·.moved f) := by
  unfold evaluateFeatures
  rw [matchTree_moves hf hblock, matchTree_moves hf hinline]
  cases matchTree block .block active with
  | error e => rfl
  | ok ms =>
      cases matchTree inline .inline active with
      | error e => rfl
      | ok ns =>
          have hpaint := paint_moved hf (ms ++ ns)
          rw [List.map_append] at hpaint
          simp only [Except.map, bind, Except.bind, hpaint, Evaluation.moved, List.length_append,
            List.length_map]

theorem Highlighter.evaluate_moves {block block' inline inline' : Node}
    (hblock : List.Forall₂ (Node.Visit.Related (Node.Moves f)) block.walk block'.walk)
    (hinline : List.Forall₂ (Node.Visit.Related (Node.Moves f)) inline.walk inline'.walk)
    (h : Highlighter) (enabled : Option (List String)) :
    h.evaluate (some block') (some inline') enabled =
      (h.evaluate (some block) (some inline) enabled).map (·.moved f) := by
  unfold evaluate
  cases Feature.select h.features (some (enabled.getD h.enabled)) with
  | error e => rfl
  | ok active => exact evaluateFeatures_moves hf hblock hinline active

end Matching

/-! ## Moved trees -/

namespace Node

mutual

/-- A tree with all its offsets moved. -/
def moved (f : Int → Int) : Node → Node
  | ⟨type, span, named, field, content, children⟩ =>
    ⟨type, span.moved f, named, field, content, movedAll f children⟩

/-- A row of trees with all their offsets moved. -/
def movedAll (f : Int → Int) : List Node → List Node
  | [] => []
  | n :: rest => n.moved f :: movedAll f rest

end

theorem movedAll_eq_map (f : Int → Int) : ∀ ns : List Node, movedAll f ns = ns.map (moved f) := by
  intro ns
  induction ns with
  | nil => rw [movedAll, List.map_nil]
  | cons n rest ih => rw [movedAll, ih, List.map_cons]

section Moved

variable (f : Int → Int) (n : Node)

@[simp] theorem moved_type : (n.moved f).type = n.type := by
  cases n
  rw [moved]

@[simp] theorem moved_span : (n.moved f).span = n.span.moved f := by
  cases n
  rw [moved]

@[simp] theorem moved_field : (n.moved f).field = n.field := by
  cases n
  rw [moved]

@[simp] theorem moved_children : (n.moved f).children = n.children.map (moved f) := by
  cases n
  rw [moved, movedAll_eq_map]

end Moved

theorem moves_moved (f : Int → Int) (n : Node) : n.Moves f (n.moved f) := by
  refine ⟨moved_type f n, moved_span f n, fun name => ?_⟩
  rw [fieldChild?_of_map (moved_field f) (moved_children f n)]
  cases n.fieldChild? name with
  | none => exact .none
  | some c => exact .some ⟨moved_type f c, moved_span f c⟩

theorem walk_moved (f : Int → Int) (n : Node) :
    List.Forall₂ (Visit.Related (Moves f)) n.walk (n.moved f).walk :=
  walk_related (moved_children f) (moves_moved f) (moves_moved f n) (moved_children f n)

end Node

/-! ## The main statement -/

/-- **Highlighting commutes with every change of offsets that keeps their order.** Moving the
offsets of both trees moves those of the runs; their order, categories and features stay, and so
does the error where there is one. There is none for declared names. -/
theorem Table.runs_move_with_offsets {f : Int → Int} (hf : StrictMono f) (t : Table)
    (initial : t.Choice) (block inline : Node) :
    ∃ h, Highlighter.create t.features initial.names = .ok h ∧
      (∀ enabled, h.evaluate (some (block.moved f)) (some (inline.moved f)) enabled =
        (h.evaluate (some block) (some inline) enabled).map
          fun e => { e with runs := e.runs.map fun r => { r with span := r.span.moved f } }) ∧
      ∀ enabled : t.Choice, ∃ e, h.evaluate (some block) (some inline) enabled.names = .ok e := by
  obtain ⟨h, hcreate, heval⟩ := t.exists_highlighter initial
  refine ⟨h, hcreate, fun enabled => ?_, fun enabled => ⟨_, heval enabled block inline⟩⟩
  exact h.evaluate_moves hf (block.walk_moved f) (inline.walk_moved f) enabled

/-- A quote of two words, the second in code, with offsets in half octets. -/
theorem Table.quote_runs_doubled :
    let marker : Node := { type := "block_quote_marker", span := ⟨0, 2⟩ }
    let words : Node := { type := "paragraph", span := ⟨2, 8⟩ }
    let quote : Node := { type := "block_quote", span := ⟨0, 8⟩, children := [marker, words] }
    let code : Node := { type := "code_span", span := ⟨4, 7⟩ }
    let f : Int → Int := fun o => 2 * o
    StrictMono f ∧
      ((Highlighter.markdown.evaluate (some (quote.moved f)) (some (code.moved f)) none).toOption.map
        (·.runs)) = some [⟨⟨0, 4⟩, "string", "paragraph"⟩, ⟨⟨4, 8⟩, "string", "paragraph"⟩,
          ⟨⟨8, 14⟩, "string", "paragraph-inline"⟩, ⟨⟨14, 16⟩, "string", "paragraph"⟩] := by
  intro marker words quote code f
  have hf : StrictMono f := fun a b hab => by
    show 2 * a < 2 * b
    omega
  obtain ⟨h, hcreate, hmoves, -⟩ :=
    Table.markdown.runs_move_with_offsets hf ⟨none, by simp⟩ quote code
  have hmarkdown : h = Highlighter.markdown := by
    cases hcreate
    rfl
  have hquote : Highlighter.markdown.evaluate (some quote) (some code) none =
      .ok ⟨["paragraph", "paragraph-inline", "delimiter"], 3,
        [⟨⟨0, 2⟩, "string", "paragraph"⟩, ⟨⟨2, 4⟩, "string", "paragraph"⟩,
          ⟨⟨4, 7⟩, "string", "paragraph-inline"⟩, ⟨⟨7, 8⟩, "string", "paragraph"⟩]⟩ := by
    cbv
  refine ⟨hf, ?_⟩
  rw [← hmarkdown, hmoves none, hmarkdown, hquote]
  rfl

end Limn
