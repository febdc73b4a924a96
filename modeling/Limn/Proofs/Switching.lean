import Limn.Proofs.Strokes
import Mathlib.Tactic

/-! # Rearranging and switching features

The row of strokes says what a change of the table does to the runs.

- Features may trade places as long as those that override keep their order among themselves and
  the others keep theirs: the row of strokes stays the same, so all runs do
  (`Table.runs_of_regrouped`).
- Switching a feature off strikes its strokes out of the row and leaves the others where they are
  (`strokes_filter`), so an octet that it never covered keeps its paint
  (`Table.toggling_is_local`).
-/

namespace Limn

/-! ## Names in order -/

theorem nodup_eraseDups : ∀ names : List String, names.eraseDups.Nodup
  | [] => by simp
  | name :: rest => by
      rw [List.eraseDups_cons, List.nodup_cons]
      refine ⟨?_, nodup_eraseDups (rest.filter fun other => !other == name)⟩
      rw [List.mem_eraseDups, List.mem_filter]
      rintro ⟨-, hne⟩
      simp at hne
termination_by names => names.length
decreasing_by exact Nat.lt_succ_of_le (List.length_filter_le _ _)

theorem Feature.sortedNames_perm {names names' : List String} (h : names.Perm names') :
    sortedNames names = sortedNames names' := by
  have hsorted : ∀ ns : List String, (sortedNames ns).Pairwise (· ≤ ·) := by
    intro ns
    refine (List.pairwise_mergeSort ?_ ?_ _).imp of_decide_eq_true
    · intro a b c hab hbc
      exact decide_eq_true (String.le_trans (of_decide_eq_true hab) (of_decide_eq_true hbc))
    · intro a b
      rw [Bool.or_eq_true, decide_eq_true_eq, decide_eq_true_eq]
      exact String.le_total a b
  have herased : names.eraseDups.Perm names'.eraseDups := by
    refine (List.perm_ext_iff_of_nodup (nodup_eraseDups _) (nodup_eraseDups _)).mpr ?_
    intro name
    rw [List.mem_eraseDups, List.mem_eraseDups]
    exact h.mem_iff
  have hperm : (sortedNames names).Perm (sortedNames names') :=
    (List.mergeSort_perm _ _).trans (herased.trans (List.mergeSort_perm _ _).symm)
  refine hperm.eq_of_pairwise ?_ (hsorted _) (hsorted _)
  intro a b _ _ hab hba
  exact String.le_antisymm hab hba

/-! ## Runs of a table -/

namespace Feature

/-- The runs of a table: a highlighter is made for it and asked once. -/
def runs (features : List Feature) (initial enabled : Option (List String))
    (block inline : Node) : Except Error (List Run) := do
  let h ← Highlighter.create features initial
  let e ← h.evaluate (some block) (some inline) enabled
  .ok e.runs

/-- The names of a choice, if one is made, are all names of the table. -/
def Declares (features : List Feature) (choice : Option (List String)) : Prop :=
  ∀ chosen ∈ choice, ∀ name ∈ chosen, name ∈ names features

/-- The error of names that the table does not declare. -/
def undeclared (features : List Feature) (chosen : List String) : Error :=
  .unknownFeatures (sortedNames (chosen.filter fun name => !(names features).contains name))
    (sortedNames (names features))

theorem exists_of_not_declares {features : List Feature} {choice : Option (List String)}
    (h : ¬ Declares features choice) :
    ∃ chosen, choice = some chosen ∧
      select features (some chosen) = .error (undeclared features chosen) := by
  unfold Declares at h
  push Not at h
  obtain ⟨chosen, rfl, name, hname, hnot⟩ := h
  refine ⟨chosen, rfl, ?_⟩
  have hmem : name ∈ chosen.filter fun name => !(names features).contains name := by
    rw [List.mem_filter]
    exact ⟨hname, by simpa using hnot⟩
  rw [select, undeclared]
  cases hunknown : chosen.filter fun name => !(names features).contains name with
  | nil =>
      rw [hunknown] at hmem
      exact absurd hmem List.not_mem_nil
  | cons first rest => rfl

section Runs

variable (features : List Feature) (block inline : Node)

theorem runs_of_not_declares_initial {initial : Option (List String)}
    (h : ¬ Declares features initial) : ∃ chosen, initial = some chosen ∧
      ∀ enabled, runs features initial enabled block inline =
        .error (undeclared features chosen) := by
  obtain ⟨chosen, rfl, hselect⟩ := exists_of_not_declares h
  refine ⟨chosen, rfl, fun enabled => ?_⟩
  rw [runs, Highlighter.create, hselect]
  rfl

theorem runs_of_not_declares {initial enabled : Option (List String)}
    (hinitial : Declares features initial) (h : ¬ Declares features enabled) :
    ∃ chosen, enabled = some chosen ∧
      runs features initial enabled block inline = .error (undeclared features chosen) := by
  obtain ⟨chosen, rfl, hselect⟩ := exists_of_not_declares h
  refine ⟨chosen, rfl, ?_⟩
  rw [runs, Highlighter.create, select_chosen hinitial]
  show (do
    let e ← (do
      let active ← select features (some chosen)
      evaluateFeatures block inline active : Except Error Evaluation)
    .ok e.runs : Except Error (List Run)) = _
  rw [hselect]
  rfl

end Runs

end Feature

theorem Table.runs_eq (t : Table) (initial enabled : t.Choice) (block inline : Node) :
    Feature.runs t.features initial.names enabled.names block inline =
      .ok (paint (kept block inline (t.active initial enabled))) := by
  obtain ⟨h, hcreate, heval⟩ := t.exists_highlighter initial
  rw [Feature.runs, hcreate]
  show (do
    let e ← h.evaluate (some block) (some inline) enabled.names
    .ok e.runs : Except Error (List Run)) = _
  rw [heval]
  rfl

/-! ## Features that trade places -/

/-- The same features in another order, in which those that override follow one another as before
and so do the others. -/
structure Feature.Regrouped (features features' : List Feature) : Prop where
  overriding : features'.filter (·.override) = features.filter (·.override)
  others : features'.filter (!·.override) = features.filter (!·.override)

section Regrouped

variable {features features' : List Feature} (h : Feature.Regrouped features features')
include h

theorem Feature.Regrouped.perm : features'.Perm features := by
  refine (List.filter_append_perm (·.override) features').symm.trans ?_
  rw [h.overriding, h.others]
  exact List.filter_append_perm _ features

theorem Feature.Regrouped.names_perm : (Feature.names features').Perm (Feature.names features) :=
  h.perm.map _

theorem Feature.Regrouped.declares_iff {choice : Option (List String)} :
    Feature.Declares features' choice ↔ Feature.Declares features choice := by
  simp only [Feature.Declares, h.names_perm.mem_iff]

theorem Feature.Regrouped.undeclared_eq (chosen : List String) :
    Feature.undeclared features' chosen = Feature.undeclared features chosen := by
  have hcontains : ∀ name, (Feature.names features').contains name =
      (Feature.names features).contains name := by
    intro name
    rw [Bool.eq_iff_iff, List.contains_iff_mem, List.contains_iff_mem]
    exact h.names_perm.mem_iff
  rw [Feature.undeclared, Feature.undeclared, Feature.sortedNames_perm h.names_perm]
  simp only [hcontains]

/-- Choosing and regrouping do not get in each other's way. -/
theorem Feature.Regrouped.chosen (names : Option (List String)) :
    Feature.Regrouped (Feature.chosen features names) (Feature.chosen features' names) := by
  cases names with
  | none => exact h
  | some names =>
      constructor
      · rw [Feature.chosen, Feature.chosen, List.filter_comm, h.overriding, List.filter_comm]
      · rw [Feature.chosen, Feature.chosen, List.filter_comm, h.others, List.filter_comm]

theorem Feature.Regrouped.strokes_eq (block inline : Node) :
    strokes block inline features' = strokes block inline features := by
  rw [strokes, strokes, standing, standing, h.overriding, h.others]

end Regrouped

/-- **Only the order inside each class of features matters.** Whatever is chosen beforehand and by
the call, a regrouped table gives the same runs or the same error; it gives runs if all names are
declared, and the error that lists the undeclared names if some are not. -/
theorem Table.runs_of_regrouped (t : Table) {features : List Feature}
    (hregrouped : Feature.Regrouped t.features features)
    (initial enabled : Option (List String)) (block inline : Node) :
    Feature.runs features initial enabled block inline =
        Feature.runs t.features initial enabled block inline ∧
      (Feature.Declares t.features initial ∧ Feature.Declares t.features enabled →
        ∃ runs, Feature.runs t.features initial enabled block inline = .ok runs) ∧
      (¬ Feature.Declares t.features initial ∨ ¬ Feature.Declares t.features enabled →
        ∃ unknown known, Feature.runs t.features initial enabled block inline =
          .error (.unknownFeatures unknown known)) := by
  by_cases hinitial : Feature.Declares t.features initial
  · have hinitial' := hregrouped.declares_iff.mpr hinitial
    by_cases henabled : Feature.Declares t.features enabled
    · -- both tables answer, and their strokes are the same
      let t' : Table := ⟨features, fun f hf => t.wellFormed f (hregrouped.perm.mem_iff.mp hf)⟩
      have hruns := t.runs_eq ⟨initial, hinitial⟩ ⟨enabled, henabled⟩ block inline
      have hruns' := t'.runs_eq ⟨initial, hinitial'⟩
        ⟨enabled, hregrouped.declares_iff.mpr henabled⟩ block inline
      have hstrokes := (hregrouped.chosen (enabled <|> initial)).strokes_eq block inline
      refine ⟨?_, fun _ => ⟨_, hruns⟩, fun h => ?_⟩
      · rw [hruns, hruns', paint_eq_strokes, paint_eq_strokes]
        simp only [Table.active, t', hstrokes]
      · exact absurd h (by simp [hinitial, henabled])
    · obtain ⟨chosen, rfl, hruns⟩ :=
        Feature.runs_of_not_declares t.features block inline hinitial henabled
      obtain ⟨_, ⟨⟩, hruns'⟩ := Feature.runs_of_not_declares features block inline hinitial'
        (mt hregrouped.declares_iff.mp henabled)
      refine ⟨?_, fun h => absurd h.2 henabled, fun _ => ⟨_, _, hruns⟩⟩
      rw [hruns, hruns', hregrouped.undeclared_eq]
  · obtain ⟨chosen, rfl, hruns⟩ :=
      Feature.runs_of_not_declares_initial t.features block inline hinitial
    obtain ⟨_, ⟨⟩, hruns'⟩ := Feature.runs_of_not_declares_initial features block inline
      (mt hregrouped.declares_iff.mp hinitial)
    refine ⟨?_, fun h => absurd h.1 hinitial, fun _ => ⟨_, _, hruns enabled⟩⟩
    rw [hruns, hruns', hregrouped.undeclared_eq]

/-- The brackets of links may be declared first: they override. -/
theorem Table.runs_of_delimiter_first :
    let heading : Node := { type := "atx_heading", span := ⟨0, 4⟩ }
    let bracket : Node := { type := "[", span := ⟨2, 3⟩ }
    let features := [Feature.delimiter, Feature.paragraph, Feature.paragraphInline]
    Feature.Regrouped Table.markdown.features features ∧
      Feature.runs features none none heading bracket = .ok [⟨⟨0, 2⟩, "keyword", "paragraph"⟩,
        ⟨⟨2, 3⟩, "shadow", "delimiter"⟩, ⟨⟨3, 4⟩, "keyword", "paragraph"⟩] := by
  intro heading bracket features
  have hregrouped : Feature.Regrouped Table.markdown.features features := ⟨rfl, rfl⟩
  have hsame := (Table.markdown.runs_of_regrouped hregrouped none none heading bracket).1
  refine ⟨hregrouped, hsame.trans ?_⟩
  cbv

/-! ## Features switched on and off -/

theorem standing_filter (p : Feature → Bool) (active : List Feature) :
    standing (active.filter p) = (standing active).filter fun fr => p fr.1 := by
  rw [standing, standing, List.filter_append, ← declaredRules_filter, ← declaredRules_filter]
  congr 2 <;> exact List.filter_comm ..

section Switching

variable {block inline : Node}

/-- **Switching features off strikes out their strokes** and no others. -/
theorem strokes_filter (p : String → Bool) (active : List Feature) :
    strokes block inline (active.filter fun f => p f.name) =
      (strokes block inline active).filter fun s => p s.feature := by
  rw [strokes, strokes, standing_filter]
  apply flatMap_filter
  intro fr s hs
  obtain ⟨v, -, rfl⟩ := List.mem_map.mp hs
  rfl

theorem strokes_chosen {features : List Feature} {E E' : List String} (hsub : E ⊆ E') :
    strokes block inline (Feature.chosen features (some E)) =
      (strokes block inline (Feature.chosen features (some E'))).filter
        fun s => E.contains s.feature := by
  have hchosen : Feature.chosen features (some E) =
      (Feature.chosen features (some E')).filter fun f => E.contains f.name := by
    rw [Feature.chosen, Feature.chosen, List.filter_filter]
    apply List.filter_congr
    intro f _
    rw [Bool.eq_iff_iff, Bool.and_eq_true, List.contains_iff_mem, List.contains_iff_mem]
    exact ⟨fun hE => ⟨hE, hsub hE⟩, And.left⟩
  rw [hchosen, strokes_filter E.contains]

/-- An octet is covered by a run iff it is covered by a stroke. -/
theorem exists_run_covers_iff {active : List Feature} {o : Int} :
    (∃ r ∈ paint (kept block inline active), r.span.covers o = true) ↔
      ∃ s ∈ strokes block inline active, s.span.covers o = true := by
  have hpaint := @paint_covers_strokes block inline active o
  have hruns : (∃ r ∈ paint (kept block inline active), r.span.covers o = true) ↔
      ((paint (kept block inline active)).filter fun r => r.span.covers o).map Run.paint ≠ [] := by
    simp
  have hstrokes : (∃ s ∈ strokes block inline active, s.span.covers o = true) ↔
      (strokes block inline active).filter (fun s => s.span.covers o) ≠ [] := by
    simp
  rw [hruns, hstrokes, hpaint]
  simp

end Switching

/-- **Switching features is local.** Let more features be on in the second call than in the first.
Whatever the first paints, the second paints too; and where no hit of an added feature covers an
octet, both paint it alike or leave it bare. -/
theorem Table.toggling_is_local (t : Table) (initial : t.Choice) (block inline : Node)
    {E E' : List String} (hsub : E ⊆ E')
    (hdeclared : ∀ name ∈ E', name ∈ Feature.names t.features) :
    ∃ h e e', Highlighter.create t.features initial.names = .ok h ∧
      h.evaluate (some block) (some inline) (some E) = .ok e ∧
      h.evaluate (some block) (some inline) (some E') = .ok e' ∧
      (∀ o : Int, (∃ r ∈ e.runs, r.span.covers o = true) →
        ∃ r ∈ e'.runs, r.span.covers o = true) ∧
      ∀ o : Int, (∀ m, IsHit block inline (Feature.chosen t.features (some E')) m →
          m.feature.name ∉ E → ¬ m.node.span.covers o = true) →
        (e.runs.filter fun r => r.span.covers o).map (fun r => (r.category, r.feature)) =
          (e'.runs.filter fun r => r.span.covers o).map fun r => (r.category, r.feature) := by
  obtain ⟨h, hcreate, heval⟩ := t.exists_highlighter initial
  refine ⟨h, _, _, hcreate,
    heval ⟨some E, by rintro _ ⟨⟩ name hname; exact hdeclared name (hsub hname)⟩ block inline,
    heval ⟨some E', by rintro _ ⟨⟩; exact hdeclared⟩ block inline, ?_, ?_⟩
  · intro o hcovered
    rw [exists_run_covers_iff] at hcovered ⊢
    obtain ⟨s, hs, hcov⟩ := hcovered
    change s ∈ strokes block inline (Feature.chosen t.features (some E)) at hs
    rw [strokes_chosen hsub] at hs
    exact ⟨s, List.mem_of_mem_filter hs, hcov⟩
  · intro o houtside
    have hkeep : ((strokes block inline (Feature.chosen t.features (some E'))).filter
        fun s => E.contains s.feature).filter (fun s => s.span.covers o) =
          (strokes block inline (Feature.chosen t.features (some E'))).filter
            fun s => s.span.covers o := by
      rw [List.filter_filter]
      apply List.filter_congr
      intro s hs
      obtain ⟨m, hm, rfl⟩ := mem_strokes.mp hs
      cases hcov : m.stroke.span.covers o with
      | false => rfl
      | true =>
          rw [Bool.true_and, List.contains_iff_mem]
          by_contra hnot
          exact houtside m hm hnot hcov
    have hE := @paint_covers_strokes block inline (Feature.chosen t.features (some E)) o
    have hE' := @paint_covers_strokes block inline (Feature.chosen t.features (some E')) o
    rw [strokes_chosen hsub, hkeep, ← hE'] at hE
    exact hE

/-- Switching on the brackets of links leaves a heading alone beside them. -/
theorem Table.heading_beside_bracket :
    let heading : Node := { type := "atx_heading", span := ⟨0, 4⟩ }
    let bracket : Node := { type := "[", span := ⟨2, 3⟩ }
    let E := ["paragraph"]
    let E' := ["paragraph", "delimiter"]
    E ⊆ E' ∧ (∀ name ∈ E', name ∈ Feature.names Table.markdown.features) ∧
      ∃ h e e', Highlighter.create Table.markdown.features none = .ok h ∧
        h.evaluate (some heading) (some bracket) (some E) = .ok e ∧
        h.evaluate (some heading) (some bracket) (some E') = .ok e' ∧
        (e.runs.filter fun r => r.span.covers 1).map (fun r => (r.category, r.feature)) =
          (e'.runs.filter fun r => r.span.covers 1).map fun r => (r.category, r.feature) := by
  intro heading bracket E E'
  have hsub : E ⊆ E' := by decide
  have hdeclared : ∀ name ∈ E', name ∈ Feature.names Table.markdown.features := by decide
  have houtside : ∀ m ∈ rising heading bracket (Feature.chosen Table.markdown.features (some E')),
      m.feature.name ∉ E → ¬ m.node.span.covers 1 = true := by
    decide +kernel
  obtain ⟨h, e, e', hcreate, he, he', -, hlocal⟩ :=
    Table.markdown.toggling_is_local ⟨none, by simp⟩ heading bracket hsub hdeclared
  exact ⟨hsub, hdeclared, h, e, e', hcreate, he, he',
    hlocal 1 fun m hm => houtside m (mem_rising.mpr hm)⟩

end Limn
