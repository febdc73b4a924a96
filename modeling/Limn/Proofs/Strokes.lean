import Limn.Proofs.Painting
import Mathlib.Tactic

/-! # Strokes

The numbers of rules and visits serve only to put hits in order. Once the hits stand in a row from
the lowest priority to the highest the numbers can be forgotten, and what is left of a hit is a
*stroke*: the identity of its node, its category and its feature.

The row of strokes is listed directly from the table (`strokes`): the rules of features that do not
override come first and those that do come last, each in the order of declaration, and each rule
contributes the nodes that it matches in the order of the walk. Two facts say that this row decides
everything:

- `paint_eq_strokes`: the runs are those of painting the row from its end, after striking out every
  stroke that has a later one on the same node;
- `paint_covers_strokes`: an octet is painted by the last stroke that covers it.
-/

namespace Limn

/-! ## Rules in the order of precedence -/

/-- The rules of a table, those of features that override after all others. -/
def standing (active : List Feature) : List (Feature × Rule) :=
  declaredRules (active.filter (!·.override)) ++ declaredRules (active.filter (·.override))

/-- The rules in the order of precedence, with their places in the table. -/
def ranked (active : List Feature) : List ((Feature × Rule) × Nat) :=
  ((declaredRules active).zipIdx 1).filter (!·.1.1.override) ++
    ((declaredRules active).zipIdx 1).filter (·.1.1.override)

/-- Members whose parts all pass or all fail a test may be tested before their parts are listed. -/
theorem flatMap_filter {α β : Type} {f : α → List β} {p : α → Bool} {q : β → Bool}
    (h : ∀ a, ∀ b ∈ f a, q b = p a) (l : List α) :
    (l.filter p).flatMap f = (l.flatMap f).filter q := by
  induction l with
  | nil => rfl
  | cons a rest ih =>
      rw [List.flatMap_cons, List.filter_append, ← ih]
      by_cases hp : p a = true
      · have hall : (f a).filter q = f a := List.filter_eq_self.mpr fun b hb => by rw [h a b hb, hp]
        rw [List.filter_cons_of_pos hp, List.flatMap_cons, hall]
      · have hnone : (f a).filter q = [] :=
          List.filter_eq_nil_iff.mpr fun b hb => by rwa [h a b hb]
        rw [List.filter_cons_of_neg hp, hnone, List.nil_append]

theorem declaredRules_filter (p : Feature → Bool) (features : List Feature) :
    declaredRules (features.filter p) = (declaredRules features).filter fun fr => p fr.1 := by
  apply flatMap_filter
  intro f fr hfr
  obtain ⟨r, -, rfl⟩ := List.mem_map.mp hfr
  rfl

theorem map_fst_ranked (active : List Feature) : (ranked active).map Prod.fst = standing active := by
  have hpart : ∀ p : Feature → Bool,
      (((declaredRules active).zipIdx 1).filter fun x => p x.1.1).map Prod.fst =
        declaredRules (active.filter p) := by
    intro p
    rw [declaredRules_filter, ← List.zipIdx_map_fst 1 (declaredRules active), List.filter_map]
    simp [Function.comp_def]
  rw [ranked, List.map_append]
  exact congrArg₂ (· ++ ·) (hpart (!·.override)) (hpart (·.override))

theorem mem_ranked {active : List Feature} {x : (Feature × Rule) × Nat} :
    x ∈ ranked active ↔ x ∈ (declaredRules active).zipIdx 1 := by
  rw [ranked, List.mem_append, List.mem_filter, List.mem_filter]
  cases x.1.1.override <;> simp

theorem zipIdx_increasing {α : Type} (l : List α) (k : Nat) :
    (l.zipIdx k).Pairwise fun a b => a.2 < b.2 := by
  have h : (List.range' k l.length).Pairwise (· < ·) := List.pairwise_lt_range'
  rw [← List.zipIdx_map_snd, List.pairwise_map] at h
  exact h

/-- A rule that stands later gives higher priority, whatever the nodes. -/
theorem ranked_increasing (active : List Feature) : (ranked active).Pairwise fun a b => ∀ i j,
    Priority.key ⟨a.1.1.override, a.2, i⟩ < Priority.key ⟨b.1.1.override, b.2, j⟩ := by
  have hpart : ∀ o : Bool, ∀ p : (Feature × Rule) × Nat → Bool, (∀ x, p x = true → x.1.1.override = o) →
      (((declaredRules active).zipIdx 1).filter p).Pairwise fun a b => ∀ i j,
        Priority.key ⟨a.1.1.override, a.2, i⟩ < Priority.key ⟨b.1.1.override, b.2, j⟩ := by
    intro o p hp
    refine ((zipIdx_increasing (declaredRules active) 1).filter p).imp_of_mem ?_
    intro a b ha hb hab i j
    rw [hp a (List.mem_filter.mp ha).2, hp b (List.mem_filter.mp hb).2]
    simp [Priority.key, Prod.Lex.toLex_lt_toLex, hab]
  refine List.pairwise_append.mpr ⟨hpart false _ (by simp), hpart true _ (by simp), ?_⟩
  intro a ha b hb i j
  have ha' : a.1.1.override = false := by simpa using (List.mem_filter.mp ha).2
  have hb' : b.1.1.override = true := by simpa using (List.mem_filter.mp hb).2
  rw [ha', hb']
  simp [Priority.key, Prod.Lex.toLex_lt_toLex]

/-! ## Hits from the lowest priority to the highest -/

section Rising

variable (block inline : Node)

/-- The visits of the tree that a rule looks at. -/
def visitsOn (layer : Layer) : List Node.Visit :=
  ((treeOf block inline layer).map (·.preorder none)).getD []

/-- The hits of one rule, in the order of the walk. -/
def hitsOf (x : (Feature × Rule) × Nat) : List Hit :=
  ((visitsOn block inline x.1.2.layer).zipIdx.filter fun v =>
      x.1.2.pattern.holds v.1.node v.1.parent).map
    fun v => ⟨x.1.1, x.1.2, x.2, v.1.node, v.1.parent, v.2⟩

/-- All hits, from the lowest priority to the highest. -/
def rising (active : List Feature) : List Hit :=
  (ranked active).flatMap (hitsOf block inline)

variable {block inline} {active : List Feature}

theorem mem_visitsOn {layer : Layer} {x : Node.Visit × Nat} :
    x ∈ (visitsOn block inline layer).zipIdx ↔
      ∃ root, treeOf block inline layer = some root ∧ x ∈ (root.preorder none).zipIdx := by
  rw [visitsOn]
  cases treeOf block inline layer with
  | none => simp
  | some root => simp

theorem mem_rising {h : Hit} : h ∈ rising block inline active ↔ IsHit block inline active h := by
  rw [rising, List.mem_flatMap]
  constructor
  · rintro ⟨x, hx, hh⟩
    obtain ⟨v, hv, rfl⟩ := List.mem_map.mp hh
    rw [List.mem_filter, mem_visitsOn] at hv
    exact ⟨mem_ranked.mp hx, hv.1, Pattern.accepts_eq_true_iff.mpr hv.2⟩
  · intro hh
    refine ⟨((h.feature, h.rule), h.rank), mem_ranked.mpr hh.declared, ?_⟩
    refine List.mem_map.mpr ⟨(⟨h.node, h.parent⟩, h.visit), ?_, rfl⟩
    exact List.mem_filter.mpr
      ⟨mem_visitsOn.mpr hh.visited, Pattern.accepts_eq_true_iff.mp hh.accepted⟩

theorem rising_increasing :
    (rising block inline active).Pairwise fun a b => a.priority.key < b.priority.key := by
  refine List.pairwise_flatMap.mpr ⟨?_, (ranked_increasing active).imp ?_⟩
  · intro x _
    refine List.pairwise_map.mpr (((zipIdx_increasing _ 0).filter _).imp ?_)
    intro v w hvw
    simp [Hit.priority, Priority.key, Prod.Lex.toLex_lt_toLex, hvw]
  · intro a b hab h hh k hk
    obtain ⟨v, -, rfl⟩ := List.mem_map.mp hh
    obtain ⟨w, -, rfl⟩ := List.mem_map.mp hk
    exact hab v.2 w.2

/-! ## One hit for each identity -/

instance : DecidableRel Hit.SameIdentity := fun _ _ => inferInstanceAs (Decidable (_ ∧ _))

theorem Hit.SameIdentity.symm {h k : Hit} (hid : h.SameIdentity k) : k.SameIdentity h :=
  ⟨hid.1.symm, hid.2.1.symm, hid.2.2.symm⟩

theorem Hit.SameIdentity.trans {h k l : Hit} (hhk : h.SameIdentity k) (hkl : k.SameIdentity l) :
    h.SameIdentity l :=
  ⟨hhk.1.trans hkl.1, hhk.2.1.trans hkl.2.1, hhk.2.2.trans hkl.2.2⟩

/-- In a rising row, what remains when hits are struck out that have a later one of their identity
is the best hit of each identity. -/
theorem mem_pwFilter_iff {h : Hit} : ∀ {hits : List Hit},
    hits.Pairwise (fun a b => a.priority.key < b.priority.key) →
      (h ∈ hits.pwFilter (fun a b => ¬ a.SameIdentity b) ↔
        h ∈ hits ∧ ∀ k ∈ hits, k.SameIdentity h → k.priority.key ≤ h.priority.key) := by
  intro hits hrising
  induction hits with
  | nil => simp
  | cons a rest ih =>
      obtain ⟨habove, hrest⟩ := List.pairwise_cons.mp hrising
      have hbest : h ∈ rest → ((∀ k ∈ a :: rest, k.SameIdentity h → k.priority.key ≤ h.priority.key) ↔
          ∀ k ∈ rest, k.SameIdentity h → k.priority.key ≤ h.priority.key) := by
        intro hh
        rw [List.forall_mem_cons]
        exact and_iff_right fun _ => (habove h hh).le
      by_cases hlast : ∀ b ∈ rest.pwFilter (fun a b => ¬ a.SameIdentity b), ¬ a.SameIdentity b
      · rw [List.pwFilter_cons_of_pos hlast, List.mem_cons, List.mem_cons, ih hrest]
        rw [List.forall_mem_pwFilter] at hlast
        · constructor
          · rintro (rfl | ⟨hh, hle⟩)
            · refine ⟨Or.inl rfl, List.forall_mem_cons.mpr ⟨fun _ => le_rfl, ?_⟩⟩
              intro k hk hid
              exact absurd hid.symm (hlast k hk)
            · exact ⟨Or.inr hh, (hbest hh).mpr hle⟩
          · rintro ⟨rfl | hh, hle⟩
            · exact Or.inl rfl
            · exact Or.inr ⟨hh, (hbest hh).mp hle⟩
        · intro x y z hxz
          by_contra hboth
          rw [not_or, not_not, not_not] at hboth
          exact hxz (hboth.1.trans hboth.2)
      · rw [List.pwFilter_cons_of_neg hlast, ih hrest, List.mem_cons]
        push Not at hlast
        obtain ⟨b, hb, hid⟩ := hlast
        have hbrest : b ∈ rest := (List.pwFilter_sublist rest).subset hb
        constructor
        · rintro ⟨hh, hle⟩
          exact ⟨Or.inr hh, (hbest hh).mpr hle⟩
        · rintro ⟨rfl | hh, hle⟩
          · have hba := hle b (List.mem_cons_of_mem _ hbrest) hid.symm
            exact absurd hba (habove b hbrest).not_ge
          · exact ⟨hh, (hbest hh).mp hle⟩

/-- **What is painted, in order**: the best hits of their identities, from the highest down. -/
theorem painted_eq : painted block inline active =
    (((rising block inline active).pwFilter fun a b => ¬ a.SameIdentity b).reverse).map
      Hit.toMatch := by
  set best := (rising block inline active).pwFilter fun a b => ¬ a.SameIdentity b with hbest
  have hincreasing : best.Pairwise fun a b => a.priority.key < b.priority.key :=
    rising_increasing.sublist (List.pwFilter_sublist _)
  have hdecreasing : (best.reverse.map Hit.toMatch).Pairwise
      fun a b => b.priority.key < a.priority.key := by
    rw [List.pairwise_map, List.pairwise_reverse]
    exact hincreasing
  have hnodup : ∀ {ms : List Match}, ms.Pairwise (fun a b => b.priority.key < a.priority.key) →
      ms.Nodup := by
    intro ms h
    refine h.imp ?_
    rintro a b hlt rfl
    exact lt_irrefl _ hlt
  have hmem : ∀ m, m ∈ painted block inline active ↔ m ∈ best.reverse.map Hit.toMatch := by
    intro m
    simp only [mem_painted, List.mem_map, List.mem_reverse, hbest,
      mem_pwFilter_iff rising_increasing, mem_rising]
    constructor
    · intro hm
      obtain ⟨h, hh, rfl⟩ := exists_hit_of_mem_kept hm
      exact ⟨h, ⟨hh, (toMatch_mem_kept_iff hh).mp hm⟩, rfl⟩
    · rintro ⟨h, ⟨hh, hle⟩, rfl⟩
      exact (toMatch_mem_kept_iff hh).mpr hle
  have hperm := (List.perm_ext_iff_of_nodup (hnodup painted_decreasing) (hnodup hdecreasing)).mpr hmem
  refine hperm.eq_of_pairwise ?_ painted_decreasing hdecreasing
  intro a b _ _ hab hba
  exact absurd hab hba.asymm

end Rising

/-! ## Strokes -/

/-- What painting takes from a hit: the identity of its node, its category and its feature. -/
structure Stroke where
  layer : Layer
  type : Wording
  span : Span
  category : String
  feature : String
deriving DecidableEq, Repr

namespace Stroke

/-- Two strokes on one identity. -/
def SameIdentity (s t : Stroke) : Prop :=
  s.layer = t.layer ∧ s.span = t.span ∧ s.type = t.type

instance : DecidableRel SameIdentity := fun _ _ => inferInstanceAs (Decidable (_ ∧ _))

/-- The category and the feature of a stroke. -/
def paint (s : Stroke) : String × String :=
  (s.category, s.feature)

/-- A stroke as a match of no particular priority. -/
def toMatch (s : Stroke) : Match :=
  ⟨s.type, s.span, s.category, s.feature, default⟩

end Stroke

def Hit.stroke (h : Hit) : Stroke :=
  ⟨h.rule.layer, h.node.type, h.node.span, h.rule.category, h.feature.name⟩

section Strokes

variable (block inline : Node)

/-- The strokes of one rule, in the order of the walk. -/
def strokesOf (fr : Feature × Rule) : List Stroke :=
  ((visitsOn block inline fr.2.layer).filter fun v => fr.2.pattern.holds v.node v.parent).map
    fun v => ⟨fr.2.layer, v.node.type, v.node.span, fr.2.category, fr.1.name⟩

/-- The strokes of a table, from the lowest priority to the highest. -/
def strokes (active : List Feature) : List Stroke :=
  (standing active).flatMap (strokesOf block inline)

variable {block inline} {active : List Feature}

theorem map_stroke_hitsOf (x : (Feature × Rule) × Nat) :
    (hitsOf block inline x).map Hit.stroke = strokesOf block inline x.1 := by
  rw [hitsOf, strokesOf, List.map_map]
  conv_rhs => rw [← List.zipIdx_map_fst 0 (visitsOn block inline x.1.2.layer), List.filter_map,
    List.map_map]
  rfl

theorem map_stroke_rising : (rising block inline active).map Hit.stroke =
    strokes block inline active := by
  rw [rising, List.map_flatMap, strokes, ← map_fst_ranked, List.flatMap_map]
  exact congrArg (List.flatMap · _) (funext map_stroke_hitsOf)

theorem mem_strokes {s : Stroke} : s ∈ strokes block inline active ↔
    ∃ h, IsHit block inline active h ∧ h.stroke = s := by
  rw [← map_stroke_rising, List.mem_map]
  simp only [mem_rising]

/-! ## What the strokes decide -/

/-- Painting looks at no priority once the matches are in order. -/
theorem paintAll_stroke : ∀ (hits : List Hit) (c : Canvas),
    paintAll c (hits.map Hit.toMatch) = paintAll c ((hits.map Hit.stroke).map Stroke.toMatch) := by
  intro hits
  induction hits with
  | nil =>
      intro c
      rfl
  | cons h rest ih =>
      intro c
      have hstep : paintMatch c h.toMatch = paintMatch c h.stroke.toMatch := rfl
      simp only [List.map_cons, paintAll_cons]
      rw [hstep, ih]

/-- **The strokes decide the runs.** -/
theorem paint_eq_strokes : paint (kept block inline active) =
    (paintAll .blank ((((strokes block inline active).pwFilter
      fun s t => ¬ s.SameIdentity t).reverse).map Stroke.toMatch)).mergeSort Run.before := by
  have hpainted : paint (kept block inline active) =
      (paintAll .blank (painted block inline active)).mergeSort Run.before := rfl
  rw [hpainted, painted_eq, paintAll_stroke, List.map_reverse, ← map_stroke_rising,
    List.pwFilter_map]
  rfl

/-- In a rising row of hits, the last one with a property is the best one with it. -/
theorem getLast?_filter_rising {p : Hit → Bool} {h : Hit} (hh : IsHit block inline active h)
    (hp : p h = true)
    (hbest : ∀ k, IsHit block inline active k → p k = true → k.priority.key ≤ h.priority.key) :
    ((rising block inline active).filter p).getLast? = some h := by
  have hmem : h ∈ (rising block inline active).filter p :=
    List.mem_filter.mpr ⟨mem_rising.mpr hh, hp⟩
  obtain ⟨init, last, hsplit⟩ := (List.eq_nil_or_concat' _).resolve_left (List.ne_nil_of_mem hmem)
  have hlast : last ∈ (rising block inline active).filter p := by
    rw [hsplit]
    simp
  have hrising : ((rising block inline active).filter p).Pairwise
      fun a b => a.priority.key < b.priority.key := rising_increasing.filter p
  have hhit : IsHit block inline active last := mem_rising.mp (List.mem_filter.mp hlast).1
  have hle : last.priority.key ≤ h.priority.key := hbest last hhit (List.mem_filter.mp hlast).2
  rw [hsplit] at hmem hrising ⊢
  rw [List.getLast?_concat]
  rcases List.mem_append.mp hmem with hinit | heq
  · have hlt := (List.pairwise_append.mp hrising).2.2 h hinit last (by simp)
    exact absurd hle hlt.not_ge
  · rw [List.mem_singleton.mp heq]

/-- **An octet is painted by the last stroke that covers it.** -/
theorem paint_covers_strokes (o : Int) :
    ((paint (kept block inline active)).filter fun r => r.span.covers o).map Run.paint =
      (((strokes block inline active).filter fun s => s.span.covers o).getLast?.map
        Stroke.paint).toList := by
  have hstrokes : (strokes block inline active).filter (fun s => s.span.covers o) =
      ((rising block inline active).filter fun h => h.node.span.covers o).map Hit.stroke := by
    rw [← map_stroke_rising, List.filter_map]
    rfl
  rw [paint_covers, hstrokes, List.getLast?_map, Option.map_map]
  rcases find?_painted_spec block inline active o with ⟨hnone, hfree⟩ | ⟨h, hh, hcov, hsome, hbest⟩
  · have hnil : (rising block inline active).filter (fun h => h.node.span.covers o) = [] := by
      rw [List.filter_eq_nil_iff]
      intro h hh
      exact hfree h (mem_rising.mp hh)
    rw [hnone, hnil]
    rfl
  · rw [hsome, getLast?_filter_rising hh hcov hbest]
    rfl

end Strokes

end Limn
