import Limn.Proofs.Painting

/-! # Precedence without ties

Painting starts by sorting, so the order in which matches were collected can show only where two of
them have one priority. There are no such two: positions of rules are counted over both trees, and
within a tree the visits differ. What is left of the order of collection is nothing, runs on equal
spans included (`priorities_distinct_painting_unordered`).
-/

namespace Limn

/-- In which order matches were collected does not show, if their priorities differ. -/
theorem paint_of_perm {ms ms' : List Match}
    (h : ms.Pairwise fun a b => a.priority.key ≠ b.priority.key) (hperm : ms'.Perm ms) :
    paint ms' = paint ms := by
  have h' : ms'.Pairwise fun a b => a.priority.key ≠ b.priority.key :=
    hperm.symm.pairwise h fun hne => hne.symm
  have hsorted : ms'.mergeSort (fun a b => a.priority.atLeast b.priority) =
      ms.mergeSort fun a b => a.priority.atLeast b.priority := by
    refine List.Perm.eq_of_pairwise ?_ (mergeSort_decreasing h') (mergeSort_decreasing h) ?_
    · intro a b _ _ hab hba
      exact absurd hab hba.asymm
    · exact (List.mergeSort_perm _ _).trans (hperm.trans (List.mergeSort_perm _ _).symm)
  rw [paint, paint, hsorted]

theorem pairwise_key_iff {ms : List Match} :
    (ms.Pairwise fun a b => a.priority.key ≠ b.priority.key) ↔
      ms.Pairwise fun a b => a.priority ≠ b.priority := by
  simp only [ne_eq, Priority.key_injective.eq_iff]

/-- **Priorities never tie, and so nothing hangs on the order of collection.** For every table and
every pair of trees, the matches collected from both trees differ in priority, two by two. Matches
that do so are painted alike in whichever order they come; so the runs of the trees are what any
order of their matches gives. -/
theorem priorities_distinct_painting_unordered :
    (∀ (t : Table) (block inline : Node), ∃ ofBlock ofInline e,
      matchTree block .block t.features = .ok ofBlock ∧
      matchTree inline .inline t.features = .ok ofInline ∧
      (ofBlock ++ ofInline).Pairwise (fun a b => a.priority ≠ b.priority) ∧
      evaluateFeatures block inline t.features = .ok e ∧
      ∀ ms, ms.Perm (ofBlock ++ ofInline) → paint ms = e.runs) ∧
    ∀ ms ms' : List Match, ms.Pairwise (fun a b => a.priority ≠ b.priority) → ms'.Perm ms →
      paint ms' = paint ms := by
  constructor
  · intro t block inline
    have hwf := declaredRules_wellFormed t.wellFormed
    have hdistinct : (kept block inline t.features).Pairwise
        fun a b => a.priority.key ≠ b.priority.key := kept_priorities
    exact ⟨_, _, _, matchTree_eq hwf, matchTree_eq hwf, pairwise_key_iff.mp hdistinct,
      evaluateFeatures_eq hwf, fun ms hms => paint_of_perm hdistinct hms⟩
  · intro ms ms' hms hperm
    exact paint_of_perm (pairwise_key_iff.mpr hms) hperm

/-- Of two matches of one priority, the one collected first would win. -/
example :
    let bold : Match := ⟨"x", ⟨0, 1⟩, "bold", "f", ⟨false, 1, 0⟩⟩
    let link : Match := ⟨"y", ⟨0, 1⟩, "link", "f", ⟨false, 1, 0⟩⟩
    (paint [bold, link], paint [link, bold]) =
      ([⟨⟨0, 1⟩, "bold", "f"⟩], [⟨⟨0, 1⟩, "link", "f"⟩]) := by
  cbv

end Limn
