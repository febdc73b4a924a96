import Limn.Proofs.Walk
import Mathlib.Data.List.Lex

/-! # Positions

A position is a place in a tree, given by the numbers of the children on the way to it from the
root. Positions tell apart nodes that look alike. In lexicographic order they stand as in a walk: a
node before all that is below it, and that before its later siblings.

`Node.spots` is the walk of a tree with the position of every node. Its positions increase
(`Node.spots_increasing`), and it comes by just the nodes that stand somewhere
(`Node.mem_spots_iff`).
-/

namespace Limn

/-- A place in a tree: the numbers of the children on the way to it from the root. -/
abbrev Position := List Nat

/-- What stands at a position below a thing, if the children of things are given. -/
def descend {α : Type} (children : α → List α) : α → Position → Option α
  | a, [] => some a
  | a, i :: p => (children a)[i]?.bind fun c => descend children c p

section Descend

variable {α : Type} {children : α → List α} {a b : α} {i : Nat} {p : Position}

@[simp] theorem descend_nil : descend children a [] = some a :=
  rfl

theorem descend_cons_eq_some : descend children a (i :: p) = some b ↔
    ∃ c, (children a)[i]? = some c ∧ descend children c p = some b := by
  rw [descend, Option.bind_eq_some_iff]

theorem descend_append (p q : Position) : descend children a (p ++ q) =
    (descend children a p).bind fun b => descend children b q := by
  induction p generalizing a with
  | nil => rfl
  | cons i p ih =>
      rw [List.cons_append, descend, descend]
      cases (children a)[i]? with
      | none => rfl
      | some c => exact ih

/-- The child of what stands at a position stands at the next position below. -/
theorem descend_child (h : descend children a p = some b) (i : Nat) :
    descend children a (p ++ [i]) = (children b)[i]? := by
  rw [descend_append, h]
  exact Option.bind_fun_some _

/-- Trees that are the same but for what they consist of have the same positions. -/
theorem descend_map {β : Type} {below : β → List β} {f : α → β}
    (h : ∀ a, below (f a) = (children a).map f) (a : α) (p : Position) :
    descend below (f a) p = (descend children a p).map f := by
  induction p generalizing a with
  | nil => rfl
  | cons i p ih =>
      rw [descend, descend, h, List.getElem?_map]
      cases (children a)[i]? with
      | none => rfl
      | some c => exact ih c

end Descend

namespace Node

/-- The node at a position of a tree. -/
def at? (n : Node) (p : Position) : Option Node :=
  descend Node.children n p

mutual

/-- The walk of a tree, with positions. -/
def spots (parent : Option Node) : Node → List (Position × Visit)
  | ⟨type, span, named, field, content, children⟩ =>
    ([], ⟨⟨type, span, named, field, content, children⟩, parent⟩) ::
      forestSpots 0 ⟨type, span, named, field, content, children⟩ children

/-- The walks of a row of trees, the first of them being child number `i`. -/
def forestSpots (i : Nat) (parent : Node) : List Node → List (Position × Visit)
  | [] => []
  | n :: rest =>
    (spots (some parent) n).map (fun s => (i :: s.1, s.2)) ++ forestSpots (i + 1) parent rest

end

theorem spots_eq (parent : Option Node) (n : Node) :
    n.spots parent = ([], ⟨n, parent⟩) :: forestSpots 0 n n.children := by
  cases n
  rw [spots]

theorem forestSpots_cons (i : Nat) (parent n : Node) (ns : List Node) :
    forestSpots i parent (n :: ns) = ([i], ⟨n, some parent⟩) ::
      ((forestSpots 0 n n.children).map fun s => (i :: s.1, s.2)) ++
        forestSpots (i + 1) parent ns := by
  rw [forestSpots, spots_eq, List.map_cons]

/-! ## The walk -/

theorem map_snd_forestSpots (i : Nat) (parent : Node) (ns : List Node) :
    (forestSpots i parent ns).map Prod.snd = forestOrder parent ns := by
  induction ns using forest_induction generalizing i parent with
  | nil => simp [forestSpots, forestOrder]
  | cons n ns ihchildren ih =>
      rw [forestSpots_cons, forestOrder, preorder_eq, List.map_append, ih, List.map_cons,
        List.map_map, ← ihchildren 0 n]
      rfl

/-- Without the positions, the spots of a tree are its walk. -/
theorem map_snd_spots (root : Node) : (root.spots none).map Prod.snd = root.walk := by
  rw [walk_eq_preorder, preorder_eq, spots_eq, List.map_cons, map_snd_forestSpots]

theorem le_head_of_mem_forestSpots {ns : List Node} : ∀ {i : Nat} {parent : Node}
    {s : Position × Visit}, s ∈ forestSpots i parent ns → ∃ j p, s.1 = j :: p ∧ i ≤ j := by
  induction ns with
  | nil =>
      intro i parent s hs
      simp [forestSpots] at hs
  | cons n ns ih =>
      intro i parent s hs
      rw [forestSpots, List.mem_append, List.mem_map] at hs
      rcases hs with ⟨t, -, rfl⟩ | hs
      · exact ⟨i, t.1, rfl, le_rfl⟩
      · obtain ⟨j, p, hp, hij⟩ := ih hs
        exact ⟨j, p, hp, by omega⟩

theorem forestSpots_increasing (i : Nat) (parent : Node) (ns : List Node) :
    (forestSpots i parent ns).Pairwise fun s t => s.1 < t.1 := by
  induction ns using forest_induction generalizing i parent with
  | nil => simp [forestSpots]
  | cons n ns ihchildren ih =>
      rw [forestSpots_cons, List.pairwise_append, List.pairwise_cons]
      refine ⟨⟨?_, ?_⟩, ih (i + 1) parent, ?_⟩
      · intro s hs
        obtain ⟨t, ht, rfl⟩ := List.mem_map.mp hs
        obtain ⟨j, p, hp, -⟩ := le_head_of_mem_forestSpots ht
        rw [List.cons_lt_cons_iff, hp]
        exact Or.inr ⟨rfl, List.nil_lt_cons j p⟩
      · rw [List.pairwise_map]
        apply (ihchildren 0 n).imp
        intro s t hst
        rw [List.cons_lt_cons_iff]
        exact Or.inr ⟨rfl, hst⟩
      · -- all positions of the first tree start with its number, which is below all later ones
        intro s hs t ht
        obtain ⟨j, q, hq, hij⟩ := le_head_of_mem_forestSpots ht
        have hhead : ∃ p, s.1 = i :: p := by
          rcases List.mem_cons.mp hs with rfl | hs
          · exact ⟨[], rfl⟩
          · obtain ⟨u, -, rfl⟩ := List.mem_map.mp hs
            exact ⟨u.1, rfl⟩
        obtain ⟨p, hp⟩ := hhead
        rw [hp, hq, List.cons_lt_cons_iff]
        exact Or.inl (by omega)

/-- **A walk follows the order of positions.** -/
theorem spots_increasing (root : Node) (parent : Option Node) :
    (root.spots parent).Pairwise fun s t => s.1 < t.1 := by
  rw [spots_eq, List.pairwise_cons]
  refine ⟨?_, forestSpots_increasing 0 root root.children⟩
  intro s hs
  obtain ⟨j, p, hp, -⟩ := le_head_of_mem_forestSpots hs
  rw [hp]
  exact List.nil_lt_cons j p

/-! ## What stands at a position -/

theorem at?_of_mem_forestSpots {ns : List Node} : ∀ {i : Nat} {parent : Node}
    {s : Position × Visit}, s ∈ forestSpots i parent ns →
      ∃ j p n, s.1 = (i + j) :: p ∧ ns[j]? = some n ∧ n.at? p = some s.2.node := by
  induction ns using forest_induction with
  | nil =>
      intro i parent s hs
      simp [forestSpots] at hs
  | cons n ns ihchildren ih =>
      intro i parent s hs
      rw [forestSpots_cons, List.cons_append, List.mem_cons, List.mem_append, List.mem_map] at hs
      rcases hs with rfl | ⟨t, ht, rfl⟩ | hs
      · exact ⟨0, [], n, rfl, rfl, rfl⟩
      · obtain ⟨j, p, c, hp, hc, hnode⟩ := ihchildren ht
        refine ⟨0, t.1, n, rfl, rfl, ?_⟩
        rw [hp, Nat.zero_add]
        exact descend_cons_eq_some.mpr ⟨c, hc, hnode⟩
      · obtain ⟨j, p, c, hp, hc, hnode⟩ := ih hs
        refine ⟨j + 1, p, c, ?_, hc, hnode⟩
        rw [hp, Nat.add_right_comm, Nat.add_assoc]

theorem mem_forestSpots {ns : List Node} : ∀ (i : Nat) (parent : Node) {j : Nat} {n m : Node}
    {p : Position}, ns[j]? = some n → n.at? p = some m →
      ∃ parent', ((i + j) :: p, ⟨m, some parent'⟩) ∈ forestSpots i parent ns := by
  induction ns using forest_induction with
  | nil =>
      intro i parent j n m p hn
      simp at hn
  | cons k ns ihchildren ih =>
      intro i parent j n m p hn hm
      rw [forestSpots_cons, List.cons_append]
      simp only [List.mem_cons, List.mem_append, List.mem_map]
      cases j with
      | zero =>
          obtain rfl : k = n := Option.some.inj hn
          cases p with
          | nil =>
              obtain rfl : k = m := Option.some.inj hm
              exact ⟨parent, Or.inl rfl⟩
          | cons l p =>
              obtain ⟨c, hc, hcm⟩ := descend_cons_eq_some.mp hm
              obtain ⟨parent', hmem⟩ := ihchildren 0 k hc hcm
              exact ⟨parent', Or.inr (Or.inl ⟨_, hmem, by simp⟩)⟩
      | succ j =>
          obtain ⟨parent', hmem⟩ := ih (i + 1) parent hn hm
          refine ⟨parent', Or.inr (Or.inr ?_)⟩
          rwa [Nat.add_right_comm, Nat.add_assoc] at hmem

theorem at?_of_mem_spots {root : Node} {parent : Option Node} {s : Position × Visit}
    (h : s ∈ root.spots parent) : root.at? s.1 = some s.2.node := by
  rw [spots_eq] at h
  rcases List.mem_cons.mp h with rfl | h
  · rfl
  · obtain ⟨j, p, c, hp, hc, hnode⟩ := at?_of_mem_forestSpots h
    rw [hp, Nat.zero_add]
    exact descend_cons_eq_some.mpr ⟨c, hc, hnode⟩

/-- **What stands where.** A walk comes by a node at a position just if the node stands there. The
root has no parent, and every other node has one. -/
theorem mem_spots_iff {root m : Node} {p : Position} :
    root.at? p = some m ↔
      ∃ parent, (p, ⟨m, parent⟩) ∈ root.spots none ∧ (parent = none ↔ p = []) := by
  constructor
  · intro h
    rw [spots_eq]
    cases p with
    | nil =>
        obtain rfl : root = m := Option.some.inj h
        exact ⟨none, List.mem_cons_self, by simp⟩
    | cons i p =>
        obtain ⟨c, hc, hm⟩ := descend_cons_eq_some.mp h
        obtain ⟨parent, hmem⟩ := mem_forestSpots 0 root hc hm
        rw [Nat.zero_add] at hmem
        exact ⟨some parent, List.mem_cons_of_mem _ hmem, by simp⟩
  · rintro ⟨parent, hmem, -⟩
    exact at?_of_mem_spots hmem

/-- What holds wherever a walk comes by holds at all positions. -/
theorem forall_at? {P : Node → Prop} {root : Node} (h : ∀ v ∈ root.walk, P v.node) {p : Position}
    {m : Node} (hm : root.at? p = some m) : P m := by
  obtain ⟨parent, hmem, -⟩ := mem_spots_iff.mp hm
  rw [← map_snd_spots] at h
  exact h _ (List.mem_map_of_mem hmem)

end Node

end Limn
