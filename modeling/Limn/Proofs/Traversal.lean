import Limn.Proofs.Position
import Mathlib.Data.List.Sort
import Mathlib.Logic.Function.Iterate

/-! # The stack behind a walk

A walk can be had from a stack alone: take the top off, and push its children one by one, the last
one first, until nothing is left (`Node.turn`). The invariant speaks of the whole stack. What is yet
to come is the pre-orders of what is pending, from the top down (`Node.toCome`), and a turn takes
just the first visit off that. So the number of turns is the number of pending nodes, however high
the stack grows meanwhile, and the tops are the pre-order.

`Node.walk_in_document_order` says so for a tree, and where in the tree each visit is. A leaf counts
as a node with an empty row of children, so it is pushed and taken like any other.
-/

namespace Limn.Node

/-! ## Turns -/

/-- One turn of a loop over a stack, the top of which comes first. -/
def turn : List Visit → List Visit
  | [] => []
  | v :: pending => v.node.children.reverse.foldl (fun stack c => ⟨c, some v.node⟩ :: stack) pending

/-- What is yet to come, given what is pending. -/
def toCome (pending : List Visit) : List Visit :=
  pending.flatMap fun v => v.node.preorder v.parent

theorem turn_cons (v : Visit) (pending : List Visit) :
    turn (v :: pending) = v.node.children.map (⟨·, some v.node⟩) ++ pending := by
  rw [turn, List.foldl_reverse, List.foldr_cons_eq_append]

/-- **A turn takes one visit off what is to come**, namely the top of the stack. -/
theorem toCome_cons (v : Visit) (pending : List Visit) :
    toCome (v :: pending) = v :: toCome (turn (v :: pending)) := by
  rw [turn_cons, toCome, toCome, List.flatMap_cons, List.flatMap_append, preorder_eq,
    ← forestOrder_eq_flatMap, List.cons_append]

theorem head?_toCome (pending : List Visit) : (toCome pending).head? = pending.head? := by
  cases pending with
  | nil => rfl
  | cons v pending => rw [toCome_cons, List.head?_cons, List.head?_cons]

theorem toCome_eq_nil_iff (pending : List Visit) : toCome pending = [] ↔ pending = [] := by
  rw [← List.head?_eq_none_iff, head?_toCome, List.head?_eq_none_iff]

theorem toCome_turn (pending : List Visit) : toCome (turn pending) = (toCome pending).drop 1 := by
  cases pending with
  | nil => rfl
  | cons v pending => rw [toCome_cons v pending, List.drop_one, List.tail_cons]

/-- So many turns take so many visits off what is to come. -/
theorem toCome_turns (n : Nat) (pending : List Visit) :
    toCome (turn^[n] pending) = (toCome pending).drop n := by
  induction n generalizing pending with
  | zero => rfl
  | succ n ih => rw [Function.iterate_succ_apply, ih, toCome_turn, List.drop_drop, Nat.add_comm]

theorem turns_eq_nil_iff (n : Nat) (pending : List Visit) :
    turn^[n] pending = [] ↔ (toCome pending).length ≤ n := by
  rw [← toCome_eq_nil_iff, toCome_turns, List.drop_eq_nil_iff]

theorem head?_turns (n : Nat) (pending : List Visit) :
    (turn^[n] pending).head? = (toCome pending)[n]? := by
  rw [← head?_toCome, toCome_turns, List.head?_drop]

theorem toCome_root (root : Node) : toCome [⟨root, none⟩] = root.walk := by
  rw [walk_eq_preorder, toCome, List.flatMap_singleton]

mutual

theorem length_preorder (parent : Option Node) : ∀ n : Node, (n.preorder parent).length = n.size
  | ⟨type, span, named, field, content, children⟩ => by
      rw [preorder, size, List.length_cons, length_forestOrder]

theorem length_forestOrder (parent : Node) : ∀ ns : List Node,
    (forestOrder parent ns).length = forestSize ns
  | [] => rfl
  | n :: rest => by
      rw [forestOrder, forestSize, List.length_append, length_preorder, length_forestOrder]

end

/-! ## Parents -/

/-- The node right above a position of a tree, which itself has a parent or none. -/
def parentAt (parent : Option Node) (n : Node) : Position → Option Node
  | [] => parent
  | i :: p => n.at? (i :: p).dropLast

theorem parentAt_cons {n c : Node} {i : Nat} (hc : n.children[i]? = some c)
    (parent : Option Node) (p : Position) :
    n.parentAt parent (i :: p) = c.parentAt (some n) p := by
  cases p with
  | nil => rfl
  | cons j p =>
      rw [parentAt, parentAt, List.dropLast_cons_cons, at?, descend, hc, Option.bind_some]
      rfl

theorem parent_of_mem_forestSpots {ns : List Node} : ∀ {i j : Nat} {parent n : Node} {p : Position}
    {v : Visit}, ((i + j) :: p, v) ∈ forestSpots i parent ns → ns[j]? = some n →
      v.parent = n.parentAt (some parent) p := by
  induction ns using forest_induction with
  | nil =>
      intro i j parent n p v _ hn
      simp at hn
  | cons m ns ihchildren ih =>
      intro i j parent n p v hv hn
      rw [forestSpots_cons, List.cons_append, List.mem_cons, List.mem_append, List.mem_map] at hv
      rcases hv with hv | ⟨⟨q, w⟩, hs, hv⟩ | hv
      · obtain ⟨hp, rfl⟩ := Prod.mk.inj hv
        obtain ⟨-, rfl⟩ := List.cons.inj hp
        rfl
      · obtain ⟨hp, rfl⟩ := Prod.mk.inj hv
        obtain ⟨hj, rfl⟩ := List.cons.inj hp
        obtain rfl : j = 0 := by omega
        obtain rfl : m = n := Option.some.inj hn
        -- further down, the node above is found from the child on the way
        obtain ⟨k, q, c, rfl, hc, -⟩ := at?_of_mem_forestSpots hs
        rw [ihchildren hs hc, Nat.zero_add, parentAt_cons hc]
      · obtain ⟨k, q, hq, hik⟩ := le_head_of_mem_forestSpots hv
        obtain ⟨hk, -⟩ := List.cons.inj hq
        obtain ⟨j, rfl⟩ : ∃ l, j = l + 1 := ⟨j - 1, by omega⟩
        rw [← Nat.add_assoc, Nat.add_right_comm] at hv
        exact ih hv hn

/-- **What stands where, and under what.** -/
theorem mem_spots_iff_parentAt {root : Node} {p : Position} {v : Visit} :
    (p, v) ∈ root.spots none ↔ root.at? p = some v.node ∧ v.parent = root.parentAt none p := by
  have hparent : ∀ {v : Visit}, (p, v) ∈ root.spots none → v.parent = root.parentAt none p := by
    intro v hv
    rw [spots_eq] at hv
    rcases List.mem_cons.mp hv with hv | hv
    · obtain ⟨rfl, rfl⟩ := Prod.mk.inj hv
      rfl
    · obtain ⟨j, q, c, rfl, hc, -⟩ := at?_of_mem_forestSpots hv
      rw [parent_of_mem_forestSpots hv hc, Nat.zero_add, parentAt_cons hc]
  constructor
  · intro hv
    exact ⟨at?_of_mem_spots hv, hparent hv⟩
  · rintro ⟨hnode, habove⟩
    obtain ⟨parent, hmem, -⟩ := mem_spots_iff.mp hnode
    obtain rfl : parent = v.parent := (hparent hmem).trans habove.symm
    exact hmem

/-! ## The order of positions -/

/-- In an increasing row of positions, the lower of two members comes first. -/
theorem pair_sublist {places : List Position} (h : places.Pairwise (· < ·)) {p q : Position}
    (hp : p ∈ places) (hq : q ∈ places) (hlt : p < q) : [p, q].Sublist places := by
  have hpair : [p, q].Pairwise (· < ·) := List.pairwise_pair.mpr hlt
  refine List.sublist_of_subperm_of_pairwise (List.subperm_of_subset hpair.nodup ?_) hpair h
  exact List.cons_subset.mpr ⟨hp, List.cons_subset.mpr ⟨hq, List.nil_subset _⟩⟩

theorem lt_below (q : Position) (i : Nat) : q < q ++ [i] := by
  have hlt : q ++ [] < q ++ [i] := List.Lex.append_left _ (List.nil_lt_cons i []) q
  rwa [List.append_nil] at hlt

theorem lt_later {i j : Nat} (h : i < j) (q p : Position) : q ++ i :: p < q ++ [j] :=
  List.Lex.append_left _ (List.Lex.rel h) q

/-- **A walk is the pre-order of the tree, and a stack finds it.** The stack is empty after as many
turns as the tree has nodes and not before, and its tops are the visits. Each place in the tree is
visited once, under the node right above it, after that node and before every later sibling, as is
all that stands below it. -/
theorem walk_in_document_order (root : Node) :
    root.walk = root.preorder none ∧
    (∀ n, turn^[n] [⟨root, none⟩] = [] ↔ root.size ≤ n) ∧
    (∀ n, (turn^[n] [⟨root, none⟩]).head? = root.walk[n]?) ∧
    ∃ places : List Position,
      places.Nodup ∧ (∀ p, p ∈ places ↔ (root.at? p).isSome = true) ∧
      List.Forall₂ (fun p v => root.at? p = some v.node ∧ v.parent = root.parentAt none p)
        places root.walk ∧
      (∀ q i, q ++ [i] ∈ places → [q, q ++ [i]].Sublist places) ∧
      ∀ q i j p, i < j → q ++ i :: p ∈ places → q ++ [j] ∈ places →
        [q ++ i :: p, q ++ [j]].Sublist places := by
  refine ⟨walk_eq_preorder root, ?_, ?_, (root.spots none).map Prod.fst, ?_⟩
  · intro n
    rw [turns_eq_nil_iff, toCome_root, walk_eq_preorder, length_preorder]
  · intro n
    rw [head?_turns, toCome_root]
  have hincreasing : ((root.spots none).map Prod.fst).Pairwise (· < ·) :=
    List.pairwise_map.mpr (root.spots_increasing none)
  have hmem : ∀ p, p ∈ (root.spots none).map Prod.fst ↔ (root.at? p).isSome = true := by
    intro p
    rw [List.mem_map, Option.isSome_iff_exists]
    constructor
    · rintro ⟨s, hs, rfl⟩
      exact ⟨_, at?_of_mem_spots hs⟩
    · rintro ⟨m, hm⟩
      obtain ⟨parent, hs, -⟩ := mem_spots_iff.mp hm
      exact ⟨_, hs, rfl⟩
  refine ⟨hincreasing.nodup, hmem, ?_, ?_, ?_⟩
  · rw [← map_snd_spots, List.forall₂_map_left_iff, List.forall₂_map_right_iff, List.forall₂_same]
    rintro ⟨p, v⟩ hs
    exact mem_spots_iff_parentAt.mp hs
  · intro q i hi
    refine pair_sublist hincreasing ?_ hi (lt_below q i)
    rw [hmem, at?, descend_append] at hi
    obtain ⟨m, hm⟩ := Option.isSome_iff_exists.mp hi
    obtain ⟨n, hn, -⟩ := Option.bind_eq_some_iff.mp hm
    exact (hmem q).mpr (Option.isSome_iff_exists.mpr ⟨n, hn⟩)
  · intro q i j p hij hi hj
    exact pair_sublist hincreasing hi hj (lt_later hij q p)

end Limn.Node
