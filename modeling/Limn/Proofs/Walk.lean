import Limn.Tree
import Mathlib.Data.List.Forall2

/-! # The walk is the pre-order of the tree

`Node.preorder` lists a tree by recursion on it; `Node.walk` takes visits off a work list under a
bound. The work list stands for the concatenation of the pre-orders of what is pending
(`visits_eq`), so the walk of a tree is its pre-order (`walk_eq_preorder`). Trees whose nodes are
related one by one have walks that are related one by one (`walk_related`).
-/

namespace Limn.Node

mutual

/-- A node with its parent, then its children in order. -/
def preorder (parent : Option Node) : Node → List Visit
  | ⟨type, span, named, field, content, children⟩ =>
    ⟨⟨type, span, named, field, content, children⟩, parent⟩ ::
      forestOrder ⟨type, span, named, field, content, children⟩ children

/-- The trees of a row one after the other, under one parent. -/
def forestOrder (parent : Node) : List Node → List Visit
  | [] => []
  | n :: rest => preorder (some parent) n ++ forestOrder parent rest

end

theorem preorder_eq (parent : Option Node) (n : Node) :
    n.preorder parent = ⟨n, parent⟩ :: forestOrder n n.children := by
  cases n
  rw [preorder]

theorem size_eq (n : Node) : n.size = forestSize n.children + 1 := by
  cases n
  rw [size]

mutual

theorem children_induction {motive : List Node → Prop} (nil : motive [])
    (cons : ∀ n ns, motive n.children → motive ns → motive (n :: ns)) :
    ∀ n : Node, motive n.children
  | ⟨_, _, _, _, _, children⟩ => forest_induction nil cons children

/-- **Induction over rows of trees**: over the children of the first and over the others. -/
@[elab_as_elim]
theorem forest_induction {motive : List Node → Prop} (nil : motive [])
    (cons : ∀ n ns, motive n.children → motive ns → motive (n :: ns)) :
    ∀ ns : List Node, motive ns
  | [] => nil
  | n :: ns => cons n ns (children_induction nil cons n) (forest_induction nil cons ns)

end

theorem forestOrder_eq_flatMap (parent : Node) : ∀ ns : List Node,
    forestOrder parent ns =
      (ns.map (Visit.mk · (some parent))).flatMap fun v => v.node.preorder v.parent
  | [] => by simp [forestOrder]
  | n :: rest => by
      rw [forestOrder, forestOrder_eq_flatMap parent rest]
      simp

theorem forestSize_append : ∀ ns ms : List Node,
    forestSize (ns ++ ms) = forestSize ns + forestSize ms
  | [], ms => by simp [forestSize]
  | n :: rest, ms => by
      rw [List.cons_append, forestSize, forestSize, forestSize_append rest ms]
      omega

/-- **What a work list stands for.** With a bound of at least the nodes that are pending, taking
visits off the list gives the pre-orders of what is pending, one after the other. -/
theorem visits_eq : ∀ (bound : Nat) (pending : List Visit),
    forestSize (pending.map (·.node)) ≤ bound →
      visits bound pending = pending.flatMap fun v => v.node.preorder v.parent
  | 0, [], _ => by simp [visits]
  | 0, v :: rest, h => by
      simp only [List.map_cons, forestSize, size_eq] at h
      omega
  | bound + 1, [], _ => by simp [visits]
  | bound + 1, v :: rest, h => by
      rw [visits, visits_eq bound]
      · rw [List.flatMap_append, ← forestOrder_eq_flatMap, List.flatMap_cons, preorder_eq,
          List.cons_append]
      · -- the visit is traded for those of its children
        simp only [List.map_cons, forestSize, size_eq] at h
        rw [List.map_append, forestSize_append, List.map_map]
        have hchildren : v.node.children.map (Visit.node ∘ (Visit.mk · (some v.node))) =
            v.node.children := by
          simp [Function.comp_def]
        rw [hchildren]
        omega

theorem forall_forestOrder_cons {p : Visit → Prop} {parent n : Node} {ns : List Node} :
    (∀ v ∈ forestOrder parent (n :: ns), p v) ↔
      p ⟨n, some parent⟩ ∧ (∀ v ∈ forestOrder n n.children, p v) ∧
        ∀ v ∈ forestOrder parent ns, p v := by
  rw [forestOrder, preorder_eq]
  simp only [List.forall_mem_append, List.forall_mem_cons, and_assoc]

theorem walk_eq_preorder (root : Node) : root.walk = root.preorder none := by
  rw [walk, visits_eq]
  · simp
  · simp [forestSize]

theorem forall_walk {p : Visit → Prop} {root : Node} :
    (∀ v ∈ root.walk, p v) ↔ p ⟨root, none⟩ ∧ ∀ v ∈ forestOrder root root.children, p v := by
  rw [walk_eq_preorder, preorder_eq, List.forall_mem_cons]

theorem mem_forestOrder_cons {v : Visit} {parent n : Node} {ns : List Node} :
    v ∈ forestOrder parent (n :: ns) ↔
      v = ⟨n, some parent⟩ ∨ v ∈ forestOrder n n.children ∨ v ∈ forestOrder parent ns := by
  rw [forestOrder, preorder_eq, List.cons_append, List.mem_cons, List.mem_append]

theorem mem_forestOrder_of_mem {parent c : Node} : ∀ {ns : List Node}, c ∈ ns →
    ⟨c, some parent⟩ ∈ forestOrder parent ns := by
  intro ns hc
  induction ns with
  | nil => simp at hc
  | cons n ns ih =>
      rw [mem_forestOrder_cons]
      rcases List.mem_cons.mp hc with rfl | hc
      · exact Or.inl rfl
      · exact Or.inr (Or.inr (ih hc))

theorem mem_forestOrder_child {v : Visit} {c : Node} (hc : c ∈ v.node.children) :
    ∀ (ns : List Node) {parent : Node}, v ∈ forestOrder parent ns →
      ⟨c, some v.node⟩ ∈ forestOrder parent ns := by
  intro ns
  induction ns using forest_induction with
  | nil =>
      intro parent hv
      simp [forestOrder] at hv
  | cons n ns ihchildren ih =>
      intro parent hv
      rw [mem_forestOrder_cons] at hv ⊢
      rcases hv with rfl | hv | hv
      · exact Or.inr (Or.inl (mem_forestOrder_of_mem hc))
      · exact Or.inr (Or.inl (ihchildren hv))
      · exact Or.inr (Or.inr (ih hv))

/-- The children of a visited node are visited. -/
theorem mem_walk_child {root c : Node} {v : Visit} (hv : v ∈ root.walk)
    (hc : c ∈ v.node.children) : ⟨c, some v.node⟩ ∈ root.walk := by
  rw [walk_eq_preorder, preorder_eq, List.mem_cons] at hv ⊢
  rcases hv with rfl | hv
  · exact Or.inr (mem_forestOrder_of_mem hc)
  · exact Or.inr (mem_forestOrder_child hc _ hv)

/-! ## Walks of related trees -/

/-- The nodes of two visits are related, and so are their parents. -/
def Visit.Related (Q : Node → Node → Prop) (v w : Visit) : Prop :=
  Q v.node w.node ∧ Option.Rel Q v.parent w.parent

section Related

variable {Q : Node → Node → Prop} {g : Node → Node}

theorem forestOrder_related (hchildren : ∀ n, (g n).children = n.children.map g)
    (hnode : ∀ n, Q n (g n)) : ∀ (ns : List Node) {p q : Node}, Q p q →
      List.Forall₂ (Visit.Related Q) (forestOrder p ns) (forestOrder q (ns.map g)) := by
  intro ns
  induction ns using forest_induction with
  | nil =>
      intro p q _
      simp [forestOrder]
  | cons n ns ihchildren ih =>
      intro p q hpq
      rw [List.map_cons, forestOrder, forestOrder, preorder_eq, preorder_eq, hchildren]
      apply List.rel_append
      · exact .cons ⟨hnode n, .some hpq⟩ (ihchildren (hnode n))
      · exact ih hpq

/-- A root that is mapped in another way than the nodes below it, as long as its children are. -/
theorem walk_related (hchildren : ∀ n, (g n).children = n.children.map g)
    (hnode : ∀ n, Q n (g n)) {root root' : Node} (hroot : Q root root')
    (hroots : root'.children = root.children.map g) :
    List.Forall₂ (Visit.Related Q) root.walk root'.walk := by
  rw [walk_eq_preorder, walk_eq_preorder, preorder_eq, preorder_eq, hroots]
  exact .cons ⟨hroot, .none⟩ (forestOrder_related hchildren hnode _ hroot)

theorem fieldChild?_of_map (hfield : ∀ n, (g n).field = n.field) {n m : Node}
    (hchildren : m.children = n.children.map g) (name : String) :
    m.fieldChild? name = (n.fieldChild? name).map g := by
  have hcomp : (fun c : Node => c.inField name) ∘ g = fun c => c.inField name := by
    funext c
    simp only [Function.comp_apply, inField, hfield]
  rw [fieldChild?, fieldChild?, hchildren, List.find?_map, hcomp]

end Related

end Limn.Node
