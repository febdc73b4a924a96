import Limn.Proofs.Yaml.Compose
import Limn.Yaml.Reader

/-! # Visiting nodes

Nodes with numbers of their own are each visited once, and every scalar ends up with its value
(`examine_sound`). Level by level, what is still to be looked into are the collections of the level,
and what has been met are all nodes above (`levels_met`).
-/

namespace Limn.Yaml

/-! ## Levels of nodes -/

/-- What stands directly in a node. -/
def Node.children : Node → List Node
  | .scalar .. => []
  | .sequence _ _ items => items
  | .mapping _ _ entries => entries.flatMap fun (k, v) => [k, v]

/-- The nodes so many levels below. -/
def level : Nat → List Node → List Node
  | 0, ns => ns
  | h + 1, ns => level h (ns.flatMap Node.children)

/-- The nodes of the first levels, from the outside in. -/
def reach : Nat → List Node → List Node
  | 0, _ => []
  | h + 1, ns => ns ++ reach h (ns.flatMap Node.children)

theorem level_nil (h : Nat) : level h [] = [] := by
  induction h with
  | zero => rfl
  | succ h ih => exact ih

theorem reach_nil (h : Nat) : reach h [] = [] := by
  induction h with
  | zero => rfl
  | succ h ih => exact ih

theorem level_append (h : Nat) (ns ms : List Node) :
    level h (ns ++ ms) = level h ns ++ level h ms := by
  induction h generalizing ns ms with
  | zero => rfl
  | succ h ih =>
      rw [level, List.flatMap_append, ih]
      rfl

theorem reach_eq_append {h : Nat} {ns : List Node} (hends : level h ns = []) :
    ∃ rest, reach h ns = ns ++ rest := by
  cases h with
  | zero => exact ⟨[], by simp [reach, show ns = [] from hends]⟩
  | succ h => exact ⟨_, rfl⟩

theorem mem_reach_of_ends {i h : Nat} {ns : List Node} {m : Node} (hends : level h ns = [])
    (hm : m ∈ reach i ns) : m ∈ reach h ns := by
  induction h generalizing i ns with
  | zero => simp [show ns = [] from hends, reach_nil] at hm
  | succ h ih =>
      cases i with
      | zero => simp [reach] at hm
      | succ i =>
          rw [reach, List.mem_append] at hm ⊢
          exact hm.imp_right (ih hends)

theorem reach_append_perm (h : Nat) (ns ms : List Node) :
    (reach h (ns ++ ms)).Perm (reach h ns ++ reach h ms) := by
  induction h generalizing ns ms with
  | zero => rfl
  | succ h ih =>
      simp only [reach, List.flatMap_append, List.append_assoc]
      refine List.Perm.append_left ns ?_
      refine (List.Perm.append_left ms (ih _ _)).trans ?_
      simp only [← List.append_assoc]
      exact List.Perm.append_right _ List.perm_append_comm

theorem mem_reach_append {h : Nat} {ns ms : List Node} {m : Node} :
    m ∈ reach h (ns ++ ms) ↔ m ∈ reach h ns ∨ m ∈ reach h ms := by
  rw [(reach_append_perm h ns ms).mem_iff, List.mem_append]

/-! ## Sound nodes -/

/-- A collection, which holds other nodes. -/
def Node.isCollection : Node → Bool
  | .scalar .. => false
  | _ => true

/-- What there will be to know of a node. -/
def slotOf (n : Node) : Slot :=
  match n with
  | .scalar _ _ text =>
    match n.kind with
    | .scalar type =>
      match Scalar.value type text with
      | .ok v => .scalar v (Visiting.markOf n text v)
      | .error _ => .met
    | _ => .met
  | _ => .met

/-- A scalar that has a value, or a usual collection, of whose keys none is special. -/
def Sound (n : Node) : Prop :=
  match n with
  | .scalar _ _ text => ∃ type v, n.kind = .scalar type ∧ Scalar.value type text = .ok v
  | .sequence _ tagging _ => tagging = .usual
  | .mapping _ tagging entries => tagging = .usual ∧ ∀ e ∈ entries, e.1.kind = .scalar .text

/-- Sound nodes down to the last level, numbered in a row from a start on. -/
structure Fits (ns : List Node) (start count : Nat) : Prop where
  ends {h} : count ≤ h → level h ns = []
  serials {h} : count ≤ h → ((reach h ns).map Node.serial).Perm (List.range' start count)
  sound {h m} : m ∈ reach h ns → Sound m

namespace Fits

theorem nil (start : Nat) : Fits [] start 0 where
  ends _ := level_nil _
  serials _ := by rw [reach_nil]; exact List.Perm.nil
  sound hm := by simp [reach_nil] at hm

theorem append {ns ms : List Node} {start a b : Nat} (hns : Fits ns start a)
    (hms : Fits ms (start + a) b) : Fits (ns ++ ms) start (a + b) where
  ends hh := by rw [level_append, hns.ends (by omega), hms.ends (by omega)]; rfl
  serials hh := by
    refine ((reach_append_perm _ ns ms).map _).trans ?_
    rw [List.map_append, ← List.range'_append_1]
    exact (hns.serials (by omega)).append (hms.serials (by omega))
  sound hm := (mem_reach_append.1 hm).elim hns.sound hms.sound

/-- A node comes before what stands in it. -/
theorem node {n : Node} {start count : Nat} (hserial : n.serial = start) (hn : Sound n)
    (h : Fits n.children (start + 1) count) : Fits [n] start (count + 1) where
  ends {i} hi := by
    obtain ⟨i, rfl⟩ : ∃ j, i = j + 1 := ⟨i - 1, by omega⟩
    simpa [level] using h.ends (Nat.le_of_succ_le_succ hi)
  serials {i} hi := by
    obtain ⟨i, rfl⟩ : ∃ j, i = j + 1 := ⟨i - 1, by omega⟩
    rw [List.range'_succ]
    simpa [reach, hserial] using h.serials (Nat.le_of_succ_le_succ hi)
  sound {i m} hm := by
    cases i with
    | zero => simp [reach] at hm
    | succ i =>
        simp only [reach, List.mem_append, List.mem_singleton, List.flatMap_cons,
          List.flatMap_nil, List.append_nil] at hm
        rcases hm with rfl | hm
        · exact hn
        · exact h.sound hm

end Fits

/-! ## Noting -/

/-- Slots after nodes have been met. -/
def noteAll (slots : Array Slot) (ns : List Node) : Array Slot :=
  ns.foldl (fun slots n => slots.setIfInBounds n.serial (slotOf n)) slots

theorem noteAll_append (slots : Array Slot) (ns ms : List Node) :
    noteAll slots (ns ++ ms) = noteAll (noteAll slots ns) ms := by
  simp [noteAll]

theorem noteAll_singleton (slots : Array Slot) (n : Node) :
    noteAll slots [n] = slots.setIfInBounds n.serial (slotOf n) :=
  rfl

theorem getD_setIfInBounds_ne {slots : Array Slot} {i j : Nat} {slot : Slot} (h : i ≠ j) :
    (slots.setIfInBounds i slot).getD j .untouched = slots.getD j .untouched := by
  rw [Array.getD_eq_getD_getElem?, Array.getElem?_setIfInBounds_ne h,
    ← Array.getD_eq_getD_getElem?]

theorem getD_noteAll_ne {slots : Array Slot} {i : Nat} {ns : List Node}
    (h : i ∉ ns.map Node.serial) :
    (noteAll slots ns).getD i .untouched = slots.getD i .untouched := by
  induction ns generalizing slots with
  | nil => rfl
  | cons n ns ih =>
      rw [List.map_cons, List.mem_cons, not_or] at h
      exact (ih h.2).trans (getD_setIfInBounds_ne (Ne.symm h.1))

theorem getD_noteAll {slots : Array Slot} {ns : List Node} (hnodup : (ns.map Node.serial).Nodup)
    {n : Node} (hn : n ∈ ns) (hlt : n.serial < slots.size) :
    (noteAll slots ns).getD n.serial .untouched = slotOf n := by
  induction ns generalizing slots with
  | nil => simp at hn
  | cons m ns ih =>
      rw [List.map_cons, List.nodup_cons] at hnodup
      rcases List.mem_cons.1 hn with rfl | hn
      · refine (getD_noteAll_ne hnodup.1).trans ?_
        rw [Array.getD_eq_getD_getElem?, Array.getElem?_setIfInBounds_self_of_lt hlt]
        rfl
      · exact ih hnodup.2 hn (by simpa using hlt)

/-- Nodes with numbers of their own that nothing is known of. -/
structure Fresh (slots : Array Slot) (ns : List Node) : Prop where
  nodup : (ns.map Node.serial).Nodup
  untouched {n} : n ∈ ns → slots.getD n.serial .untouched = .untouched

namespace Fresh

variable {slots : Array Slot} {ns ms : List Node}

theorem left (h : Fresh slots (ns ++ ms)) : Fresh slots ns where
  nodup := by
    have := h.nodup
    rw [List.map_append] at this
    exact (List.nodup_append.1 this).1
  untouched hn := h.untouched (List.mem_append_left _ hn)

/-- Meeting some nodes leaves the others untouched. -/
theorem right (h : Fresh slots (ns ++ ms)) : Fresh (noteAll slots ns) ms := by
  have hnodup := h.nodup
  rw [List.map_append] at hnodup
  obtain ⟨-, hms, hdisjoint⟩ := List.nodup_append.1 hnodup
  refine ⟨hms, fun {n} hn => ?_⟩
  have hnew : n.serial ∉ ns.map Node.serial :=
    fun hold => hdisjoint _ hold _ (List.mem_map_of_mem hn) rfl
  rw [getD_noteAll_ne hnew]
  exact h.untouched (List.mem_append_right _ hn)

end Fresh

/-! ## Meeting -/

/-- Without merge keys, the entries stand as they are. -/
theorem merged_eq (bound : Nat) {entries : List (Node × Node)}
    (h : ∀ e ∈ entries, e.1.kind = .scalar .text) : merged (bound + 1) entries = .ok entries := by
  have hmerge : ∀ e ∈ entries, e.1.isMerge = false := by
    intro e he
    simp [Node.isMerge, h e he]
  have hown : (entries.filter fun (k, _) => !k.isMerge) = entries :=
    List.filter_eq_self.2 fun e he => by simp [hmerge e he]
  have hothers : (entries.filter fun (k, _) => k.isMerge) = [] :=
    List.filter_eq_nil_iff.2 fun e he => by simp [hmerge e he]
  simp [merged, hown, hothers, bind, Except.bind, pure, Except.pure]

namespace Visiting

/-- The state after the nodes of one level have been met. -/
def met (slots : Array Slot) (ns : List Node) : Visiting :=
  { slots := noteAll slots ns, pending := (ns.filter Node.isCollection).reverse }

theorem kind_met (slots : Array Slot) (ns : List Node) (n : Node) :
    (met slots ns).kind n = n.kind := by
  simp [kind, met]

theorem scalar_eq (s : Visiting) (bound : Nat) {serial : Nat} {tagging : Tagging} {text : Wording}
    {type : ScalarType} {v : Value} (hkind : (Node.scalar serial tagging text).kind = .scalar type)
    (hvalue : Scalar.value type text = .ok v) :
    s.scalar (bound + 1) type (.scalar serial tagging text) =
      .ok (slotOf (.scalar serial tagging text)) := by
  simp only [slotOf, hkind, hvalue]
  cases type <;> simp [scalar, scalarText, hvalue, bind, Except.bind]

theorem met_concat {slots : Array Slot} {ns : List Node} {n : Node} :
    met slots (ns ++ [n]) = { (met slots ns).note n (slotOf n) with
      pending :=
        if n.isCollection then n :: (met slots ns).pending else (met slots ns).pending } := by
  simp only [met, note, noteAll_append, noteAll_singleton, List.filter_append, List.reverse_append]
  cases n <;> rfl

/-- **Meeting a node** notes what there is to know of it. -/
theorem meet_met {slots : Array Slot} {ns : List Node} {n : Node} (bound : Nat)
    (hfresh : Fresh slots (ns ++ [n])) (hn : Sound n) :
    (met slots ns).meet (bound + 1) n = .ok (met slots (ns ++ [n])) := by
  have hslot : (met slots ns).slot n = .untouched := hfresh.right.untouched (by simp)
  rw [meet, hslot, met_concat]
  simp only [kind_met]
  cases n with
  | scalar serial tagging text =>
      obtain ⟨type, v, hkind, hvalue⟩ := hn
      rw [hkind]
      simp only [scalar_eq _ bound hkind hvalue]
      rfl
  | sequence serial tagging items =>
      cases hn
      rfl
  | mapping serial tagging entries =>
      cases hn.1
      rfl

theorem meets_met {slots : Array Slot} {ns ms : List Node} (bound : Nat)
    (hfresh : Fresh slots (ns ++ ms)) (hms : ∀ n ∈ ms, Sound n) :
    ms.foldlM (fun s n => s.meet (bound + 1) n) (met slots ns) = .ok (met slots (ns ++ ms)) := by
  induction ms generalizing ns with
  | nil => simp [pure, Except.pure]
  | cons m ms ih =>
      have happend : ns ++ m :: ms = ns ++ [m] ++ ms := by simp
      rw [happend] at hfresh ⊢
      rw [List.foldlM_cons, meet_met bound hfresh.left (hms m (by simp))]
      exact ih hfresh fun n hn => hms n (by simp [hn])

/-! ## Looking into collections -/

theorem meetEntry_met {slots : Array Slot} {ns : List Node} {k v : Node} (bound : Nat)
    (hfresh : Fresh slots (ns ++ [k] ++ [v])) (hkey : k.kind = .scalar .text) (hk : Sound k)
    (hv : Sound v) :
    meetEntry (bound + 1) (met slots ns) (k, v) = .ok (met slots (ns ++ [k] ++ [v])) := by
  rw [meetEntry, meet_met bound hfresh.left hk]
  simp only [bind, Except.bind, kind_met, hkey, Kind.isKey, if_true]
  exact meet_met bound hfresh hv

theorem meetEntries_met {slots : Array Slot} {ns : List Node} {entries : List (Node × Node)}
    (bound : Nat) (hfresh : Fresh slots (ns ++ entries.flatMap fun (k, v) => [k, v]))
    (hkeys : ∀ e ∈ entries, e.1.kind = .scalar .text)
    (hsound : ∀ n ∈ entries.flatMap fun (k, v) => [k, v], Sound n) :
    entries.foldlM (meetEntry (bound + 1)) (met slots ns) =
      .ok (met slots (ns ++ entries.flatMap fun (k, v) => [k, v])) := by
  induction entries generalizing ns with
  | nil => simp [pure, Except.pure]
  | cons e entries ih =>
      obtain ⟨k, v⟩ := e
      have happend : ns ++ ((k, v) :: entries).flatMap (fun (k, v) => [k, v]) =
          ns ++ [k] ++ [v] ++ entries.flatMap fun (k, v) => [k, v] := by simp
      rw [happend] at hfresh ⊢
      rw [List.foldlM_cons, meetEntry_met bound hfresh.left (hkeys (k, v) (by simp))
        (hsound k (by simp)) (hsound v (by simp))]
      refine ih hfresh (fun e he => hkeys e (by simp [he])) fun n hn => hsound n ?_
      rw [List.flatMap_cons]
      exact List.mem_append_right _ hn

/-- **Looking into a collection** meets what stands in it. -/
theorem enter_met {slots : Array Slot} {ns : List Node} {n : Node} (bound : Nat)
    (hcollection : n.isCollection = true) (hn : Sound n) (hfresh : Fresh slots (ns ++ n.children))
    (hchildren : ∀ m ∈ n.children, Sound m) :
    enter (bound + 1) (met slots ns) n = .ok (met slots (ns ++ n.children)) := by
  cases n with
  | scalar serial tagging text => exact absurd hcollection (by simp [Node.isCollection])
  | sequence serial tagging items =>
      cases hn
      simp only [enter, kind_met, Node.kind]
      exact meets_met bound hfresh hchildren
  | mapping serial tagging entries =>
      obtain ⟨rfl, hkeys⟩ := hn
      simp only [enter, kind_met, Node.kind, enter.fill]
      have hdefaults : (entries.filter fun (k, _) => k.isDefault) = [] :=
        List.filter_eq_nil_iff.2 fun e he => by simp [Node.isDefault, hkeys e he]
      rw [merged_eq bound hkeys]
      simp only [bind, Except.bind, hdefaults, List.map_nil, List.nil_append]
      exact meetEntries_met bound hfresh hkeys hchildren

theorem enters_met {slots : Array Slot} {ns ms : List Node} (bound : Nat)
    (hcollections : ∀ m ∈ ms, m.isCollection = true) (hms : ∀ m ∈ ms, Sound m)
    (hfresh : Fresh slots (ns ++ ms.flatMap Node.children))
    (hsound : ∀ m ∈ ms.flatMap Node.children, Sound m) :
    ms.foldlM (enter (bound + 1)) (met slots ns) =
      .ok (met slots (ns ++ ms.flatMap Node.children)) := by
  induction ms generalizing ns with
  | nil => simp [pure, Except.pure]
  | cons m ms ih =>
      rw [List.flatMap_cons, ← List.append_assoc] at hfresh ⊢
      rw [List.flatMap_cons] at hsound
      rw [List.foldlM_cons, enter_met bound (hcollections m (by simp)) (hms m (by simp)) hfresh.left
        fun n hn => hsound n (List.mem_append_left _ hn)]
      exact ih (fun n hn => hcollections n (by simp [hn])) (fun n hn => hms n (by simp [hn])) hfresh
        fun n hn => hsound n (List.mem_append_right _ hn)

/-! ## Levels -/

theorem flatMap_children_filter (ns : List Node) :
    (ns.filter Node.isCollection).flatMap Node.children = ns.flatMap Node.children := by
  induction ns with
  | nil => rfl
  | cons n ns ih => cases n <;> simp [List.filter_cons, Node.isCollection, Node.children, ih]

/-- **Level by level, all nodes are met.** -/
theorem levels_met {slots : Array Slot} {ns : List Node} {h bound : Nat} (size : Nat)
    (hbound : h < bound) (hends : level h ns = []) (hfresh : Fresh slots (reach h ns))
    (hsound : ∀ n ∈ reach h ns, Sound n) :
    (met slots ns).levels (size + 1) bound = .ok (met (noteAll slots (reach h ns)) []) := by
  -- On the number of levels to come; the slots hold what the levels above have noted.
  induction h generalizing slots ns bound with
  | zero =>
      obtain ⟨bound, rfl⟩ := Nat.exists_eq_add_one.2 hbound
      rw [show ns = [] from hends]
      rfl
  | succ h ih =>
      obtain ⟨bound, rfl⟩ : ∃ b, bound = b + 1 := ⟨bound - 1, by omega⟩
      simp only [reach, level] at hends hfresh hsound ⊢
      have hchildren := flatMap_children_filter ns
      rw [levels, noteAll_append]
      cases hpending : (met slots ns).pending with
      | nil =>
          -- The visit ends before the bound says: scalars have nothing below them.
          have hnone : ns.filter Node.isCollection = [] := List.reverse_eq_nil_iff.1 hpending
          rw [hnone] at hchildren
          rw [← hchildren, List.flatMap_nil, reach_nil]
          simp only [met, hnone]
          rfl
      | cons n pending =>
          have hrow : (n :: pending).reverse = ns.filter Node.isCollection := by
            rw [← hpending]
            exact List.reverse_reverse _
          obtain ⟨rest, hrest⟩ := reach_eq_append hends
          have hnext := hfresh.right
          rw [hrest] at hnext
          have henter := @enters_met (noteAll slots ns) [] (ns.filter Node.isCollection) size
            (fun m hm => (List.mem_filter.1 hm).2)
            (fun m hm => hsound m (List.mem_append_left _ (List.mem_filter.1 hm).1))
            (by rw [hchildren]; exact hnext.left)
            (by
              rw [hchildren]
              intro m hm
              exact hsound m (List.mem_append_right _ (hrest ▸ List.mem_append_left _ hm)))
          rw [hchildren, List.nil_append] at henter
          have hstart : { met slots ns with pending := [] } = met (noteAll slots ns) [] := rfl
          simp only [hrow, hstart, henter, bind, Except.bind]
          exact ih (by omega) hends hfresh.right fun m hm => hsound m (List.mem_append_right _ hm)

end Visiting

/-- **Numbered nodes that are sound are all visited.** -/
theorem examine_sound {root : Node} {count : Nat} (h : Fits [root] 0 count) :
    ∃ s, examine root count = .ok s ∧ s.settled = [] ∧
      ∀ {i m}, m ∈ reach i [root] → s.slot m = slotOf m := by
  have hends := h.ends (Nat.le_refl count)
  have hserials := h.serials (Nat.le_refl count)
  have hnodup := hserials.nodup_iff.2 List.nodup_range'
  have hfresh : Fresh (Array.replicate count .untouched) (reach count [root]) := by
    refine ⟨hnodup, fun {n} _ => ?_⟩
    rw [Array.getD_eq_getD_getElem?, Array.getElem?_replicate]
    split <;> rfl
  obtain ⟨rest, hrest⟩ := reach_eq_append hends
  have hroot : Sound root := h.sound (hrest ▸ List.mem_append_left _ (List.mem_singleton_self root))
  have hmeet := @Visiting.meet_met _ [] root (count + 1) (hrest ▸ hfresh).left hroot
  have hlevels := @Visiting.levels_met _ [root] count (count + 2) (count + 1) (by omega) hends
    hfresh fun n hn => h.sound hn
  refine ⟨.met (noteAll (.replicate count .untouched) (reach count [root])) [], ?_, rfl,
    fun {i m} hm => ?_⟩
  · rw [examine]
    exact (congrArg (· >>= _) hmeet).trans hlevels
  · have hm' := mem_reach_of_ends hends hm
    have hserial := hserials.mem_iff.1 (List.mem_map_of_mem hm')
    refine getD_noteAll hnodup hm' ?_
    rw [Array.size_replicate]
    have := List.mem_range'_1.1 hserial
    omega

end Limn.Yaml
