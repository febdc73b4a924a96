import Limn.Proofs.Except
import Limn.Proofs.Position
import Limn.Snapshot
import Mathlib.Tactic

/-! # Steps of reading a node

What each step of reading wants of a value, and what it then gives: what stands under a key
(`required_eq_ok_iff`), an offset (`offset_eq_ok_iff`), the type and the span (`header_eq_ok_iff`),
a row of children (`exists_childItems?_iff`). `nodeAt_eq` puts the steps together, and
`value_induction` is induction over values by their children.
-/

namespace Limn

theorem Value.worded_error_iff (v : Value) (e : Error) :
    v.worded = .error e ↔ v.isWritable = false ∧ e = .unwritableNumber := by
  unfold worded
  cases v.isWritable with
  | true => simp
  | false => simp [eq_comm]

namespace Snapshot

/-! ## Parts of a value -/

/-- The number under a key, where an offset is due. -/
def HasOffset (v : Value) (key : String) (i : Int) : Prop :=
  ∃ w, v.get? key = some w ∧ w.integer = .integer i

theorem HasOffset.unique {v : Value} {key : String} {i j : Int} (hi : HasOffset v key i)
    (hj : HasOffset v key j) : i = j := by
  obtain ⟨w, hw, hi⟩ := hi
  obtain ⟨w', hw', hj⟩ := hj
  obtain rfl := Option.some.inj (hw.symm.trans hw')
  exact IntegerReading.integer.inj (hi.symm.trans hj)

/-- A type and a span that is not crossed. -/
structure HasHeader (v type : Value) (span : Span) : Prop where
  type : v.get? "type" = some type
  start : HasOffset v "start" span.start
  stop : HasOffset v "end" span.stop
  ordered : span.start ≤ span.stop

section Steps

variable {path key : String} {entries : List (Value × Value)} {v w type : Value} {span : Span}
  {i : Int}

theorem required_eq_ok_iff :
    required path entries key = .ok w ↔ (Value.map entries).get? key = some w := by
  unfold required
  show _ ↔ Entries.get? (.text key) entries = some w
  cases Entries.get? (.text key) entries <;> simp

theorem offset_eq_ok_iff :
    offset path entries key = .ok i ↔ HasOffset (.map entries) key i := by
  constructor
  · intro h
    obtain ⟨w, hw, h⟩ := bind_eq_ok h
    refine ⟨w, required_eq_ok_iff.mp hw, ?_⟩
    split at h
    · rename_i hinteger
      rw [hinteger, Except.ok.inj h]
    · contradiction
    · contradiction
  · rintro ⟨w, hw, hinteger⟩
    rw [offset, required_eq_ok_iff.mpr hw]
    simp only [bind, Except.bind, hinteger]

theorem header_eq_ok_iff : header path v = .ok (type, span) ↔ HasHeader v type span := by
  constructor
  · intro h
    cases v with
    | map entries =>
        obtain ⟨type', htype, h⟩ := bind_eq_ok h
        obtain ⟨start, hstart, h⟩ := bind_eq_ok h
        obtain ⟨stop, hstop, h⟩ := bind_eq_ok h
        split at h
        · contradiction
        · rename_i hordered
          obtain ⟨rfl, rfl⟩ := Prod.mk.inj (Except.ok.inj h)
          exact ⟨required_eq_ok_iff.mp htype, offset_eq_ok_iff.mp hstart,
            offset_eq_ok_iff.mp hstop, not_lt.mp hordered⟩
    | _ => contradiction
  · rintro ⟨htype, hstart, hstop, hordered⟩
    cases v with
    | map entries =>
        rw [header, required_eq_ok_iff.mpr htype, offset_eq_ok_iff.mpr hstart,
          offset_eq_ok_iff.mpr hstop]
        show (if span.stop < span.start then _ else _) = _
        rw [if_neg (not_lt.mpr hordered)]
    | _ => contradiction

/-- There is a row of children unless something is set in its place that is no list. -/
theorem exists_childItems?_iff : (∃ items, childItems? v = some items) ↔
    ∀ c, v.get? "children" = some c → c.isSet = true → ∃ items, c = .list items := by
  unfold childItems?
  cases v.get? "children" with
  | none => simp
  | some c =>
      cases hset : c.isSet with
      | false => simp [hset]
      | true => cases c <;> simp [hset]

end Steps

/-! ## A node and its children -/

/-- The children of a node are read as a row, whether or not there are any. -/
theorem nodeAt_eq (source : Option Bytes) (path : String) (v : Value) :
    nodeAt source path v = (do
      let (type, span) ← header path v
      match childItems? v with
      | none => .error (fault path .childrenNotList)
      | some items =>
        let children ← nodesAt source path 0 items
        assemble source v type span children) := by
  rw [nodeAt]
  refine bind_congr fun ⟨type, span⟩ => ?_
  dsimp only
  split
  · rename_i hnone
    rw [hnone]
  · rename_i hnil
    rw [hnil]
    dsimp only
    rw [nodesAt]
    rfl
  · rename_i hcons
    rw [hcons]

/-- The document is worded with halves of surrogate pairs, which have no octets. -/
def IsHalved (source : Option Source) : Prop :=
  ∃ h, source = some (.text (.halved h))

theorem bytes?_of_isHalved {source : Option Source} (h : IsHalved source) :
    Source.bytes? source = .error .unencodableText := by
  obtain ⟨h, rfl⟩ := h
  rfl

theorem exists_bytes? : ∀ {source : Option Source}, ¬IsHalved source →
    ∃ bytes, Source.bytes? source = .ok bytes
  | none, _ => ⟨none, rfl⟩
  | some (.octets bytes), _ => ⟨some bytes, rfl⟩
  | some (.text (.text s)), _ => ⟨some (.ofText s), rfl⟩
  | some (.text (.halved k)), h => absurd ⟨k, rfl⟩ h

/-- A tree is read over a document that has octets. -/
theorem node_eq_ok_iff {source : Option Source} {v : Value} {n : Node} : node source v = .ok n ↔
    ∃ bytes, Source.bytes? source = .ok bytes ∧ nodeAt bytes "$" v = .ok n := by
  constructor
  · exact bind_eq_ok
  · rintro ⟨bytes, hbytes, h⟩
    rw [node, hbytes]
    exact h

/-- The children that a value has; where they cannot be read, there are none. -/
def itemsOf (v : Value) : List Value :=
  (childItems? v).getD []

theorem itemsOf_eq {v : Value} {items : List Value} (h : childItems? v = some items) :
    itemsOf v = items := by
  rw [itemsOf, h, Option.getD_some]

theorem sizeOf_lt_of_mem {v item : Value} (h : item ∈ itemsOf v) : sizeOf item < sizeOf v := by
  unfold itemsOf at h
  cases hitems : childItems? v with
  | none =>
      rw [hitems] at h
      exact absurd h List.not_mem_nil
  | some items =>
      rw [hitems] at h
      have hlt := List.sizeOf_lt_of_mem h
      obtain rfl | hle := sizeOf_childItems? hitems
      · exact absurd h List.not_mem_nil
      · simp only [Option.getD_some] at hlt
        omega

/-- **Induction over values** by their children. -/
@[elab_as_elim]
theorem value_induction {motive : Value → Prop}
    (step : ∀ v, (∀ item ∈ itemsOf v, motive item) → motive v) (v : Value) : motive v :=
  step v fun item hitem =>
    have := sizeOf_lt_of_mem hitem
    value_induction step item
termination_by sizeOf v

/-- The value at a position of a tree. -/
def at? (v : Value) (p : Position) : Option Value :=
  descend itemsOf v p

/-- All values in a tree are of a kind. -/
def Everywhere (P : Value → Prop) (v : Value) : Prop :=
  ∀ p w, at? v p = some w → P w

theorem everywhere_iff {P : Value → Prop} {v : Value} :
    Everywhere P v ↔ P v ∧ ∀ item ∈ itemsOf v, Everywhere P item := by
  constructor
  · intro h
    refine ⟨h [] v rfl, ?_⟩
    intro item hitem p w hw
    obtain ⟨i, hi⟩ := List.mem_iff_getElem?.mp hitem
    exact h (i :: p) w (descend_cons_eq_some.mpr ⟨item, hi, hw⟩)
  · rintro ⟨hv, hitems⟩ p w hw
    cases p with
    | nil =>
        obtain rfl : v = w := Option.some.inj hw
        exact hv
    | cons i p =>
        obtain ⟨item, hi, hitem⟩ := descend_cons_eq_some.mp hw
        exact hitems item (List.mem_of_getElem? hi) p w hitem

end Snapshot

end Limn
