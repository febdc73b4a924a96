import Limn.Proofs.Snapshot.Description
import Limn.Proofs.Snapshot.Reading
import Mathlib.Tactic

/-! # The first fault

A value is a tree if every value in it is a record: a mapping with a type and with offsets in order,
and with a list for its children if anything is set there. Otherwise the reader stops at the first
value that is no record, in the order of positions, and its message starts with the path to it.

There is one thing that keeps the reader from it. When it leaves a node it writes the type and the
text down, and a message about crossed offsets names both. A number too long to be written is an
error of its own there, without a path. So the reader stops at the first fault exactly if it can
write all that it has left by then, and the message (`IsClear`). And before it looks at the value at
all, the document has to be encoded.
-/

namespace Limn.Snapshot

/-! ## What a value needs -/

/-- The value describes a node, whatever its children describe. -/
structure IsRecord (v : Value) : Prop where
  header : ∃ type span, HasHeader v type span
  children : ∀ c, v.get? "children" = some c → c.isSet = true → ∃ items, c = .list items

/-- The type and the text can be written. -/
structure IsWritten (v : Value) : Prop where
  type : ∀ w ∈ v.get? "type", w.isWritable = true
  text : ∀ w ∈ v.get? "text", w.isWritable = true

/-- There is a type, and the offsets are crossed, but a message cannot name both. -/
structure IsUnspeakable (v : Value) : Prop where
  type : (v.get? "type").isSome = true
  crossed : ∃ start stop, HasOffset v "start" start ∧ HasOffset v "end" stop ∧ stop < start ∧
    ¬(Value.hasNumeral start = true ∧ Value.hasNumeral stop = true)

/-- No offset is infinite. -/
def HasFiniteOffsets (v : Value) : Prop :=
  ∀ key ∈ ["start", "end"], ∀ w ∈ v.get? key, w.integer ≠ .infinite

instance (v : Value) : Decidable (HasFiniteOffsets v) :=
  inferInstanceAs (Decidable (∀ key ∈ ["start", "end"], ∀ w ∈ v.get? key, _))

/-! ## One node -/

section Node

variable {path key : String} {entries : List (Value × Value)} {v type : Value} {e : Error}

theorem required_error (h : required path entries key = .error e) :
    e = fault path (.missingKey key) := by
  unfold required at h
  split at h
  · exact (Except.error.inj h).symm
  · contradiction

theorem offset_error (hfinite : ∀ w ∈ (Value.map entries).get? key, w.integer ≠ .infinite)
    (h : offset path entries key = .error e) : ∃ f, e = fault path f := by
  rcases (bind_eq_error _ _ e).mp h with h | ⟨w, hw, h⟩
  · exact ⟨_, required_error h⟩
  · split at h
    · contradiction
    · exact ⟨_, (Except.error.inj h).symm⟩
    · rename_i hinfinite
      exact absurd hinfinite (hfinite w (required_eq_ok_iff.mp hw))

theorem header_of_isUnspeakable (h : IsUnspeakable v) :
    header path v = .error .unwritableNumber := by
  obtain ⟨htype, start, stop, hstart, hstop, hcrossed, hunwritable⟩ := h
  obtain ⟨type, htype⟩ := Option.isSome_iff_exists.mp htype
  cases v with
  | map entries =>
      have hall : [Value.int start, .int stop].all (·.isWritable) = false := by
        simpa [Value.isWritable] using hunwritable
      rw [header, required_eq_ok_iff.mpr htype, offset_eq_ok_iff.mpr hstart,
        offset_eq_ok_iff.mpr hstop]
      show (if stop < start then _ else _) = _
      rw [if_pos hcrossed, Error.about, hall]
      rfl
  | _ => contradiction

/-- A header that cannot be read is a fault with a path, unless it is unspeakable. -/
theorem header_error (hfinite : HasFiniteOffsets v) (h : header path v = .error e) :
    (¬IsUnspeakable v ∧ ∃ f, e = fault path f) ∨ (IsUnspeakable v ∧ e = .unwritableNumber) := by
  by_cases hspeak : IsUnspeakable v
  · rw [header_of_isUnspeakable hspeak] at h
    exact Or.inr ⟨hspeak, (Except.error.inj h).symm⟩
  refine Or.inl ⟨hspeak, ?_⟩
  cases v with
  | map entries =>
      rcases (bind_eq_error _ _ e).mp h with h | ⟨type, htype, h⟩
      · exact ⟨_, required_error h⟩
      rcases (bind_eq_error _ _ e).mp h with h | ⟨start, hstart, h⟩
      · exact offset_error (hfinite "start" (by simp)) h
      rcases (bind_eq_error _ _ e).mp h with h | ⟨stop, hstop, h⟩
      · exact offset_error (hfinite "end" (by simp)) h
      split at h
      · rename_i hcrossed
        -- both offsets can be named, or the header would be unspeakable
        have hall : [Value.int start, .int stop].all (·.isWritable) = true := by
          by_contra hall
          refine hspeak ⟨by rw [required_eq_ok_iff.mp htype]; rfl, start, stop,
            offset_eq_ok_iff.mp hstart, offset_eq_ok_iff.mp hstop, hcrossed, ?_⟩
          simpa [Value.isWritable] using hall
        rw [Error.about, hall] at h
        exact ⟨_, (Except.error.inj h).symm⟩
      · contradiction
  | _ => exact ⟨_, (Except.error.inj h).symm⟩

theorem HasHeader.not_isUnspeakable {span : Span} (h : HasHeader v type span) :
    ¬IsUnspeakable v := by
  rintro ⟨-, start, stop, hstart, hstop, hcrossed, -⟩
  have hordered := h.ordered
  rw [h.start.unique hstart, h.stop.unique hstop] at hordered
  omega

theorem content_error_iff {source : Option Bytes} : content source v = .error e ↔
    (∃ w ∈ v.get? "text", w.isWritable = false) ∧ e = .unwritableNumber := by
  unfold content
  cases v.get? "text" with
  | none => cases source <;> simp
  | some w =>
      have hworded : (w.worded.map Content.literal) = .error e ↔
          w.isWritable = false ∧ e = .unwritableNumber := by
        rw [← Value.worded_error_iff]
        cases w.worded <;> simp [Except.map]
      cases w with
      | null => cases source <;> simp [Value.isWritable]
      | _ => simpa using hworded

/-- A node whose header and children are there lacks nothing but numerals. -/
theorem assemble_error_iff {source : Option Bytes} {span : Span} {children : List Node}
    (htype : v.get? "type" = some type) : assemble source v type span children = .error e ↔
      ¬IsWritten v ∧ e = .unwritableNumber := by
  unfold assemble
  rw [bind_eq_error, Value.worded_error_iff]
  constructor
  · rintro (⟨hfalse, rfl⟩ | ⟨_, -, h⟩)
    · refine ⟨fun hwritten => ?_, rfl⟩
      exact Bool.eq_false_iff.mp hfalse (hwritten.type type htype)
    · rcases (bind_eq_error _ _ e).mp h with h | ⟨_, -, h⟩
      · obtain ⟨⟨w, hw, hfalse⟩, rfl⟩ := content_error_iff.mp h
        refine ⟨fun hwritten => ?_, rfl⟩
        exact Bool.eq_false_iff.mp hfalse (hwritten.text w hw)
      · contradiction
  · rintro ⟨hunwritten, rfl⟩
    cases hwritable : type.isWritable with
    | false => exact Or.inl ⟨rfl, rfl⟩
    | true =>
        refine Or.inr ⟨type.wording, if_pos hwritable, ?_⟩
        rw [bind_eq_error, content_error_iff]
        refine Or.inl ⟨?_, rfl⟩
        by_contra htext
        push Not at htext
        refine hunwritten ⟨?_, fun w hw => by simpa using htext w hw⟩
        intro w hw
        obtain rfl := Option.some.inj (htype.symm.trans hw)
        exact hwritable

end Node

/-! ## Where reading stops -/

/-- All values in a tree are records, and all can be written. -/
structure IsSound (v : Value) : Prop where
  records : Everywhere IsRecord v
  written : Everywhere IsWritten v

/-- A value that is no record, while all before it are. -/
structure FirstFault (v : Value) (p : Position) (w : Value) : Prop where
  here : at? v p = some w
  fault : ¬IsRecord w
  first : ∀ q u, q < p → at? v q = some u → IsRecord u

/-- The reader can say what is wrong at a position, and has been able to write all that it has left
on the way there: all that stands before the position and is not above it. -/
structure IsClear (v : Value) (p : Position) (w : Value) : Prop where
  speakable : ¬IsUnspeakable w
  written : ∀ q u, q < p → ¬q <+: p → at? v q = some u → IsWritten u

/-- Something cannot be written that the reader leaves before it comes by any fault, or that the
message about the first fault would have to name. -/
inductive IsSpoilt (v : Value) : Prop where
  | unspeakable {p : Position} {w : Value} : FirstFault v p w → IsUnspeakable w → IsSpoilt v
  | unwritten {p : Position} {w : Value} : at? v p = some w → ¬IsWritten w →
      (∀ q u, q < p ∨ p <+: q → at? v q = some u → IsRecord u) → IsSpoilt v

/-- The path to a position below a path. -/
def pathAt (path : String) (p : Position) : String :=
  p.foldl (fun path (i : Nat) => path ++ "/" ++ Value.intText i) path

/-- What comes of reading a value. -/
inductive Outcome (path : String) (v : Value) : Except Error Node → Prop where
  | accepted (n : Node) : IsSound v → Outcome path v (.ok n)
  | refused {p : Position} {w : Value} (f : NodeFault) : FirstFault v p w → IsClear v p w →
      Outcome path v (.error (fault (pathAt path p) f))
  | spoilt : IsSpoilt v → Outcome path v (.error .unwritableNumber)

/-- What comes of reading a row of values: all are accepted, or the outcome of the first that is not
is the outcome of the row. -/
inductive RowOutcome (path : String) (i : Nat) (items : List Value) :
    Except Error (List Node) → Prop where
  | accepted (nodes : List Node) : (∀ item ∈ items, IsSound item) →
      RowOutcome path i items (.ok nodes)
  | stopped {j : Nat} {item : Value} {e : Error} : items[j]? = some item →
      (∀ k < j, ∀ c, items[k]? = some c → IsSound c) →
      Outcome (path ++ "/" ++ Value.intText (i + j : Nat)) item (.error e) →
      RowOutcome path i items (.error e)

theorem FirstFault.root {v : Value} (h : ¬IsRecord v) : FirstFault v [] v :=
  ⟨rfl, h, fun q _ hlt => absurd hlt (List.not_lt_nil q)⟩

theorem IsClear.root {v : Value} (h : ¬IsUnspeakable v) : IsClear v [] v :=
  ⟨h, fun q _ hlt => absurd hlt (List.not_lt_nil q)⟩

section Below

variable {v item w : Value} {j : Nat} {p q : Position}

/-- What stands before a position below a child is the root, or stands below an earlier child, or
stands before it below the same child. -/
theorem before_child (hitem : (itemsOf v)[j]? = some item) (hlt : q < j :: p) {u : Value}
    (hu : at? v q = some u) : q = [] ∧ u = v ∨
      (∃ k q' c, q = k :: q' ∧ k < j ∧ (itemsOf v)[k]? = some c ∧ at? c q' = some u) ∨
      ∃ q', q = j :: q' ∧ q' < p ∧ at? item q' = some u := by
  cases q with
  | nil => exact Or.inl ⟨rfl, (Option.some.inj hu).symm⟩
  | cons k q' =>
      obtain ⟨c, hc, hbelow⟩ := descend_cons_eq_some.mp hu
      rcases List.cons_lt_cons_iff.mp hlt with hkj | ⟨rfl, hbefore⟩
      · exact Or.inr (Or.inl ⟨k, q', c, rfl, hkj, hc, hbelow⟩)
      · obtain rfl := Option.some.inj (hitem.symm.trans hc)
        exact Or.inr (Or.inr ⟨q', rfl, hbefore, hbelow⟩)

theorem FirstFault.below (hrecord : IsRecord v) (hitem : (itemsOf v)[j]? = some item)
    (hbefore : ∀ k < j, ∀ c, (itemsOf v)[k]? = some c → Everywhere IsRecord c)
    (h : FirstFault item p w) : FirstFault v (j :: p) w := by
  refine ⟨descend_cons_eq_some.mpr ⟨item, hitem, h.here⟩, h.fault, ?_⟩
  intro q u hlt hu
  obtain ⟨-, rfl⟩ | ⟨k, q', c, -, hkj, hc, hbelow⟩ | ⟨q', -, hlt, hbelow⟩ :=
    before_child hitem hlt hu
  · exact hrecord
  · exact hbefore k hkj c hc q' u hbelow
  · exact h.first q' u hlt hbelow

theorem IsClear.below (hitem : (itemsOf v)[j]? = some item)
    (hbefore : ∀ k < j, ∀ c, (itemsOf v)[k]? = some c → Everywhere IsWritten c)
    (h : IsClear item p w) : IsClear v (j :: p) w := by
  refine ⟨h.speakable, ?_⟩
  intro q u hlt hprefix hu
  obtain ⟨rfl, -⟩ | ⟨k, q', c, -, hkj, hc, hbelow⟩ | ⟨q', rfl, hlt, hbelow⟩ :=
    before_child hitem hlt hu
  · exact absurd List.nil_prefix hprefix
  · exact hbefore k hkj c hc q' u hbelow
  · apply h.written q' u hlt _ hbelow
    intro hq'
    exact hprefix (List.cons_prefix_cons.mpr ⟨rfl, hq'⟩)

theorem IsSpoilt.below (hrecord : IsRecord v) (hitem : (itemsOf v)[j]? = some item)
    (hbefore : ∀ k < j, ∀ c, (itemsOf v)[k]? = some c → Everywhere IsRecord c)
    (h : IsSpoilt item) : IsSpoilt v := by
  cases h with
  | unspeakable hfirst hspeak => exact .unspeakable (hfirst.below hrecord hitem hbefore) hspeak
  | @unwritten p w hw hunwritten hrecords =>
      refine .unwritten (descend_cons_eq_some.mpr ⟨item, hitem, hw⟩) hunwritten ?_
      rintro q u (hlt | hprefix) hu
      · obtain ⟨-, rfl⟩ | ⟨k, q', c, -, hkj, hc, hbelow⟩ | ⟨q', -, hlt, hbelow⟩ :=
          before_child hitem hlt hu
        · exact hrecord
        · exact hbefore k hkj c hc q' u hbelow
        · exact hrecords q' u (Or.inl hlt) hbelow
      · obtain ⟨r, rfl⟩ := hprefix
        obtain ⟨c, hc, hbelow⟩ := descend_cons_eq_some.mp hu
        obtain rfl := Option.some.inj (hitem.symm.trans hc)
        exact hrecords (p ++ r) u (Or.inr (List.prefix_append p r)) hbelow

/-- What stops the reading of a child stops the reading of its parent. -/
theorem Outcome.below {path : String} {e : Error} (hrecord : IsRecord v)
    (hitem : (itemsOf v)[j]? = some item)
    (hbefore : ∀ k < j, ∀ c, (itemsOf v)[k]? = some c → IsSound c)
    (h : Outcome (path ++ "/" ++ Value.intText j) item (.error e)) :
    Outcome path v (.error e) := by
  have hrecords := fun k hk c hc => (hbefore k hk c hc).records
  have hwritten := fun k hk c hc => (hbefore k hk c hc).written
  cases h with
  | refused f hfirst hclear =>
      exact .refused f (hfirst.below hrecord hitem hrecords) (hclear.below hitem hwritten)
  | spoilt hspoilt => exact .spoilt (hspoilt.below hrecord hitem hrecords)

end Below

/-! ## Reading -/

section Reading

variable {source : Option Bytes}

theorem nodesAt_outcome (path : String) (i : Nat) {items : List Value}
    (h : ∀ item ∈ items, ∀ path, Outcome path item (nodeAt source path item)) :
    RowOutcome path i items (nodesAt source path i items) := by
  induction items generalizing i with
  | nil =>
      rw [nodesAt]
      exact .accepted _ fun item hitem => absurd hitem List.not_mem_nil
  | cons item rest ih =>
      obtain ⟨hitem, hrest⟩ := List.forall_mem_cons.mp h
      have houtcome := hitem (path ++ "/" ++ Value.intText i)
      rw [nodesAt]
      cases hnode : nodeAt source (path ++ "/" ++ Value.intText i) item with
      | error e =>
          rw [hnode] at houtcome
          exact RowOutcome.stopped (j := 0) rfl (fun k hk => absurd hk (Nat.not_lt_zero k)) houtcome
      | ok n =>
          rw [hnode] at houtcome
          cases houtcome with
          | accepted _ hsound =>
              have hrow := ih (i + 1) hrest
              cases hnodes : nodesAt source path (i + 1) rest with
              | ok nodes =>
                  rw [hnodes] at hrow
                  cases hrow with
                  | accepted _ hall =>
                      exact .accepted _ (List.forall_mem_cons.mpr ⟨hsound, hall⟩)
              | error e =>
                  rw [hnodes] at hrow
                  cases hrow with
                  | @stopped j item' _ hitem' hbefore hstop =>
                      refine RowOutcome.stopped (j := j + 1) hitem' ?_ ?_
                      · intro k hk c hc
                        cases k with
                        | zero => exact Option.some.inj hc ▸ hsound
                        | succ k => exact hbefore k (by omega) c hc
                      · rwa [Nat.add_right_comm, Nat.add_assoc] at hstop

section Value

variable {path : String} {v type : Value} {span : Span}

theorem header_outcome (hfinite : HasFiniteOffsets v) {e : Error} (h : header path v = .error e) :
    Outcome path v (.error e) := by
  have hfault : ¬IsRecord v := by
    rintro ⟨⟨type, span, hheader⟩, -⟩
    rw [header_eq_ok_iff.mpr hheader] at h
    contradiction
  obtain ⟨hspeak, f, rfl⟩ | ⟨hspeak, rfl⟩ := header_error hfinite h
  · exact .refused f (.root hfault) (.root hspeak)
  · exact .spoilt (.unspeakable (.root hfault) hspeak)

theorem children_outcome (hheader : HasHeader v type span) (h : childItems? v = none) :
    Outcome path v (.error (fault path .childrenNotList)) := by
  have hfault : ¬IsRecord v := by
    intro hrecord
    obtain ⟨items, hitems⟩ := exists_childItems?_iff.mpr hrecord.children
    rw [h] at hitems
    contradiction
  exact .refused .childrenNotList (.root hfault) (.root hheader.not_isUnspeakable)

theorem assemble_outcome (hrecord : IsRecord v) (htype : v.get? "type" = some type)
    (hitems : ∀ item ∈ itemsOf v, IsSound item) (children : List Node) :
    Outcome path v (assemble source v type span children) := by
  have herror : ∀ e, assemble source v type span children = .error e ↔
      ¬IsWritten v ∧ e = .unwritableNumber := fun e => assemble_error_iff htype
  have hrecords : Everywhere IsRecord v :=
    everywhere_iff.mpr ⟨hrecord, fun item h => (hitems item h).records⟩
  cases hassemble : assemble source v type span children with
  | ok n =>
      refine .accepted n ⟨hrecords, everywhere_iff.mpr ⟨?_, fun item h => (hitems item h).written⟩⟩
      by_contra hunwritten
      have := (herror .unwritableNumber).mpr ⟨hunwritten, rfl⟩
      rw [hassemble] at this
      contradiction
  | error e =>
      obtain ⟨hunwritten, rfl⟩ := (herror e).mp hassemble
      exact .spoilt (.unwritten (p := []) rfl hunwritten fun q u _ hu => hrecords q u hu)

end Value

/-- **Reading a value** ends with a node, or at the first fault, or at something that cannot be
written. -/
theorem nodeAt_outcome {v : Value} (hfinite : Everywhere HasFiniteOffsets v) (path : String) :
    Outcome path v (nodeAt source path v) := by
  -- by induction on the children, each of which has a path of its own
  induction v using value_induction generalizing path with
  | step v ih =>
    obtain ⟨hv, hitems⟩ := everywhere_iff.mp hfinite
    rw [nodeAt_eq]
    cases hheader : header path v with
    | error e => exact header_outcome hv hheader
    | ok parts =>
        obtain ⟨type, span⟩ := parts
        have hparts := header_eq_ok_iff.mp hheader
        cases hfound : childItems? v with
        | none => exact children_outcome hparts hfound
        | some items =>
            have hrecord : IsRecord v :=
              ⟨⟨type, span, hparts⟩, exists_childItems?_iff.mp ⟨items, hfound⟩⟩
            obtain rfl := itemsOf_eq hfound
            have hrow : RowOutcome path 0 (itemsOf v) (nodesAt source path 0 (itemsOf v)) :=
              nodesAt_outcome path 0 fun item hitem => ih item hitem (hitems item hitem)
            show Outcome path v (nodesAt source path 0 (itemsOf v) >>= _)
            cases hnodes : nodesAt source path 0 (itemsOf v) with
            | error e =>
                rw [hnodes] at hrow
                cases hrow with
                | stopped hitem hbefore hstop =>
                    rw [Nat.zero_add] at hstop
                    exact hstop.below hrecord hitem hbefore
            | ok nodes =>
                rw [hnodes] at hrow
                cases hrow with
                | accepted _ hall => exact assemble_outcome hrecord hparts.type hall nodes

end Reading

/-! ## The first fault -/

section First

variable {v w : Value} {p : Position}

theorem FirstFault.unique {u : Value} {q : Position} (h : FirstFault v p w)
    (h' : FirstFault v q u) : q = p ∧ u = w := by
  rcases lt_trichotomy p q with hlt | rfl | hlt
  · exact absurd (h'.first p w hlt h.here) h.fault
  · exact ⟨rfl, Option.some.inj (h'.here.symm.trans h.here)⟩
  · exact absurd (h.first q u hlt h'.here) h'.fault

/-- Where not all values are records, one of those that are not is the first. -/
theorem exists_firstFault (h : ¬Everywhere IsRecord v) : ∃ p w, FirstFault v p w := by
  induction v using value_induction with
  | step v ih =>
    by_cases hrecord : IsRecord v
    · have hitems : ∃ (j : Nat) (item : Value), (itemsOf v)[j]? = some item ∧
          ¬Everywhere IsRecord item := by
        by_contra hall
        push Not at hall
        refine h (everywhere_iff.mpr ⟨hrecord, fun item hitem => ?_⟩)
        obtain ⟨j, hj⟩ := List.mem_iff_getElem?.mp hitem
        exact hall j item hj
      classical
      obtain ⟨item, hitem, hfault⟩ := Nat.find_spec hitems
      obtain ⟨p, w, hfirst⟩ := ih item (List.mem_of_getElem? hitem) hfault
      refine ⟨_, w, hfirst.below hrecord hitem ?_⟩
      intro k hk c hc
      by_contra hearlier
      exact Nat.find_min hitems hk ⟨c, hc, hearlier⟩
    · exact ⟨[], v, .root hrecord⟩

theorem FirstFault.not_isSpoilt (hfirst : FirstFault v p w) (hclear : IsClear v p w) :
    ¬IsSpoilt v := by
  intro hspoilt
  cases hspoilt with
  | unspeakable hfirst' hspeak =>
      obtain ⟨-, rfl⟩ := hfirst.unique hfirst'
      exact hclear.speakable hspeak
  | @unwritten q u hu hunwritten hrecords =>
      -- the fault is neither before nor below what cannot be written, so it comes too late
      have hnot : ¬(p < q ∨ q <+: p) := fun h => hfirst.fault (hrecords p w h hfirst.here)
      rcases lt_trichotomy q p with hlt | rfl | hlt
      · exact hunwritten (hclear.written q u hlt (fun h => hnot (Or.inr h)) hu)
      · exact hnot (Or.inr List.prefix_rfl)
      · exact hnot (Or.inl hlt)

end First

/-- **The first fault is named.** A document that has no octets is refused whatever the value is.
Over any other, and if no offset is infinite, a value is read exactly if all values in it are
records that can be written. If some are no records, the message starts with the path to the first
of them, provided that all can be written that the reader has left by then, and the message; and if
not, or if all are records, the error is that of a number that cannot be written. -/
theorem first_fault_named (source : Option Source) {v : Value}
    (hfinite : Everywhere HasFiniteOffsets v) :
    (IsHalved source → node source v = .error .unencodableText) ∧
    (¬IsHalved source →
      ((∃ n, node source v = .ok n) ↔ Everywhere IsRecord v ∧ Everywhere IsWritten v) ∧
      (¬Everywhere IsRecord v → ∃ p w, FirstFault v p w ∧
        (IsClear v p w ∧ (∃ f, node source v = .error (fault (pathAt "$" p) f) ∧
            (fault (pathAt "$" p) f).message = pathAt "$" p ++ ": " ++ f.message) ∨
          ¬IsClear v p w ∧ node source v = .error .unwritableNumber)) ∧
      (Everywhere IsRecord v → ¬Everywhere IsWritten v →
        node source v = .error .unwritableNumber)) := by
  refine ⟨fun hhalved => ?_, fun hwhole => ?_⟩
  · rw [node, bytes?_of_isHalved hhalved]
    rfl
  obtain ⟨bytes, hbytes⟩ := exists_bytes? hwhole
  have hnode : node source v = nodeAt bytes "$" v := by
    rw [node, hbytes]
    rfl
  have houtcome : Outcome "$" v (node source v) := hnode ▸ nodeAt_outcome hfinite "$"
  generalize node source v = result at houtcome
  cases houtcome with
  | accepted n hsound =>
      refine ⟨⟨fun _ => ⟨hsound.records, hsound.written⟩, fun _ => ⟨n, rfl⟩⟩, ?_, ?_⟩
      · intro h
        exact absurd hsound.records h
      · intro _ h
        exact absurd hsound.written h
  | @refused p w f hfirst hclear =>
      have hfault : ¬Everywhere IsRecord v := fun h => hfirst.fault (h p w hfirst.here)
      refine ⟨⟨by simp, fun h => absurd h.1 hfault⟩, ?_, fun h => absurd h hfault⟩
      intro _
      exact ⟨p, w, hfirst, Or.inl ⟨hclear, f, rfl, rfl⟩⟩
  | spoilt hspoilt =>
      refine ⟨⟨by simp, ?_⟩, ?_, fun _ _ => rfl⟩
      · rintro ⟨hrecords, hwritten⟩
        cases hspoilt with
        | unspeakable hfirst _ => exact absurd (hrecords _ _ hfirst.here) hfirst.fault
        | unwritten hw hunwritten _ => exact absurd (hwritten _ _ hw) hunwritten
      · intro h
        obtain ⟨p, w, hfirst⟩ := exists_firstFault h
        exact ⟨p, w, hfirst, Or.inr ⟨fun hclear => hfirst.not_isSpoilt hclear hspoilt, rfl⟩⟩

/-! ## A fault below the root -/

section Description

variable {P : Value → Prop} {type : Wording} {span : Span} {named : Bool} {children : List Value}
  {field : Option Value}

theorem everywhere_description : Everywhere P (.map (description type span named children field)) ↔
    P (.map (description type span named children field)) ∧
      ∀ item ∈ children, Everywhere P item := by
  rw [everywhere_iff, itemsOf_eq childItems?_description]

theorem everywhere_text {s : String} : Everywhere P (.text s) ↔ P (.text s) := by
  rw [everywhere_iff]
  simp [itemsOf, childItems?, Value.get?]

theorem hasFiniteOffsets_description :
    HasFiniteOffsets (.map (description type span named children field)) := by
  simp [HasFiniteOffsets, Value.get?, description, Value.integer]

/-- **A fault that is not named.** A description with crossed offsets has its first fault at the
root, but there is no message about it if one of the offsets has no numeral. -/
theorem nodeAt_of_overlong {source : Option Bytes} {path : String}
    (hcrossed : span.stop < span.start)
    (hoverlong : ¬(Value.hasNumeral span.start = true ∧ Value.hasNumeral span.stop = true)) :
    FirstFault (.map (description type span named children field)) []
        (.map (description type span named children field)) ∧
      nodeAt source path (.map (description type span named children field)) =
        .error .unwritableNumber := by
  have hspeak : IsUnspeakable (.map (description type span named children field)) := by
    refine ⟨?_, span.start, span.stop, ⟨.int span.start, ?_, rfl⟩, ⟨.int span.stop, ?_, rfl⟩,
      hcrossed, hoverlong⟩
    all_goals simp [Value.get?, description]
  constructor
  · apply FirstFault.root
    rintro ⟨⟨type, span, hheader⟩, -⟩
    exact hheader.not_isUnspeakable hspeak
  · rw [nodeAt_eq, header_of_isUnspeakable hspeak]
    rfl

end Description

/-- The fault of the snapshot that a reading reports. -/
def reported? : Except Error Node → Option SnapshotFault
  | .ok _ => none
  | .error e =>
    match e with
    | .snapshot f => some f
    | _ => none

theorem eq_of_reported? {result : Except Error Node} {f : SnapshotFault}
    (h : reported? result = some f) : result = .error (.snapshot f) := by
  cases result with
  | ok n => contradiction
  | error e =>
      cases e with
      | snapshot g => rw [Option.some.inj h]
      | _ => contradiction

/-- A tree with crossed offsets in its second grandchild, and with a child that is only a text. -/
def strayed : Value :=
  .map (description "document" ⟨0, 9⟩ true [
    .map (description "section" ⟨0, 4⟩ true [
      .map (description "inline" ⟨0, 1⟩ true [] none),
      .map (description "inline" ⟨3, 2⟩ false [] none)] none),
    .text "stray"] none)

/-- The crossed offsets come first. -/
theorem crossed_grandchild_named : ∃ p w, FirstFault strayed p w ∧ pathAt "$" p = "$/0/1" ∧
    node none strayed = .error (fault "$/0/1" (.crossed 3 2)) := by
  have hfinite : Everywhere HasFiniteOffsets strayed := by
    have htext : HasFiniteOffsets (.text "stray") := by decide
    simp [strayed, everywhere_description, everywhere_text, hasFiniteOffsets_description, htext]
  have hnode : node none strayed = .error (fault "$/0/1" (.crossed 3 2)) :=
    eq_of_reported? (by decide +kernel)
  have hwhole : ¬IsHalved none := by simp [IsHalved]
  obtain ⟨hok, hfault, hunwritten⟩ := (first_fault_named none hfinite).2 hwhole
  rw [hnode] at hok hfault hunwritten
  have hrecords : ¬Everywhere IsRecord strayed := by
    intro hrecords
    by_cases hwritten : Everywhere IsWritten strayed
    · exact absurd (hok.mpr ⟨hrecords, hwritten⟩) (by simp)
    · exact absurd (hunwritten hrecords hwritten) (by simp [fault])
  obtain ⟨p, w, hfirst, ⟨-, f, hf, -⟩ | ⟨-, herror⟩⟩ := hfault hrecords
  · simp only [fault, Except.error.injEq, Error.snapshot.injEq, SnapshotFault.node.injEq] at hf
    exact ⟨p, w, hfirst, hf.1.symm, hnode⟩
  · exact absurd herror (by simp [fault])

end Limn.Snapshot
