import Limn.Proofs.Snapshot.Reading
import Limn.Snapshot.Text
import Mathlib.Tactic

/-! # Refusals and breakdowns

Reading a snapshot should end with trees or with a fault of the snapshot. It can also break down, in
four ways: an offset of a node is an infinite number, a type, a text or a source holds an integer
without a numeral, the offsets of a node are crossed and the message that would say so needs such
an integer, or the document is worded with halves of surrogate pairs, which have no octets.

`Explained` says of a result that it is a fault of the snapshot or one of some breakdowns, and that
there is a result only if none of them could occur. Each step of reading is explained by what it
looks at, and steps in a row by all of that (`Explained.bind`).
-/

namespace Limn.Snapshot

/-! ## Breakdowns -/

/-- The number under a key is infinite, where an offset is due. -/
def InfiniteAt (v : Value) (key : String) (e : Error) : Prop :=
  ∃ w, v.get? key = some w ∧ w.integer = .infinite ∧ e = .infiniteOffset

/-- What stands under a key holds an integer without a numeral, where a text is due. -/
def UnwritableAt (v : Value) (key : String) (e : Error) : Prop :=
  ∃ w, v.get? key = some w ∧ w.isWritable = false ∧ e = .unwritableNumber

/-- The document has no octets, where these are due. -/
def HalvedSource (source : Option Source) (e : Error) : Prop :=
  IsHalved source ∧ e = .unencodableText

/-- What stands under a key is worded with halves of pairs, where octets are due. -/
def HalvedAt (v : Value) (key : String) (e : Error) : Prop :=
  ∃ h, v.get? key = some (.halved h) ∧ e = .unencodableText

/-- The offsets of a node are crossed, and one of them has no numeral. -/
def CrossedAt (v : Value) (e : Error) : Prop :=
  ∃ a b start stop, v.get? "start" = some a ∧ a.integer = .integer start ∧
    v.get? "end" = some b ∧ b.integer = .integer stop ∧ stop < start ∧
    [Value.int start, .int stop].all (·.isWritable) = false ∧ e = .unwritableNumber

/-- Reading breaks down at a node, its children apart. -/
def Breaks (v : Value) (e : Error) : Prop :=
  (InfiniteAt v "start" e ∨ InfiniteAt v "end" e ∨ CrossedAt v e) ∨
    UnwritableAt v "type" e ∨ UnwritableAt v "text" e

/-- A value in the place of a node of the tree that another describes. -/
inductive Holds : Value → Value → Prop where
  | root (v : Value) : Holds v v
  | child {v w item : Value} {items : List Value} : childItems? v = some items → item ∈ items →
      Holds item w → Holds v w

/-- Reading breaks down at some node of a tree. -/
def TreeBreaks (v : Value) (e : Error) : Prop :=
  ∃ w, Holds v w ∧ Breaks w e

/-- Reading breaks down at a tree of a document. -/
def TreeBreaksUnder (v : Value) (name : String) (e : Error) : Prop :=
  ∃ tree, v.get? name = some tree ∧ TreeBreaks tree e

/-- Reading breaks down at the source or at one of the trees of a document. -/
def DocumentBreaks (v : Value) (e : Error) : Prop :=
  UnwritableAt v "source" e ∨ HalvedAt v "source" e ∨ TreeBreaksUnder v "block" e ∨
    TreeBreaksUnder v "inline" e

theorem treeBreaks_iff {v : Value} {e : Error} : TreeBreaks v e ↔
    Breaks v e ∨ ∃ items, childItems? v = some items ∧ ∃ item ∈ items, TreeBreaks item e := by
  constructor
  · rintro ⟨w, hw, hbreaks⟩
    cases hw with
    | root => exact .inl hbreaks
    | child hitems hmem hw => exact .inr ⟨_, hitems, _, hmem, w, hw, hbreaks⟩
  · rintro (hbreaks | ⟨items, hitems, item, hmem, w, hw, hbreaks⟩)
    · exact ⟨v, .root v, hbreaks⟩
    · exact ⟨w, .child hitems hmem hw, hbreaks⟩

/-! ## Explanations -/

/-- A result in view of the breakdowns that there can be: it is there only if there is none, and an
error is a fault of the snapshot unless it is one of them. -/
def Explained {α : Type} (breaks : Error → Prop) : Except Error α → Prop
  | .ok _ => ∀ e, ¬breaks e
  | .error e => (∃ f, e = .snapshot f) ∨ breaks e

namespace Explained

variable {α β : Type} {P Q : Error → Prop} {x : Except Error α}

theorem congr (hx : Explained P x) (h : ∀ e, P e ↔ Q e) : Explained Q x := by
  cases x with
  | error e => exact hx.imp id (h e).mp
  | ok a => exact fun e he => hx e ((h e).mpr he)

theorem map (hx : Explained P x) (f : α → β) : Explained P (x.map f) := by
  cases x with
  | error e => exact hx
  | ok a => exact hx

/-- Steps in a row are explained by whatever explains one of them. -/
theorem bind {f : α → Except Error β} (hx : Explained P x)
    (hf : ∀ a, x = .ok a → Explained Q (f a)) : Explained (fun e => P e ∨ Q e) (x >>= f) := by
  cases x with
  | error e => exact hx.imp id .inl
  | ok a =>
      have ha := hf a rfl
      show Explained _ (f a)
      cases hb : f a with
      | error e =>
          rw [hb] at ha
          exact ha.imp id .inr
      | ok b =>
          rw [hb] at ha
          rintro e (he | he)
          · exact hx e he
          · exact ha e he

/-- A step that cannot break down adds nothing. -/
theorem bind_of_never {f : α → Except Error β} (hx : Explained (fun _ => False) x)
    (hf : ∀ a, x = .ok a → Explained Q (f a)) : Explained Q (x >>= f) :=
  (hx.bind hf).congr fun e => by rw [false_or]

theorem ok (a : α) : Explained (fun _ => False) (.ok a : Except Error α) :=
  fun _ h => h

end Explained

theorem worded_explained {v w : Value} {key : String} (h : v.get? key = some w) :
    Explained (UnwritableAt v key) w.worded := by
  unfold Value.worded
  cases hwritable : w.isWritable with
  | false => exact .inr ⟨w, h, hwritable, rfl⟩
  | true =>
      rintro e ⟨w', hw', hwritable', -⟩
      obtain rfl := Option.some.inj (h.symm.trans hw')
      rw [hwritable] at hwritable'
      contradiction

/-- What is not there, or null, cannot break down. -/
theorem not_unwritableAt {v : Value} {key : String}
    (h : v.get? key = none ∨ v.get? key = some .null) (e : Error) : ¬UnwritableAt v key e := by
  rintro ⟨w, hw, hwritable, -⟩
  obtain h | h := h
  · rw [h] at hw
    contradiction
  · obtain rfl := Option.some.inj (h.symm.trans hw)
    contradiction

theorem bytes?_explained (source : Option Source) :
    Explained (HalvedSource source) (Source.bytes? source) := by
  by_cases hhalved : IsHalved source
  · rw [bytes?_of_isHalved hhalved]
    exact .inr ⟨hhalved, rfl⟩
  · obtain ⟨bytes, hbytes⟩ := exists_bytes? hhalved
    rw [hbytes]
    exact fun _ h => hhalved h.1

/-! ## One node -/

section Node

variable (path : String) (entries : List (Value × Value)) (key : String)

theorem required_explained : Explained (fun _ => False) (required path entries key) := by
  unfold required
  split
  · exact .inl ⟨_, rfl⟩
  · exact Explained.ok _

theorem offset_explained : Explained (InfiniteAt (.map entries) key) (offset path entries key) := by
  refine (required_explained path entries key).bind_of_never fun w hw => ?_
  have hget := required_eq_ok_iff.mp hw
  cases hinteger : w.integer with
  | integer i =>
      rintro e ⟨w', hw', hinfinite, -⟩
      obtain rfl := Option.some.inj (hget.symm.trans hw')
      rw [hinteger] at hinfinite
      contradiction
  | notInteger => exact .inl ⟨_, rfl⟩
  | infinite => exact .inr ⟨w, hget, hinteger, rfl⟩

theorem header_explained (v : Value) :
    Explained (fun e => InfiniteAt v "start" e ∨ InfiniteAt v "end" e ∨ CrossedAt v e)
      (header path v) := by
  cases v with
  | map entries =>
      refine (required_explained path entries "type").bind_of_never fun type _ => ?_
      refine (offset_explained path entries "start").bind fun start hstart => ?_
      refine (offset_explained path entries "end").bind fun stop hstop => ?_
      obtain ⟨a, ha, hastart⟩ := offset_eq_ok_iff.mp hstart
      obtain ⟨b, hb, hbstop⟩ := offset_eq_ok_iff.mp hstop
      by_cases hcrossed : stop < start
      · -- the message names both offsets, so these have to be written
        rw [if_pos hcrossed]
        unfold Error.about
        cases hwritable : [Value.int start, .int stop].all (·.isWritable) with
        | true => exact .inl ⟨_, rfl⟩
        | false => exact .inr ⟨a, b, start, stop, ha, hastart, hb, hbstop, hcrossed, hwritable, rfl⟩
      · rw [if_neg hcrossed]
        rintro e ⟨a', b', start', stop', ha', hastart', hb', hbstop', hcrossed', -⟩
        obtain rfl := Option.some.inj (ha.symm.trans ha')
        obtain rfl := Option.some.inj (hb.symm.trans hb')
        obtain rfl := IntegerReading.integer.inj (hastart.symm.trans hastart')
        obtain rfl := IntegerReading.integer.inj (hbstop.symm.trans hbstop')
        exact hcrossed hcrossed'
  | _ => exact .inl ⟨_, rfl⟩

theorem content_explained (source : Option Bytes) (v : Value) :
    Explained (UnwritableAt v "text") (content source v) := by
  unfold content
  split
  · rename_i hget
    split
    · exact not_unwritableAt (.inl hget)
    · exact not_unwritableAt (.inl hget)
  · rename_i hget
    split
    · exact not_unwritableAt (.inr hget)
    · exact not_unwritableAt (.inr hget)
  · rename_i hget
    exact (worded_explained hget).map _

theorem assemble_explained (source : Option Bytes) {v type : Value}
    (htype : v.get? "type" = some type) (span : Span) (children : List Node) :
    Explained (fun e => UnwritableAt v "type" e ∨ UnwritableAt v "text" e)
      (assemble source v type span children) := by
  refine (worded_explained htype).bind fun type _ => ?_
  refine ((content_explained source v).bind fun content _ => Explained.ok _).congr fun e => ?_
  rw [or_false]

end Node

/-! ## Trees -/

theorem nodesAt_explained {source : Option Bytes} (path : String) (i : Nat) {items : List Value}
    (h : ∀ item ∈ items, ∀ path, Explained (TreeBreaks item) (nodeAt source path item)) :
    Explained (fun e => ∃ item ∈ items, TreeBreaks item e) (nodesAt source path i items) := by
  induction items generalizing i with
  | nil =>
      rw [nodesAt]
      rintro e ⟨item, hmem, -⟩
      exact absurd hmem List.not_mem_nil
  | cons item rest ih =>
      obtain ⟨hitem, hrest⟩ := List.forall_mem_cons.mp h
      rw [nodesAt]
      refine ((hitem _).bind fun node _ => (ih (i + 1) hrest).bind fun nodes _ =>
        Explained.ok _).congr fun e => ?_
      rw [or_false, List.exists_mem_cons_iff]

/-- **Reading a tree** is explained by the breakdowns at its nodes. -/
theorem nodeAt_explained (source : Option Bytes) (path : String) (v : Value) :
    Explained (TreeBreaks v) (nodeAt source path v) := by
  induction v using value_induction generalizing path with
  | step v ih =>
    rw [nodeAt_eq]
    refine ((header_explained path v).bind (Q := fun e => (∃ items, childItems? v = some items ∧
      ∃ item ∈ items, TreeBreaks item e) ∨ UnwritableAt v "type" e ∨ UnwritableAt v "text" e)
      fun (type, span) hheader => ?_).congr fun e => ?_
    · cases hitems : childItems? v with
      | none => exact .inl ⟨_, rfl⟩
      | some items =>
          rw [itemsOf_eq hitems] at ih
          have htype := (header_eq_ok_iff.mp hheader).type
          refine ((nodesAt_explained path 0 fun item hitem path => ih item hitem path).bind
            fun children _ => assemble_explained source htype span children).congr fun e => ?_
          simp
    · rw [treeBreaks_iff, Breaks]
      constructor
      · rintro (h | h | h)
        · exact .inl (.inl h)
        · exact .inr h
        · exact .inl (.inr h)
      · rintro ((h | h) | h)
        · exact .inl h
        · exact .inr (.inr h)
        · exact .inr (.inl h)

/-! ## Texts -/

/-- A reading of a text is explained by the value in the text. -/
theorem parse_explained {α : Type} {load : Wording → Except Yaml.Fault Value} {text : Wording}
    (hload : ∀ f, load text = .error f → f = .malformed) {breaks : Value → Error → Prop}
    {f : Value → Except Error α} (hf : ∀ v, Explained (breaks v) (f v)) :
    Explained (fun e => ∃ v, load text = .ok v ∧ breaks v e) (parse load text >>= f) := by
  unfold parse
  cases hread : load text with
  | error fault =>
      obtain rfl := hload fault hread
      exact .inl ⟨_, rfl⟩
  | ok v =>
      refine (hf v).congr fun e => ?_
      constructor
      · intro h
        exact ⟨v, rfl, h⟩
      · rintro ⟨v', hv', h⟩
        obtain rfl := Except.ok.inj hv'
        exact h

theorem treeUnder_explained (name : String) (v : Value) :
    Explained (fun _ => False) (treeUnder name v) := by
  unfold treeUnder
  split
  · exact Explained.ok _
  · exact .inl ⟨_, rfl⟩

theorem get?_of_treeUnder {name : String} {v tree : Value} (h : treeUnder name v = .ok tree) :
    v.get? name = some tree := by
  unfold treeUnder at h
  split at h
  · rename_i found hfound
    rw [hfound, Except.ok.inj h]
  · contradiction

theorem nodeAt_explained_under {name : String} {v tree : Value} (h : v.get? name = some tree)
    (source : Option Bytes) (path : String) :
    Explained (TreeBreaksUnder v name) (nodeAt source path tree) := by
  refine (nodeAt_explained source path tree).congr fun e => ?_
  constructor
  · intro hbreaks
    exact ⟨tree, h, hbreaks⟩
  · rintro ⟨tree', htree', hbreaks⟩
    obtain rfl := Option.some.inj (h.symm.trans htree')
    exact hbreaks

/-- The source of a document, as it is looked up. -/
def sourceOf (v : Value) : Except Error (Option Wording) :=
  match v.get? "source" with
  | none | some .null => .ok none
  | some s => s.worded.map some

theorem sourceOf_explained (v : Value) : Explained (UnwritableAt v "source") (sourceOf v) := by
  unfold sourceOf
  split
  · rename_i hget
    exact not_unwritableAt (.inl hget)
  · rename_i hget
    exact not_unwritableAt (.inr hget)
  · rename_i hget
    exact (worded_explained hget).map _

/-- The source has halves of pairs if what stands under its key has. -/
theorem halvedSource_iff {v : Value} {source : Option Wording} (h : sourceOf v = .ok source)
    (e : Error) : HalvedSource (source.map .text) e ↔ HalvedAt v "source" e := by
  unfold sourceOf at h
  unfold HalvedSource IsHalved HalvedAt
  split at h
  · rename_i hget
    obtain rfl := Except.ok.inj h
    simp [hget]
  · rename_i hget
    obtain rfl := Except.ok.inj h
    simp [hget]
  · rename_i s _ hget
    unfold Value.worded at h
    split at h
    · obtain rfl := Except.ok.inj h
      rw [hget]
      cases s <;> simp [Value.wording]
    · contradiction

/-- The document over a source, given the value that describes both trees. -/
def loadedOver (v : Value) (source : Option Wording) : Except Error Loaded := do
  let block ← treeUnder "block" v
  let inline ← treeUnder "inline" v
  let bytes ← Source.bytes? (source.map .text)
  let block ← nodeAt bytes "$.block" block
  let inline ← nodeAt bytes "$.inline" inline
  .ok ⟨block, inline, (source.bind Wording.text?).getD ""⟩

theorem documentOf_map (entries : List (Value × Value)) :
    documentOf (.map entries) = sourceOf (.map entries) >>= loadedOver (.map entries) := by
  unfold documentOf sourceOf
  cases (Value.map entries).get? "source" with
  | none => rfl
  | some s => cases s <;> rfl

theorem loadedOver_explained (v : Value) (source : Option Wording) :
    Explained (fun e => HalvedSource (source.map .text) e ∨ TreeBreaksUnder v "block" e ∨
      TreeBreaksUnder v "inline" e) (loadedOver v source) := by
  refine (treeUnder_explained "block" v).bind_of_never fun block hblock => ?_
  refine (treeUnder_explained "inline" v).bind_of_never fun inline hinline => ?_
  refine (bytes?_explained _).bind fun bytes _ => ?_
  have hblock := nodeAt_explained_under (get?_of_treeUnder hblock)
  have hinline := nodeAt_explained_under (get?_of_treeUnder hinline)
  refine ((hblock _ _).bind fun _ _ => (hinline _ _).bind fun _ _ => Explained.ok _).congr
    fun e => ?_
  rw [or_false]

/-- **Reading a document** is explained by the breakdowns at its source and its trees. -/
theorem documentOf_explained (v : Value) : Explained (DocumentBreaks v) (documentOf v) := by
  cases v with
  | map entries =>
      rw [documentOf_map]
      refine (sourceOf_explained _).bind fun source hsource => ?_
      refine (loadedOver_explained _ source).congr fun e => ?_
      rw [halvedSource_iff hsource]
  | _ => exact .inl ⟨_, rfl⟩

/-- **Nothing else happens.** Whatever reads YAML, if it gives a value or finds that the text is
none, a tree or a document in it is read, or refused with a fault of the snapshot, unless reading
breaks down; and nothing is read where it could have. -/
theorem reading_explained {load : Wording → Except Yaml.Fault Value} {text : Wording}
    (hload : ∀ f, load text = .error f → f = .malformed) :
    (∀ source, Explained
      (fun e => ∃ v, load text = .ok v ∧ (HalvedSource source e ∨ TreeBreaks v e))
      (readTreeWith load text source)) ∧
    Explained (fun e => ∃ v, load text = .ok v ∧ DocumentBreaks v e)
      (readDocumentWith load text) := by
  constructor
  · intro source
    exact parse_explained hload fun v =>
      (bytes?_explained source).bind fun bytes _ => nodeAt_explained bytes "$" v
  · exact parse_explained hload documentOf_explained

/-- A tree whose only node starts at infinity. -/
def infiniteText : String := "\x7btype: x, start: .inf, end: 1\x7d"

/-- Reading it breaks down. -/
theorem infinite_offset_breaks :
    readTree infiniteText none = .error .infiniteOffset ∧
      ∃ v, Yaml.load infiniteText = .ok v ∧ TreeBreaks v .infiniteOffset := by
  have hload : ∀ f, Yaml.load infiniteText = .error f → f = .malformed := by
    have hok : (Yaml.load infiniteText).toOption.isSome = true := by decide +kernel
    intro f hf
    rw [hf] at hok
    contradiction
  have hbroken : (match readTree infiniteText none with
    | .error .infiniteOffset => true
    | _ => false) = true := by decide +kernel
  have hexplained := (reading_explained hload).1 none
  split at hbroken
  · rename_i herror
    rw [readTree] at herror
    rw [herror] at hexplained
    refine ⟨herror, ?_⟩
    obtain ⟨f, hf⟩ | ⟨v, hv, ⟨⟨h, hsource⟩, -⟩ | hbreaks⟩ := hexplained
    · contradiction
    · contradiction
    · exact ⟨v, hv, hbreaks⟩
  · contradiction

end Limn.Snapshot
