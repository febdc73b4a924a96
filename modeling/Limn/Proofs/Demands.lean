import Limn.Proofs.Snapshot.Reading
import Limn.Settings
import Mathlib

/-! # What settings have to be

Reading the root table of a settings file makes a row of demands, one after the other: that a
section can be searched or is a table, that a setting is a list of texts, that it can be written.
The first demand that is not met decides the error (`StopsAt`), and if all are met, there are
settings that follow the table and are the defaults elsewhere (`Follows`).

A setting that is no list of texts is reported as such. Whatever else is wrong breaks the reading
itself: a section of the wrong kind, or a number too long for the text or the message that it has to
stand in (`load_reports_or_breaks`).
-/

namespace Limn.Settings

/-! ## Demands -/

/-- What a document gives for a setting: nothing unless the section is a table that has the key. -/
def given (root : Value) (part key : String) : Option Value :=
  (root.get? part).bind (·.get? key)

/-- The value is a table. -/
def IsTable (v : Value) : Prop :=
  ∃ entries, v = .map entries

/-- The value is a list of texts. -/
def IsTexts (v : Value) : Prop :=
  ∃ texts : List String, v = .list (texts.map .text)

/-- A key can be searched for in the value, and is found in it only if it is a table. -/
def IsSearchable (key : String) : Value → Prop
  | .map _ => True
  | .text s => ¬key.toList <:+: s.toList
  | .list items => .text key ∉ items
  | _ => False

/-- What reading asks of the root table of a document. -/
inductive Demand where
  /-- The section can be searched for the key. -/
  | searchable (part key : String)
  /-- The section is a table. -/
  | table (part : String)
  /-- The setting is a list of texts. -/
  | texts (part key : String)
  /-- The setting has a text. -/
  | writable (part key : String)

namespace Demand

/-- The demand is met, which it is if there is nothing to ask it of. -/
def IsMet (root : Value) : Demand → Prop
  | searchable part key => ∀ v ∈ root.get? part, IsSearchable key v
  | table part => ∀ v ∈ root.get? part, IsTable v
  | texts part key => ∀ v ∈ given root part key, IsTexts v
  | writable part key => ∀ v ∈ given root part key, v.isWritable = true

/-- The demand is not met, and this is the error. -/
inductive Fails (root : Value) : Demand → Error → Prop where
  | unsearchable {part key : String} {v : Value} : root.get? part = some v →
      ¬IsSearchable key v → Fails root (.searchable part key) .sectionNotSearchable
  | noTable {part : String} {v : Value} : root.get? part = some v → ¬IsTable v →
      Fails root (.table part) .sectionNotTable
  | noTexts {part key : String} {v : Value} : given root part key = some v → ¬IsTexts v →
      v.isWritable = true → Fails root (.texts part key) (.setting (part ++ "." ++ key) v)
  /-- The message would have to show the value. -/
  | unspeakable {part key : String} {v : Value} : given root part key = some v → ¬IsTexts v →
      v.isWritable = false → Fails root (.texts part key) .unwritableNumber
  | unwritable {part key : String} {v : Value} : given root part key = some v →
      v.isWritable = false → Fails root (.writable part key) .unwritableNumber

theorem isMet_iff {root : Value} {d : Demand} : d.IsMet root ↔ ∀ e, ¬d.Fails root e := by
  constructor
  · intro hmet e hfails
    cases hfails with
    | unsearchable hv hnot => exact hnot (hmet _ hv)
    | noTable hv hnot => exact hnot (hmet _ hv)
    | noTexts hv hnot _ => exact hnot (hmet _ hv)
    | unspeakable hv hnot _ => exact hnot (hmet _ hv)
    | unwritable hv hnot => exact Bool.eq_false_iff.mp hnot (hmet _ hv)
  · intro hnever
    cases d with
    | searchable part key =>
        intro v hv
        by_contra hnot
        exact hnever _ (.unsearchable hv hnot)
    | table part =>
        intro v hv
        by_contra hnot
        exact hnever _ (.noTable hv hnot)
    | texts part key =>
        intro v hv
        by_contra hnot
        cases hwritable : v.isWritable with
        | true => exact hnever _ (.noTexts hv hnot hwritable)
        | false => exact hnever _ (.unspeakable hv hnot hwritable)
    | writable part key =>
        intro v hv
        by_contra hnot
        exact hnever _ (.unwritable hv (Bool.eq_false_iff.mpr hnot))

theorem Fails.unique {root : Value} {d : Demand} {e e' : Error} (h : d.Fails root e)
    (h' : d.Fails root e') : e = e' := by
  cases h <;> cases h' <;> simp_all

end Demand

/-- The first of a row of demands that is not met, and its error. -/
inductive StopsAt (root : Value) : List Demand → Error → Prop where
  | here {d : Demand} {ds : List Demand} {e : Error} : d.Fails root e → StopsAt root (d :: ds) e
  | later {d : Demand} {ds : List Demand} {e : Error} : d.IsMet root → StopsAt root ds e →
      StopsAt root (d :: ds) e

section StopsAt

variable {root : Value} {ds ds' : List Demand} {e : Error}

theorem StopsAt.exists_fails (h : StopsAt root ds e) : ∃ d ∈ ds, d.Fails root e := by
  induction h with
  | here hfails => exact ⟨_, List.mem_cons_self, hfails⟩
  | later _ _ ih =>
      obtain ⟨d, hd, hfails⟩ := ih
      exact ⟨d, List.mem_cons_of_mem _ hd, hfails⟩

theorem stopsAt_append : StopsAt root (ds ++ ds') e ↔
    StopsAt root ds e ∨ (∀ d ∈ ds, d.IsMet root) ∧ StopsAt root ds' e := by
  induction ds with
  | nil =>
      refine ⟨fun h => .inr ⟨by simp, h⟩, ?_⟩
      rintro (h | ⟨-, h⟩)
      · cases h
      · exact h
  | cons d ds ih =>
      rw [List.cons_append, List.forall_mem_cons]
      constructor
      · intro h
        cases h with
        | here hfails => exact .inl (.here hfails)
        | later hmet h => exact (ih.mp h).imp (.later hmet) fun h => ⟨⟨hmet, h.1⟩, h.2⟩
      · rintro (h | ⟨⟨hmet, hall⟩, h⟩)
        · cases h with
          | here hfails => exact .here hfails
          | later hmet h => exact .later hmet (ih.mpr (.inl h))
        · exact .later hmet (ih.mpr (.inr ⟨hall, h⟩))

theorem stopsAt_singleton {d : Demand} : StopsAt root [d] e ↔ d.Fails root e := by
  constructor
  · intro h
    cases h with
    | here hfails => exact hfails
    | later _ h => cases h
  · exact .here

/-- A row of demands is met, or there is a first one that is not. -/
theorem forall_isMet_iff : (∀ d ∈ ds, d.IsMet root) ↔ ∀ e, ¬StopsAt root ds e := by
  induction ds with
  | nil => exact iff_of_true (by simp) (by rintro e ⟨⟩)
  | cons d ds ih =>
      rw [List.forall_mem_cons, ih]
      constructor
      · rintro ⟨hmet, hnever⟩ e h
        cases h with
        | here hfails => exact Demand.isMet_iff.mp hmet e hfails
        | later _ h => exact hnever e h
      · intro hnever
        have hmet : d.IsMet root := Demand.isMet_iff.mpr fun e h => hnever e (.here h)
        exact ⟨hmet, fun e h => hnever e (.later hmet h)⟩

end StopsAt

/-! ## Steps -/

/-- A step makes some demands: its errors are those of the first that is not met. -/
def Asks {α : Type} (root : Value) (ds : List Demand) (x : Except Error α) : Prop :=
  ∀ e, x = .error e ↔ StopsAt root ds e

namespace Asks

variable {α β : Type} {root : Value} {ds ds' : List Demand} {x : Except Error α}

theorem isOk_iff (h : Asks root ds x) : (∃ a, x = .ok a) ↔ ∀ d ∈ ds, d.IsMet root := by
  rw [forall_isMet_iff]
  constructor
  · rintro ⟨a, rfl⟩ e he
    cases (h e).mpr he
  · intro hnever
    cases x with
    | error e => exact absurd ((h e).mp rfl) (hnever e)
    | ok a => exact ⟨a, rfl⟩

/-- Steps in a row make their demands in a row. -/
theorem bind {f : α → Except Error β} (hx : Asks root ds x)
    (hf : ∀ a, x = .ok a → Asks root ds' (f a)) : Asks root (ds ++ ds') (x >>= f) := by
  intro e
  rw [bind_eq_error, stopsAt_append, hx e, ← hx.isOk_iff]
  refine or_congr_right ⟨?_, ?_⟩
  · rintro ⟨a, ha, he⟩
    exact ⟨⟨a, ha⟩, (hf a ha e).mp he⟩
  · rintro ⟨⟨a, ha⟩, he⟩
    exact ⟨a, ha, (hf a ha e).mpr he⟩

theorem of_ok {a : α} (h : x = .ok a) : Asks root [] x := by
  intro e
  rw [h]
  constructor <;> intro he <;> cases he

/-- A step makes one demand if it succeeds when that is met and reports how it fails. -/
theorem of_cases {d : Demand}
    (h : (d.IsMet root ∧ ∃ a, x = .ok a) ∨ ∃ e, d.Fails root e ∧ x = .error e) :
    Asks root [d] x := by
  intro e
  rw [stopsAt_singleton]
  rcases h with ⟨hmet, a, rfl⟩ | ⟨e', hfails, rfl⟩
  · exact iff_of_false (by simp) (Demand.isMet_iff.mp hmet e)
  · rw [Except.error.injEq]
    exact ⟨fun h => h ▸ hfails, hfails.unique⟩

end Asks

/-! ### Looking for a key -/

theorem holds_iff (part cs : List Char) : holds part cs = true ↔ part <:+: cs := by
  induction cs with
  | nil => rw [holds, List.isEmpty_iff, List.infix_nil]
  | cons c rest ih =>
      rw [holds, Bool.or_eq_true, List.isPrefixOf_iff_prefix, ih, List.infix_cons_iff]

theorem sameKey_text_iff (v : Value) (key : String) : v.sameKey (.text key) = true ↔ v = .text key := by
  cases v <;> simp [Value.sameKey, Value.number?]

/-- Searching fails unless the value can be searched, and finds what a table has. -/
theorem search_cases (key : String) (v : Value) :
    (IsSearchable key v ∧ search key v = .ok (v.get? key)) ∨
      ¬IsSearchable key v ∧ search key v = .error .sectionNotSearchable := by
  cases v with
  | map entries => exact .inl ⟨trivial, rfl⟩
  | text s =>
      simp only [search, IsSearchable]
      by_cases h : holds key.toList s.toList = true
      · rw [if_pos h]
        exact .inr ⟨not_not_intro ((holds_iff _ _).mp h), rfl⟩
      · rw [if_neg h]
        exact .inl ⟨fun hinfix => h ((holds_iff _ _).mpr hinfix), rfl⟩
  | list items =>
      have hany : items.any (·.sameKey (.text key)) = true ↔ .text key ∈ items := by
        simp only [List.any_eq_true, sameKey_text_iff, exists_eq_right]
      simp only [search, IsSearchable]
      by_cases h : items.any (·.sameKey (.text key)) = true
      · rw [if_pos h]
        exact .inr ⟨not_not_intro (hany.mp h), rfl⟩
      · rw [if_neg h]
        exact .inl ⟨fun hmem => h (hany.mpr hmem), rfl⟩
  | _ => exact .inr ⟨id, rfl⟩

theorem getD_get?_eq_given (root : Value) (part key : String) :
    ((root.get? part).getD (.map [])).get? key = given root part key := by
  unfold given
  cases root.get? part <;> rfl

theorem asks_search (root : Value) (part key : String) :
    Asks root [.searchable part key] (search key ((root.get? part).getD (.map []))) := by
  apply Asks.of_cases
  cases hv : root.get? part with
  | none => exact .inl ⟨by simp [Demand.IsMet, hv], _, rfl⟩
  | some v =>
      rw [Option.getD_some]
      rcases search_cases key v with ⟨hsearchable, h⟩ | ⟨hnot, h⟩
      · exact .inl ⟨by simpa [Demand.IsMet, hv] using hsearchable, _, h⟩
      · exact .inr ⟨_, .unsearchable hv hnot, h⟩

theorem eq_given_of_search {root : Value} {part key : String} {v? : Option Value}
    (h : search key ((root.get? part).getD (.map [])) = .ok v?) : v? = given root part key := by
  rcases search_cases key ((root.get? part).getD (.map [])) with ⟨-, hok⟩ | ⟨-, herror⟩
  · rw [hok, getD_get?_eq_given] at h
    exact (Except.ok.inj h).symm
  · rw [herror] at h
    cases h

/-! ### Wanting a table -/

theorem tableAt_cases (root : Value) (part : String) :
    ((∀ v ∈ root.get? part, IsTable v) ∧
        tableAt root part = .ok ((root.get? part).getD (.map []))) ∨
      ∃ v, root.get? part = some v ∧ ¬IsTable v ∧ tableAt root part = .error .sectionNotTable := by
  unfold tableAt
  cases root.get? part with
  | none => exact .inl ⟨by simp, rfl⟩
  | some v =>
      cases v with
      | map entries => exact .inl ⟨by simp [IsTable], rfl⟩
      | _ => exact .inr ⟨_, rfl, by simp [IsTable], rfl⟩

theorem asks_tableAt (root : Value) (part : String) :
    Asks root [.table part] (tableAt root part) := by
  apply Asks.of_cases
  rcases tableAt_cases root part with ⟨hmet, h⟩ | ⟨v, hv, hnot, h⟩
  · exact .inl ⟨hmet, _, h⟩
  · exact .inr ⟨_, .noTable hv hnot, h⟩

theorem get?_eq_given_of_tableAt {root t : Value} {part : String} (h : tableAt root part = .ok t)
    (key : String) : t.get? key = given root part key := by
  rcases tableAt_cases root part with ⟨-, hok⟩ | ⟨v, -, -, herror⟩
  · rw [hok] at h
    rw [← Except.ok.inj h, getD_get?_eq_given]
  · rw [herror] at h
    cases h

/-! ### Wanting a setting -/

/-- A setting that a document does not give is its default. -/
def orDefault {α : Type} (default : α) (read : Value → Except Error α) :
    Option Value → Except Error α
  | none => .ok default
  | some v => read v

/-- A setting is what the document gives, and its default if it gives nothing. -/
def IsSetting {α : Type} (default : α) (IsReading : Value → α → Prop) : Option Value → α → Prop
  | none, x => x = default
  | some v, x => IsReading v x

theorem isSetting_of_orDefault {α : Type} {default x : α} {read : Value → Except Error α}
    {IsReading : Value → α → Prop} (hread : ∀ v, read v = .ok x → IsReading v x)
    {v? : Option Value} (h : orDefault default read v? = .ok x) :
    IsSetting default IsReading v? x := by
  cases v? with
  | none => exact (Except.ok.inj h).symm
  | some v => exact hread v h

theorem texts?_eq_some_iff {items : List Value} {ss : List String} :
    texts? items = some ss ↔ items = ss.map .text := by
  induction items generalizing ss with
  | nil => cases ss <;> simp [texts?]
  | cons v rest ih =>
      cases v with
      | text s =>
          cases ss with
          | nil => simp [texts?]
          | cons s' ss => simp [texts?, ih, and_comm]
      | _ => cases ss <;> simp [texts?]

theorem textList_cases (key : String) (v : Value) :
    (∃ ss, v = .list (ss.map .text) ∧ textList key v = .ok ss) ∨
      ¬IsTexts v ∧ textList key v = .error ((Error.setting key v).about [v]) := by
  cases v with
  | list items =>
      cases hss : texts? items with
      | some ss =>
          exact .inl ⟨ss, by rw [texts?_eq_some_iff.mp hss], by simp only [textList, hss]⟩
      | none =>
          refine .inr ⟨?_, by simp only [textList, hss]⟩
          rintro ⟨ss, h⟩
          rw [texts?_eq_some_iff.mpr (Value.list.inj h)] at hss
          cases hss
  | _ => exact .inr ⟨by simp [IsTexts], rfl⟩

theorem eq_list_of_textList {key : String} {v : Value} {ss : List String}
    (h : textList key v = .ok ss) : v = .list (ss.map .text) := by
  rcases textList_cases key v with ⟨ss', hv, hok⟩ | ⟨-, herror⟩
  · rw [hok] at h
    rw [hv, Except.ok.inj h]
  · rw [herror] at h
    cases h

theorem asks_texts (root : Value) (part key : String) (default : List String) :
    Asks root [.texts part key]
      (orDefault default (textList (part ++ "." ++ key)) (given root part key)) := by
  apply Asks.of_cases
  cases hv : given root part key with
  | none => exact .inl ⟨by simp [Demand.IsMet, hv], _, rfl⟩
  | some v =>
      rw [orDefault]
      rcases textList_cases (part ++ "." ++ key) v with ⟨ss, hss, h⟩ | ⟨hnot, h⟩
      · exact .inl ⟨by simpa [Demand.IsMet, hv] using ⟨ss, hss⟩, _, h⟩
      · refine .inr ⟨_, ?_, h⟩
        unfold Error.about
        cases hwritable : v.isWritable with
        | true => simpa [hwritable] using Demand.Fails.noTexts hv hnot hwritable
        | false => simpa [hwritable] using Demand.Fails.unspeakable hv hnot hwritable

theorem asks_written (root : Value) (part key : String) (default : String) :
    Asks root [.writable part key] (orDefault default Value.written (given root part key)) := by
  apply Asks.of_cases
  cases hv : given root part key with
  | none => exact .inl ⟨by simp [Demand.IsMet, hv], _, rfl⟩
  | some v =>
      rw [orDefault, Value.written]
      cases hwritable : v.isWritable with
      | true => exact .inl ⟨by simpa [Demand.IsMet, hv] using hwritable, _, if_pos rfl⟩
      | false => exact .inr ⟨_, .unwritable hv hwritable, if_neg Bool.false_ne_true⟩

/-! ## Settings of a document -/

/-- Reading a root table is a row of steps. -/
theorem ofValue_eq (root : Value) :
    ofValue root = (do
      let given? ← search "features" ((root.get? "highlight").getD (.map []))
      let features ← orDefault ({} : Settings).features (textList "highlight.features") given?
      let outline ← tableAt root "outline"
      let group ← orDefault ({} : Settings).group Value.written (outline.get? "group")
      let headingTypes ← orDefault ({} : Settings).headingTypes (textList "outline.heading_types")
        (outline.get? "heading_types")
      let parser ← tableAt root "parser"
      .ok {
        features, group, headingTypes
        blockLanguage := (parser.get? "block_language").getD ({} : Settings).blockLanguage
        inlineLanguage := (parser.get? "inline_language").getD ({} : Settings).inlineLanguage }) := by
  unfold ofValue
  -- both cases of a setting that may be absent go on with all steps after it
  refine bind_congr fun given? => ?_
  cases given? <;> refine bind_congr fun features => bind_congr fun outline => ?_
  all_goals
    cases outline.get? "group" <;> refine bind_congr fun group => ?_
    all_goals cases outline.get? "heading_types" <;> rfl

/-- What reading asks of a root table, in order. -/
def demands : List Demand := [
  .searchable "highlight" "features", .texts "highlight" "features", .table "outline",
  .writable "outline" "group", .texts "outline" "heading_types", .table "parser"]

theorem asks_ofValue (root : Value) : Asks root demands (ofValue root) := by
  rw [ofValue_eq]
  refine (asks_search root "highlight" "features").bind fun given? hgiven => ?_
  rw [eq_given_of_search hgiven]
  refine (asks_texts root "highlight" "features" _).bind fun features _ => ?_
  refine (asks_tableAt root "outline").bind fun outline houtline => ?_
  rw [get?_eq_given_of_tableAt houtline, get?_eq_given_of_tableAt houtline]
  refine (asks_written root "outline" "group" _).bind fun group _ => ?_
  refine (asks_texts root "outline" "heading_types" _).bind fun headingTypes _ => ?_
  exact (asks_tableAt root "parser").bind fun parser _ => .of_ok rfl

/-- The settings are what a root table gives, and the defaults where it gives nothing. -/
structure Follows (root : Value) (s : Settings) : Prop where
  features : IsSetting ({} : Settings).features (fun v ss => v = .list (ss.map .text))
    (given root "highlight" "features") s.features
  group : IsSetting ({} : Settings).group (fun v t => v.toText = t)
    (given root "outline" "group") s.group
  headingTypes : IsSetting ({} : Settings).headingTypes (fun v ss => v = .list (ss.map .text))
    (given root "outline" "heading_types") s.headingTypes
  blockLanguage : s.blockLanguage =
    (given root "parser" "block_language").getD ({} : Settings).blockLanguage
  inlineLanguage : s.inlineLanguage =
    (given root "parser" "inline_language").getD ({} : Settings).inlineLanguage

theorem toText_of_written {v : Value} {t : String} (h : v.written = .ok t) : v.toText = t := by
  unfold Value.written at h
  split at h
  · exact Except.ok.inj h
  · cases h

theorem follows_of_ofValue {root : Value} {s : Settings} (h : ofValue root = .ok s) :
    Follows root s := by
  rw [ofValue_eq] at h
  obtain ⟨given?, hgiven, h⟩ := bind_eq_ok h
  obtain ⟨features, hfeatures, h⟩ := bind_eq_ok h
  obtain ⟨outline, houtline, h⟩ := bind_eq_ok h
  obtain ⟨group, hgroup, h⟩ := bind_eq_ok h
  obtain ⟨headingTypes, htypes, h⟩ := bind_eq_ok h
  obtain ⟨parser, hparser, h⟩ := bind_eq_ok h
  rw [eq_given_of_search hgiven] at hfeatures
  rw [get?_eq_given_of_tableAt houtline] at hgroup htypes
  cases h
  exact {
    features := isSetting_of_orDefault (fun _ => eq_list_of_textList) hfeatures
    group := isSetting_of_orDefault (fun _ => toText_of_written) hgroup
    headingTypes := isSetting_of_orDefault (fun _ => eq_list_of_textList) htypes
    blockLanguage := by rw [get?_eq_given_of_tableAt hparser]
    inlineLanguage := by rw [← get?_eq_given_of_tableAt hparser] }

/-! ## Loading -/

/-- Nothing but the shape of a setting can be wrong: the sections are tables, and every number that
may have to be written can be. -/
structure IsReportable (root : Value) : Prop where
  tables : ∀ part ∈ ["highlight", "outline", "parser"], ∀ v ∈ root.get? part, IsTable v
  writable : ∀ part key, (part, key) ∈ [("highlight", "features"), ("outline", "group"),
    ("outline", "heading_types")] → ∀ v ∈ given root part key, v.isWritable = true

theorem IsTable.isSearchable {v : Value} (h : IsTable v) (key : String) : IsSearchable key v := by
  obtain ⟨entries, rfl⟩ := h
  exact trivial

theorem IsReportable.setting_of_stopsAt {root : Value} {e : Error} (hroot : IsReportable root)
    (h : StopsAt root demands e) : ∃ part key v, .texts part key ∈ demands ∧
      given root part key = some v ∧ ¬IsTexts v ∧ e = .setting (part ++ "." ++ key) v := by
  obtain ⟨d, hd, hfails⟩ := h.exists_fails
  cases hfails with
  | @unsearchable part key v hv hnot =>
      obtain ⟨rfl, rfl⟩ : part = "highlight" ∧ key = "features" := by simpa [demands] using hd
      exact absurd ((hroot.tables _ (by simp) v hv).isSearchable _) hnot
  | @noTable part v hv hnot =>
      have hpart : part = "outline" ∨ part = "parser" := by simpa [demands] using hd
      exact absurd (hroot.tables part (by simp [hpart]) v hv) hnot
  | noTexts hv hnot _ => exact ⟨_, _, _, hd, hv, hnot, rfl⟩
  | @unspeakable part key v hv _ hunwritable =>
      have hsetting : part = "highlight" ∧ key = "features" ∨
          part = "outline" ∧ key = "heading_types" := by simpa [demands] using hd
      have hwritable : v.isWritable = true := by
        rcases hsetting with ⟨rfl, rfl⟩ | ⟨rfl, rfl⟩ <;> exact hroot.writable _ _ (by simp) v hv
      exact absurd hwritable (Bool.eq_false_iff.mp hunwritable)
  | @unwritable part key v hv hunwritable =>
      obtain ⟨rfl, rfl⟩ : part = "outline" ∧ key = "group" := by simpa [demands] using hd
      have hwritable := hroot.writable _ _ (by simp) v hv
      exact absurd hwritable (Bool.eq_false_iff.mp hunwritable)

theorem load_eq {files : Files} {path : Option Path} {p : Path} {content : Bytes} {text : String}
    {root : Value}
    (hp : firstPresent files (path.toList ++ [Path.ofText fileName]) = .ok (some p))
    (hcontent : files.read p = .ok content) (htext : content.toText? = some text)
    (hroot : Toml.read text = .ok root) :
    load files path = (do
      let settings ← ofValue root
      .ok { settings with found := some p }) := by
  have hof : ofBytes content = ofValue root := by
    unfold ofBytes
    simp only [htext, hroot]
    rfl
  unfold load
  rw [hp, ← hof]
  show (files.read p >>= fun content => ofBytes content >>= _) = _
  rw [hcontent]
  rfl

/-- **Reading settings stops at the first demand that a document does not meet.** If it meets them
all, the settings are loaded: those that the document gives, the lists of texts among them as they
are, and the defaults for what is absent. A document whose sections are tables and whose numbers can
be written is at fault only by a setting that is not a list of texts, and that is what is reported.
A section of the wrong kind or a number too long breaks the reading itself instead. -/
theorem load_reports_or_breaks (files : Files) (path : Option Path) (p : Path) (content : Bytes)
    (text : String) (root : Value)
    (hp : firstPresent files (path.toList ++ [Path.ofText fileName]) = .ok (some p))
    (hcontent : files.read p = .ok content) (htext : content.toText? = some text)
    (hroot : Toml.read text = .ok root) :
    ((∃ s, load files path = .ok s) ↔ ∀ d ∈ demands, d.IsMet root) ∧
      (∀ s, load files path = .ok s → s.found = some p ∧ Follows root s) ∧
      (∀ e, load files path = .error e ↔ StopsAt root demands e) ∧
      (IsReportable root → ∀ e, load files path = .error e →
        ∃ part key v, .texts part key ∈ demands ∧ given root part key = some v ∧ ¬IsTexts v ∧
          e = .setting (part ++ "." ++ key) v) := by
  have heq := load_eq hp hcontent htext hroot
  have hasks : Asks root demands (load files path) := by
    rw [heq]
    exact (asks_ofValue root).bind fun s _ => .of_ok rfl
  refine ⟨hasks.isOk_iff, ?_, hasks, fun h e he => h.setting_of_stopsAt ((hasks e).mp he)⟩
  intro s hs
  rw [heq] at hs
  obtain ⟨settings, hsettings, hs⟩ := bind_eq_ok hs
  have hfollows : Follows root settings := follows_of_ofValue hsettings
  cases hs
  exact ⟨rfl, { hfollows with }⟩

/-- A file system with nothing but a settings file. -/
def settingsFiles (text : String) : Files := fun p =>
  if p = Path.ofText fileName then .file (Bytes.ofText text) else .missing .notFound

theorem load_number_for_section :
    load (settingsFiles "outline = 1\n") none = .error .sectionNotTable := by
  have h := load_reports_or_breaks (settingsFiles "outline = 1\n") none (Path.ofText fileName)
    (Bytes.ofText "outline = 1\n") "outline = 1\n" (.map [(.text "outline", .int 1)])
    (by rfl) (by rfl) (by cbv) (by cbv)
  refine (h.2.2.1 _).mpr (.later ?_ (.later ?_ (.here (.noTable rfl ?_))))
  · rintro v ⟨⟩
  · rintro v ⟨⟩
  · rintro ⟨entries, ⟨⟩⟩

end Limn.Settings
