import Limn.Proofs.Yaml.Scan

/-! # Block documents

The values that snapshots are made of: mappings from words to scalars, to mappings and to rows of
mappings. The scanner turns the text of such a value into its tokens (`tokens_write`), with the
indentation of every line accounted for, and the text holds only characters that it may.
-/

namespace Limn.Yaml

open Writer

theorem lt_deeper (indent : Nat) : indent < deeper indent := by
  simp [deeper]

/-! ## Shape -/

mutual

/-- A value that may stand after a key. -/
def Tidy : Value → Prop
  | .map es => es ≠ [] ∧ TidyEntries es
  | .list items => items ≠ [] ∧ TidyItems items
  | v => IsLeaf v

/-- Rows of mappings. -/
def TidyItems : List Value → Prop
  | [] => True
  | v :: rest => TidyItem v ∧ TidyItems rest

/-- A mapping in a row. -/
def TidyItem : Value → Prop
  | .map es => es ≠ [] ∧ TidyEntries es
  | _ => False

/-- Entries under different words. -/
def TidyEntries : List (Value × Value) → Prop
  | [] => True
  | (k, v) :: rest =>
    (∃ word, k = .text word ∧ IsKeyWord word ∧ ∀ e ∈ rest, e.1 ≠ .text word) ∧
      Tidy v ∧ TidyEntries rest

end

theorem tidyItem_cases {v : Value} (h : TidyItem v) :
    ∃ es, v = .map es ∧ es ≠ [] ∧ TidyEntries es := by
  cases v with
  | map es =>
      rw [TidyItem] at h
      exact ⟨es, rfl, h⟩
  | _ => exact absurd h (by simp [TidyItem])

/-- Properties of values, of rows and of entries that the whole has if its parts have them. -/
structure Inherits (onValue : Value → Prop) (onItems : List Value → Prop)
    (onEntries : List (Value × Value) → Prop) : Prop where
  leaf {v} : IsLeaf v → onValue v
  map {es} : es ≠ [] → TidyEntries es → onEntries es → onValue (.map es)
  list {items} : items ≠ [] → TidyItems items → onItems items → onValue (.list items)
  noItem : onItems []
  item {es items} : es ≠ [] → TidyEntries es → onEntries es → TidyItems items → onItems items →
    onItems (.map es :: items)
  noEntry : onEntries []
  entry {word v es} : IsKeyWord word → (∀ e ∈ es, e.1 ≠ .text word) → Tidy v → onValue v →
    TidyEntries es → onEntries es → onEntries ((.text word, v) :: es)

namespace Inherits

variable {onValue : Value → Prop} {onItems : List Value → Prop}
  {onEntries : List (Value × Value) → Prop}

mutual

theorem value (h : Inherits onValue onItems onEntries) : ∀ {v : Value}, Tidy v → onValue v
  | .map es, hv => by
      rw [Tidy] at hv
      exact h.map hv.1 hv.2 (h.entries hv.2)
  | .list items, hv => by
      rw [Tidy] at hv
      exact h.list hv.1 hv.2 (h.items hv.2)
  | .text _, hv | .halved _, hv | .int _, hv | .bool _, hv => h.leaf (by simpa [Tidy] using hv)
  | .null, hv | .float _, hv | .date _, hv | .clock _, hv | .moment _, hv | .octets _, hv
  | .pair _ _, hv | .set _, hv => absurd hv (by simp [Tidy, IsLeaf])

theorem items (h : Inherits onValue onItems onEntries) :
    ∀ {items : List Value}, TidyItems items → onItems items
  | [], _ => h.noItem
  | v :: items, hitems => by
      rw [TidyItems] at hitems
      obtain ⟨es, rfl, hne, hes⟩ := tidyItem_cases hitems.1
      exact h.item hne hes (h.entries hes) hitems.2 (h.items hitems.2)

/-- **Induction over tidy entries**, their values and their rows. -/
theorem entries (h : Inherits onValue onItems onEntries) :
    ∀ {es : List (Value × Value)}, TidyEntries es → onEntries es
  | [], _ => h.noEntry
  | (key, v) :: es, hes => by
      rw [TidyEntries] at hes
      obtain ⟨⟨word, rfl, hk, hdistinct⟩, hv, hes⟩ := hes
      exact h.entry hk hdistinct hv (h.value hv) hes (h.entries hes)

end

end Inherits

/-! ## Tokens -/

/-- The token of a key. -/
def keyToken : Value → Token
  | .text word => .scalar word true
  | _ => .scalar "" true

mutual

/-- The tokens of a value after a key of a mapping at a column. -/
def valueTokens (indent : Nat) : Value → List Token
  | .map es => .blockMappingStart :: entryTokens (deeper indent) es ++ [.blockEnd]
  | .list items => itemTokens indent items
  | v => [leafToken (deeper indent) v]

/-- The tokens of the items of a row, in the column of the mapping around it. -/
def itemTokens (indent : Nat) : List Value → List Token
  | [] => []
  | v :: rest => .blockEntry :: inPlaceTokens (deeper indent) v ++ itemTokens indent rest

/-- The tokens of a mapping in a row. -/
def inPlaceTokens (indent : Nat) : Value → List Token
  | .map es => .blockMappingStart :: entryTokens indent es ++ [.blockEnd]
  | _ => []

/-- The tokens of the entries of a mapping. -/
def entryTokens (indent : Nat) : List (Value × Value) → List Token
  | [] => []
  | (k, v) :: rest =>
    .key :: keyToken k :: .value :: valueTokens indent v ++ entryTokens indent rest

end

theorem valueTokens_leaf {indent : Nat} {v : Value} (hv : IsLeaf v) :
    valueTokens indent v = [leafToken (deeper indent) v] := by
  cases v with
  | text s => simp [valueTokens]
  | halved h => simp [valueTokens]
  | int n => simp [valueTokens]
  | bool b => simp [valueTokens]
  | _ => exact absurd hv (by simp [IsLeaf])

/-! ## Text -/

/-- The characters of the entries of a mapping. -/
def entryText (indent : Nat) (es : List (Value × Value)) : List Char :=
  (lines indent (entryLines indent es)).toList

/-- The characters of the items of a row. -/
def itemText (indent : Nat) (items : List Value) : List Char :=
  (lines indent (itemLines indent items)).toList

/-- The characters after a key. -/
def valueText (indent column : Nat) (v : Value) : List Char :=
  (afterKey indent column v).toList

theorem lines_cons {indent : Nat} {p q : String} {ps : List String} :
    (lines indent (p :: q :: ps)).toList =
      p.toList ++ (lineStart indent ++ (lines indent (q :: ps)).toList) := by
  rw [lines, String.intercalate_cons_cons]
  simp [lines]

theorem entryLines_cons {indent : Nat} {word : String} {v : Value} {rest : List (Value × Value)}
    (hk : IsKeyWord word) : ∃ line : String,
      entryLines indent ((.text word, v) :: rest) = line :: entryLines indent rest ∧
        line.toList =
          word.toList ++ ':' :: valueText indent (indent + word.toList.length + 1) v := by
  have hkey := toList_key hk (deeper indent) indent
  refine ⟨_, by rw [entryLines, if_pos (isSimpleKey_of_isKeyWord hk)], ?_⟩
  rw [String.toList_append, String.toList_append, hkey, ← String.length_toList, hkey, valueText]
  simp

theorem entryText_singleton {indent : Nat} {word : String} {v : Value} (hk : IsKeyWord word) :
    entryText indent [(.text word, v)] =
      word.toList ++ ':' :: valueText indent (indent + word.toList.length + 1) v := by
  obtain ⟨line, hlines, hline⟩ := @entryLines_cons indent word v [] hk
  rw [entryText, hlines, ← hline]
  simp [entryLines, lines]

theorem entryText_cons {indent : Nat} {word : String} {v : Value} {e : Value × Value}
    {rest : List (Value × Value)} (hk : IsKeyWord word) :
    entryText indent ((.text word, v) :: e :: rest) = word.toList ++ ':' ::
      (valueText indent (indent + word.toList.length + 1) v ++
        (lineStart indent ++ entryText indent (e :: rest))) := by
  obtain ⟨line, hlines, hline⟩ := @entryLines_cons indent word v (e :: rest) hk
  obtain ⟨q, ps, hq⟩ : ∃ q ps, entryLines indent (e :: rest) = q :: ps := ⟨_, _, by rw [entryLines]⟩
  rw [entryText, hlines, entryText, hq, lines_cons, hline]
  simp

theorem valueText_leaf {indent column : Nat} {v : Value} (hv : IsLeaf v) :
    valueText indent column v = ' ' :: (scalar ⟨deeper indent, true⟩ (column + 1) v).toList := by
  cases v with
  | text s => simp [valueText, afterKey]
  | halved h => simp [valueText, afterKey]
  | int n => simp [valueText, afterKey]
  | bool b => simp [valueText, afterKey]
  | _ => exact absurd hv (by simp [IsLeaf])

theorem valueText_map {indent column : Nat} {es : List (Value × Value)} (hes : es ≠ []) :
    valueText indent column (.map es) =
      lineStart (deeper indent) ++ entryText (deeper indent) es := by
  obtain ⟨e, es, rfl⟩ := List.exists_cons_of_ne_nil hes
  simp [valueText, afterKey, entryText]

theorem valueText_list {indent column : Nat} {items : List Value} (hitems : items ≠ []) :
    valueText indent column (.list items) = lineStart indent ++ itemText indent items := by
  obtain ⟨v, items, rfl⟩ := List.exists_cons_of_ne_nil hitems
  simp [valueText, afterKey, itemText]

theorem itemText_singleton {indent : Nat} {es : List (Value × Value)} (hes : es ≠ []) :
    itemText indent [.map es] = '-' :: ' ' :: entryText (deeper indent) es := by
  obtain ⟨e, es, rfl⟩ := List.exists_cons_of_ne_nil hes
  simp [itemText, itemLines, lines, inPlace, entryText]

theorem itemText_cons {indent : Nat} {es : List (Value × Value)} {v : Value} {rest : List Value}
    (hes : es ≠ []) : itemText indent (.map es :: v :: rest) =
      '-' :: ' ' :: (entryText (deeper indent) es ++
        (lineStart indent ++ itemText indent (v :: rest))) := by
  obtain ⟨e, es, rfl⟩ := List.exists_cons_of_ne_nil hes
  obtain ⟨q, ps, hq⟩ : ∃ q ps, itemLines indent (v :: rest) = q :: ps := ⟨_, _, by rw [itemLines]⟩
  rw [itemText, itemLines, hq, lines_cons, itemText, hq]
  simp [inPlace, entryText]

theorem startsLine_entryText (indent : Nat) {es : List (Value × Value)} (hne : es ≠ [])
    (hes : TidyEntries es) (more : List Char) : StartsLine (entryText indent es ++ more) := by
  obtain ⟨⟨k, v⟩, rest, rfl⟩ := List.exists_cons_of_ne_nil hne
  obtain ⟨⟨word, rfl, hk, -⟩, -, -⟩ := hes
  obtain ⟨line, hlines, hline⟩ := @entryLines_cons indent word v rest hk
  obtain ⟨x, w, hx⟩ := List.exists_cons_of_ne_nil hk.plainWord.word.1
  refine .inr (.inl ?_)
  cases rest with
  | nil =>
      rw [entryText_singleton hk, hx]
      exact ⟨x, _, rfl, hk.2.1 x (by simp [hx])⟩
  | cons e rest =>
      rw [entryText_cons hk, hx]
      exact ⟨x, _, rfl, hk.2.1 x (by simp [hx])⟩

theorem startsLine_itemText (indent : Nat) {items : List Value} (hne : items ≠ [])
    (hitems : TidyItems items) (more : List Char) : StartsLine (itemText indent items ++ more) := by
  obtain ⟨v, rest, rfl⟩ := List.exists_cons_of_ne_nil hne
  rw [TidyItems] at hitems
  obtain ⟨es, rfl, hes, -⟩ := tidyItem_cases hitems.1
  refine .inr (.inr ?_)
  cases rest with
  | nil =>
      rw [itemText_singleton hes]
      exact ⟨_, rfl⟩
  | cons w rest =>
      rw [itemText_cons hes]
      exact ⟨_, rfl⟩

/-- After the colon of a key comes a blank or a line end. -/
theorem isGap_valueText {indent column : Nat} {v : Value} (hv : Tidy v) (more : List Char) :
    isGap ((valueText indent column v ++ more).headD endMark) = true := by
  cases v with
  | map es =>
      rw [Tidy] at hv
      rw [valueText_map hv.1]
      rfl
  | list items =>
      rw [Tidy] at hv
      rw [valueText_list hv.1]
      rfl
  | _ =>
      rw [Tidy] at hv
      · rw [valueText_leaf hv]
        rfl
      all_goals simp

/-! ## Scanning -/

open Scan hiding deeper

/-- After the colon of a key at a column, the value is scanned into its tokens, up to the first
token of a line in or outside the mapping. -/
def ScansValue (v : Value) : Prop :=
  ∀ {c : Cursor} {ts : List Token} {k j column : Nat} {outer : List Int} {rest : List Char},
    c.Holds (valueText k column v ++ (lineStart j ++ rest)) → k < c.column → k < column → j ≤ k →
    StartsLine rest →
      ∃ s c', Leads (afterColon c ts k outer) s ∧ Poised s c' (ts ++ valueTokens k v) k outer ∧
        c'.Holds rest ∧ c'.column = j

/-- From the first dash on, the items of a row are scanned into their tokens. -/
def ScansItems (items : List Value) : Prop :=
  ∀ {s : Scan} {c : Cursor} {ts : List Token} {k j : Nat} {outer : List Int} {rest : List Char},
    Poised s c ts k outer → c.Holds (itemText k items ++ (lineStart j ++ rest)) → c.column = k →
    j ≤ k → StartsLine rest →
      ∃ s' c', Leads s s' ∧ Poised s' c' (ts ++ itemTokens k items) k outer ∧ c'.Holds rest ∧
        c'.column = j

/-- From the first key on, which may open the mapping, its entries are scanned into their tokens. -/
def ScansEntries (es : List (Value × Value)) : Prop :=
  ∀ {s : Scan} {c : Cursor} {ts : List Token} {indent : Int} {k j : Nat} {outer : List Int}
    {rest : List Char}, Poised s c ts indent outer →
    c.Holds (entryText k es ++ (lineStart j ++ rest)) → c.column = k → indent ≤ k → j ≤ k →
    StartsLine rest →
      ∃ s' c', Leads s s' ∧ Poised s' c'
          (ts ++ (if indent < k then [.blockMappingStart] else []) ++ entryTokens k es) k
          (if indent < k then indent :: outer else outer) ∧
        c'.Holds rest ∧ c'.column = j

theorem scansValue_leaf {v : Value} (hv : IsLeaf v) : ScansValue v := by
  intro c ts k j column outer rest hc hcol hcolumn hj hrest
  rw [valueText_leaf hv] at hc
  rw [valueTokens_leaf hv]
  exact leads_leaf hv (by simp [deeper]; omega) hc hcol hj hrest

/-- A mapping that is opened closes after its entries. -/
theorem ScansEntries.opened {es : List (Value × Value)} (hes : ScansEntries es) {s : Scan}
    {c : Cursor} {ts : List Token} {k j : Nat} {outer : List Int} {rest : List Char}
    (h : Poised s c ts k outer) (hc : c.Holds (entryText (deeper k) es ++ (lineStart j ++ rest)))
    (hcol : c.column = deeper k) (hj : j ≤ k) (hrest : StartsLine rest) :
    ∃ s' c', Leads s s' ∧ Poised s' c'
        (ts ++ .blockMappingStart :: entryTokens (deeper k) es ++ [.blockEnd]) k outer ∧
      c'.Holds rest ∧ c'.column = j := by
  -- Its column lies to the right of the mapping around it, and what follows does not.
  have hdeeper := lt_deeper k
  have hopen : (k : Int) < (deeper k : Nat) := Int.ofNat_lt.2 hdeeper
  obtain ⟨s', c', hleads, hpoised, hc', hcol'⟩ := hes h hc hcol (by omega) (by omega) hrest
  rw [if_pos hopen, if_pos hopen] at hpoised
  refine ⟨s', c', hleads, ?_, hc', hcol'⟩
  simpa using hpoised.close (by omega)

theorem scansValue_map {es : List (Value × Value)} (hne : es ≠ []) (htidy : TidyEntries es)
    (hes : ScansEntries es) : ScansValue (.map es) := by
  intro c ts k j column outer rest hc hcol hcolumn hj hrest
  have hlines := startsLine_entryText (deeper k) hne htidy (lineStart j ++ rest)
  rw [valueText_map hne, List.append_assoc] at hc
  obtain ⟨c', hpoised, hc', hcol'⟩ := @poised_line c ts k outer _ _ hc hlines.head
  obtain ⟨s, c'', hleads, hpoised', hend⟩ := hes.opened hpoised hc' hcol' hj hrest
  refine ⟨s, c'', hleads, ?_, hend⟩
  simpa [valueTokens] using hpoised'

theorem scansValue_list {items : List Value} (hne : items ≠ []) (htidy : TidyItems items)
    (hitems : ScansItems items) : ScansValue (.list items) := by
  intro c ts k j column outer rest hc hcol hcolumn hj hrest
  have hlines := startsLine_itemText k hne htidy (lineStart j ++ rest)
  rw [valueText_list hne, List.append_assoc] at hc
  obtain ⟨c', hpoised, hc', hcol'⟩ := @poised_line c ts k outer _ _ hc hlines.head
  rw [valueTokens]
  exact hitems hpoised hc' hcol' hj hrest

/-- The first item of a row, up to what follows it. -/
theorem ScansEntries.item {es : List (Value × Value)} (hne : es ≠ []) (htidy : TidyEntries es)
    (hes : ScansEntries es) {s : Scan} {c : Cursor} {ts : List Token} {k j : Nat}
    {outer : List Int} {rest : List Char} (h : Poised s c ts k outer)
    (hc : c.Holds ('-' :: ' ' :: (entryText (deeper k) es ++ (lineStart j ++ rest))))
    (hcol : c.column = k) (hj : j ≤ k) (hrest : StartsLine rest) :
    ∃ s' c', Leads s s' ∧
      Poised s' c' (ts ++ .blockEntry :: inPlaceTokens (deeper k) (.map es)) k outer ∧
      c'.Holds rest ∧ c'.column = j := by
  have hlines := startsLine_entryText (deeper k) hne htidy (lineStart j ++ rest)
  obtain ⟨s₁, c₁, hleads₁, hpoised₁, hc₁, hcol₁⟩ := leads_dash h hcol hc hlines.head
  obtain ⟨s₂, c₂, hleads₂, hpoised₂, hend⟩ := hes.opened hpoised₁ hc₁ hcol₁ hj hrest
  refine ⟨s₂, c₂, hleads₁.trans hleads₂, ?_, hend⟩
  simpa [inPlaceTokens] using hpoised₂

theorem scansItems_singleton {es : List (Value × Value)} (hne : es ≠ []) (htidy : TidyEntries es)
    (hes : ScansEntries es) : ScansItems [.map es] := by
  intro s c ts k j outer rest h hc hcol hj hrest
  rw [itemText_singleton hne] at hc
  simpa [itemTokens] using hes.item hne htidy h hc hcol hj hrest

theorem scansItems_cons {es : List (Value × Value)} {v : Value} {items : List Value} (hne : es ≠ [])
    (htidy : TidyEntries es) (hes : ScansEntries es) (htidy' : TidyItems (v :: items))
    (hitems : ScansItems (v :: items)) : ScansItems (.map es :: v :: items) := by
  intro s c ts k j outer rest h hc hcol hj hrest
  have hlines := startsLine_itemText k (by simp) htidy' (lineStart j ++ rest)
  rw [itemText_cons hne] at hc
  simp only [List.cons_append, List.append_assoc] at hc
  obtain ⟨s₁, c₁, hleads₁, hpoised₁, hc₁, hcol₁⟩ :=
    hes.item hne htidy h hc hcol (Nat.le_refl k) hlines
  obtain ⟨s₂, c₂, hleads₂, hpoised₂, hend⟩ := hitems hpoised₁ hc₁ hcol₁ hj hrest
  refine ⟨s₂, c₂, hleads₁.trans hleads₂, ?_, hend⟩
  simpa [itemTokens] using hpoised₂

/-- A key and its value, up to what follows them. -/
theorem ScansValue.entry {word : String} {v : Value} (hk : IsKeyWord word) (htidy : Tidy v)
    (hv : ScansValue v) {s : Scan} {c : Cursor} {ts : List Token} {indent : Int} {k j : Nat}
    {outer : List Int} {rest : List Char} (h : Poised s c ts indent outer)
    (hc : c.Holds (word.toList ++ ':' ::
      (valueText k (k + word.toList.length + 1) v ++ (lineStart j ++ rest))))
    (hcol : c.column = k) (hindent : indent ≤ k) (hj : j ≤ k) (hrest : StartsLine rest) :
    ∃ s' c', Leads s s' ∧ Poised s' c'
        (ts ++ (if indent < k then [.blockMappingStart] else []) ++
          .key :: keyToken (.text word) :: .value :: valueTokens k v) k
        (if indent < k then indent :: outer else outer) ∧
      c'.Holds rest ∧ c'.column = j := by
  obtain ⟨c₁, hleads₁, hc₁, hcol₁⟩ :=
    leads_key h (by omega) hk hc (isGap_valueText htidy (lineStart j ++ rest))
  rw [hcol] at hleads₁ hcol₁
  obtain ⟨s₂, c₂, hleads₂, hpoised₂, hend⟩ := hv hc₁ (by omega) (by omega) hj hrest
  refine ⟨s₂, c₂, hleads₁.trans hleads₂, ?_, hend⟩
  simpa [keyToken] using hpoised₂

theorem scansEntries_singleton {word : String} {v : Value} (hk : IsKeyWord word) (htidy : Tidy v)
    (hv : ScansValue v) : ScansEntries [(.text word, v)] := by
  intro s c ts indent k j outer rest h hc hcol hindent hj hrest
  rw [entryText_singleton hk] at hc
  simp only [List.cons_append, List.append_assoc] at hc
  simpa [entryTokens] using hv.entry hk htidy h hc hcol hindent hj hrest

theorem scansEntries_cons {word : String} {v : Value} {e : Value × Value}
    {es : List (Value × Value)} (hk : IsKeyWord word) (htidy : Tidy v) (hv : ScansValue v)
    (htidy' : TidyEntries (e :: es)) (hes : ScansEntries (e :: es)) :
    ScansEntries ((.text word, v) :: e :: es) := by
  intro s c ts indent k j outer rest h hc hcol hindent hj hrest
  have hlines := startsLine_entryText k (by simp) htidy' (lineStart j ++ rest)
  rw [entryText_cons hk] at hc
  simp only [List.cons_append, List.append_assoc] at hc
  obtain ⟨s₁, c₁, hleads₁, hpoised₁, hc₁, hcol₁⟩ :=
    hv.entry hk htidy h hc hcol hindent (Nat.le_refl k) hlines
  obtain ⟨s₂, c₂, hleads₂, hpoised₂, hend⟩ :=
    hes hpoised₁ hc₁ hcol₁ (Int.le_refl k) hj hrest
  refine ⟨s₂, c₂, hleads₁.trans hleads₂, ?_, hend⟩
  rw [if_neg (Int.lt_irrefl k), if_neg (Int.lt_irrefl k)] at hpoised₂
  rw [entryTokens]
  simpa using hpoised₂

/-- Values, rows and entries are scanned into their tokens, from the parts to the whole. -/
theorem inherits_scans : Inherits ScansValue (fun items => items ≠ [] → ScansItems items)
    (fun es => es ≠ [] → ScansEntries es) where
  leaf := scansValue_leaf
  map hne htidy hes := scansValue_map hne htidy (hes hne)
  list hne htidy hitems := scansValue_list hne htidy (hitems hne)
  noItem hne := absurd rfl hne
  item {es items} hne htidy hes htidy' hitems _ := by
    cases items with
    | nil => exact scansItems_singleton hne htidy (hes hne)
    | cons v items => exact scansItems_cons hne htidy (hes hne) htidy' (hitems (by simp))
  noEntry hne := absurd rfl hne
  entry {word v es} hk _ htidy hv htidy' hes _ := by
    cases es with
    | nil => exact scansEntries_singleton hk htidy hv
    | cons e es => exact scansEntries_cons hk htidy hv htidy' (hes (by simp))

/-! ## Characters -/

theorem allowed_word {word : String} (hk : IsKeyWord word) : Allowed word.toList :=
  fun x hx => isAllowed_of_ordinary (hk.plainWord.ordinary x hx)

theorem allowed_leaf {indent column : Nat} {v : Value} (hv : IsLeaf v) :
    Allowed (valueText indent column v) := by
  obtain ⟨text, plain, -, hwritten⟩ :=
    @written_leaf ⟨deeper indent, true⟩ rfl (column + 1) v hv
  rw [valueText_leaf hv]
  exact .cons (by decide) hwritten.allowed

/-- Only characters that a text may hold stand in the text of a mapping. -/
theorem inherits_allowed : Inherits (fun v => ∀ {indent column}, Allowed (valueText indent column v))
    (fun items => ∀ {indent}, Allowed (itemText indent items))
    (fun es => ∀ {indent}, Allowed (entryText indent es)) where
  leaf hv _ _ := allowed_leaf hv
  map hne _ hes _ _ := by
    rw [valueText_map hne]
    exact (allowed_lineStart _).append hes
  list hne _ hitems _ _ := by
    rw [valueText_list hne]
    exact (allowed_lineStart _).append hitems
  noItem := by simp [Allowed, itemText, itemLines, lines]
  item {es items} hne _ hes _ hitems _ := by
    cases items with
    | nil =>
        rw [itemText_singleton hne]
        exact .cons (by decide) (.cons (by decide) hes)
    | cons v items =>
        rw [itemText_cons hne]
        refine .cons (by decide) (.cons (by decide) (.append hes ?_))
        exact (allowed_lineStart _).append hitems
  noEntry := by simp [Allowed, entryText, entryLines, lines]
  entry {word v es} hk _ _ hv _ hes _ := by
    cases es with
    | nil =>
        rw [entryText_singleton hk]
        exact (allowed_word hk).append (.cons (by decide) hv)
    | cons e es =>
        rw [entryText_cons hk]
        refine (allowed_word hk).append (.cons (by decide) (.append hv ?_))
        exact (allowed_lineStart _).append hes

/-! ## Documents -/

/-- At the end of the text, the outermost mapping closes. -/
theorem step_end {s : Scan} {c : Cursor} {ts : List Token} (h : Poised s c ts 0 [-1])
    (hc : c.Holds []) (hcol : c.column = 0) : ∃ t, s.step = .ok t ∧ t.done = true ∧
      t.tokens.toList = ts ++ [.blockEnd, .streamEnd] := by
  have hpeek : (ready c ts 0 [-1]).cursor.peek = '\x00' := hc.peek_nil
  have hdispatch : (ready c ts 0 [-1]).dispatch = (ready c ts 0 [-1]).streamEnd := by
    unfold dispatch
    rw [hpeek]
    rfl
  have hend : ∃ t, (ready c ts 0 [-1]).streamEnd = .ok t ∧ t.done = true ∧
      t.tokens.toList = ts ++ [.blockEnd, .streamEnd] := by
    refine ⟨_, rfl, rfl, ?_⟩
    simp [ready, emit, unwind, closeBlocks]
  rw [h.step_eq (by omega), hdispatch]
  exact hend

/-- **A mapping is scanned into its tokens.** -/
theorem tokens_write {es : List (Value × Value)} (hne : es ≠ []) (hes : TidyEntries es) :
    tokens (write (.map es)) =
      .blockMappingStart :: entryTokens 0 es ++ [.blockEnd, .streamEnd] := by
  have htext : (write (.map es)).toList = entryText 0 es ++ (lineStart 0 ++ []) := by
    obtain ⟨e, es, rfl⟩ := List.exists_cons_of_ne_nil hne
    simp [write, inPlace, entryText, lineStart]
  have hlines := startsLine_entryText 0 hne hes (lineStart 0 ++ [])
  have hallowed : Allowed (entryText 0 es ++ (lineStart 0 ++ [])) :=
    .append (inherits_allowed.entries hes) (.append (allowed_lineStart 0) .nil)
  generalize hcs : entryText 0 es ++ (lineStart 0 ++ []) = cs at htext hlines hallowed
  have hc := Cursor.holds_ofList cs
  have hpoised := @poised_ready _ [] (-1) [] cs 0 hc hlines.head
  have hscans : ScansEntries es := inherits_scans.entries hes hne
  obtain ⟨s, c, ⟨n, hn, hleads⟩, hpoised', hc', hcol'⟩ := @hscans _ _ _ _ 0 0 _ _
    hpoised (hcs ▸ hc) rfl (by decide) (Nat.le_refl 0) (.inl rfl)
  obtain ⟨t, hstep, hdone, htokens⟩ := step_end hpoised' hc' hcol'
  have hfinish : finish (cs.length + 1) (ready (.ofList cs) [] (-1) []) = t.tokens := by
    have hle : n + s.cursor.rest.length ≤ cs.length := hn
    -- One step is left of the bound for the end of the text.
    have hbound : cs.length + 1 = cs.length - n + 1 + n := by omega
    rw [hbound, hleads, finish, hstep]
    simp [hdone]
  simp only [tokens, htext]
  rw [if_pos (List.all_eq_true.2 hallowed)]
  exact (congrArg Array.toList hfinish).trans (htokens.trans (by simp))

end Limn.Yaml
