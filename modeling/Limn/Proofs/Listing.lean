import Limn.Proofs.Reporting
import Limn.Proofs.Yaml.Numeral
import Mathlib.Data.List.TakeWhile

/-! # Lines about runs

Without JSON, the runs of a document are printed as lines. The fields of a line are set apart by
tabs: the two ends with a hyphen in between, the category, the feature, and the text under the run.
That text may be anything, and the ends may be negative. Still no line feed and none of the first
three tabs of a line comes out of a document, and the ends can be read in one way only: each line
tells its run (`Command.Tells`). The lines are those of the runs, one by one, up to the first run
with an end that has no numeral (`Workplace.highlight_lines_tell_runs`).
-/

namespace Limn

namespace Text

/-! ## Fields -/

/-- A text split at the first so many occurrences of a character. -/
def splitAtFirst (c : Char) : Nat → List Char → List (List Char)
  | 0, cs => [cs]
  | n + 1, cs =>
    match cs.dropWhile (· != c) with
    | [] => [cs]
    | _ :: rest => cs.takeWhile (· != c) :: splitAtFirst c n rest

section Fields

variable {c : Char} {field rest : List Char} (h : c ∉ field)

include h

theorem takeWhile_field : (field ++ c :: rest).takeWhile (· != c) = field := by
  have hfield : ∀ x ∈ field, (x != c) = true := by
    intro x hx
    rw [bne_iff_ne]
    rintro rfl
    exact h hx
  rw [List.takeWhile_append_of_pos hfield, List.takeWhile_cons_of_neg (by simp), List.append_nil]

theorem dropWhile_field : (field ++ c :: rest).dropWhile (· != c) = c :: rest := by
  have happend := List.takeWhile_append_dropWhile (p := (· != c)) (l := field ++ c :: rest)
  rw [takeWhile_field h] at happend
  exact List.append_cancel_left happend

theorem splitAtFirst_field (n : Nat) :
    splitAtFirst c (n + 1) (field ++ c :: rest) = field :: splitAtFirst c n rest := by
  rw [splitAtFirst, dropWhile_field h, takeWhile_field h]

/-- What stands before a character for the first time is unique. -/
theorem eq_of_field {field' rest' : List Char} (h' : c ∉ field')
    (heq : field ++ c :: rest = field' ++ c :: rest') : field = field' ∧ rest = rest' := by
  have hfield : field = field' :=
    calc
      field = (field ++ c :: rest).takeWhile (· != c) := (takeWhile_field h).symm
      _ = (field' ++ c :: rest').takeWhile (· != c) := by rw [heq]
      _ = field' := takeWhile_field h'
  subst hfield
  exact ⟨rfl, (List.cons.inj (List.append_cancel_left heq)).2⟩

end Fields

/-! ## Numerals on both sides of a hyphen -/

theorem chars_of_numeralDigits? : ∀ {cs : List Char} {ns : List Nat},
    numeralDigits? cs = some ns → ∀ c ∈ cs, c = '_' ∨ (digitValue? c).isSome = true
  | [], _, h => by
      rw [numeralDigits?] at h
      contradiction
  | [c], ns, h => by
      rw [numeralDigits?, Option.map_eq_some_iff] at h
      obtain ⟨n, hn, -⟩ := h
      intro x hx
      rw [List.mem_singleton.mp hx, hn]
      exact .inr rfl
  | c :: d :: rest, ns, h => by
      rw [numeralDigits?] at h
      obtain ⟨n, hn, h⟩ := Option.bind_eq_some_iff.mp h
      have hfirst : (digitValue? c).isSome = true := by
        rw [hn]
        rfl
      by_cases hbar : (d == '_') = true
      · rw [if_pos hbar] at h
        cases rest with
        | nil => contradiction
        | cons e more =>
            obtain ⟨ns, hns, -⟩ := Option.bind_eq_some_iff.mp h
            have hmore := chars_of_numeralDigits? hns
            intro x hx
            rcases List.mem_cons.mp hx with rfl | hx
            · exact .inr hfirst
            · rcases List.mem_cons.mp hx with rfl | hx
              · exact .inl (eq_of_beq hbar)
              · exact hmore x hx
      · rw [if_neg hbar] at h
        obtain ⟨ns, hns, -⟩ := Option.bind_eq_some_iff.mp h
        have hrest := chars_of_numeralDigits? hns
        intro x hx
        rcases List.mem_cons.mp hx with rfl | hx
        · exact .inr hfirst
        · exact hrest x hx

/-- A numeral without sign is not empty and holds no hyphen. -/
theorem chars_of_natural? {cs : List Char} {n : Nat} (h : natural? cs = some n) :
    cs ≠ [] ∧ '-' ∉ cs := by
  obtain ⟨ns, hns, -⟩ := Option.bind_eq_some_iff.mp h
  constructor
  · rintro rfl
    rw [numeralDigits?] at hns
    contradiction
  · intro hmem
    have hchar := chars_of_numeralDigits? hns '-' hmem
    revert hchar
    decide +kernel

/-- Something without a hyphen, perhaps after one. -/
inductive Signed : List Char → Prop where
  | plain {cs : List Char} : cs ≠ [] → '-' ∉ cs → Signed cs
  | negative {cs : List Char} : cs ≠ [] → '-' ∉ cs → Signed ('-' :: cs)

theorem signed_of_integerOf? {cs : List Char} {n : Int} (htrim : trimNumeral cs = cs)
    (h : integerOf? cs = some n) : Signed cs := by
  have hnatural : ∀ {ds : List Char} {f : Int → Int},
      Option.map f (do let m ← natural? ds; pure (m : Int)) = some n → ds ≠ [] ∧ '-' ∉ ds := by
    intro ds f hmap
    obtain ⟨i, hi, -⟩ := Option.map_eq_some_iff.mp hmap
    obtain ⟨m, hm, -⟩ := Option.bind_eq_some_iff.mp hi
    exact chars_of_natural? hm
  rw [integerOf?, htrim] at h
  split at h
  · obtain ⟨hne, hhyphen⟩ := hnatural h
    exact .negative hne hhyphen
  · obtain ⟨hne, hhyphen⟩ := hnatural h
    refine .plain (List.cons_ne_nil _ _) ?_
    rw [List.mem_cons, not_or]
    exact ⟨by decide, hhyphen⟩
  · obtain ⟨hne, hhyphen⟩ := hnatural h
    exact .plain hne hhyphen

theorem append_ne_hyphen {cs rest tail : List Char} (hne : cs ≠ []) (hhyphen : '-' ∉ cs) :
    cs ++ rest ≠ '-' :: tail := by
  obtain ⟨c, cs, rfl⟩ := List.exists_cons_of_ne_nil hne
  intro heq
  rw [(List.cons.inj heq).1] at hhyphen
  exact hhyphen List.mem_cons_self

/-- Of the hyphens in a text, only one has a signed row before it. -/
theorem Signed.eq_of_append {cs cs' rest rest' : List Char} (h : Signed cs) (h' : Signed cs')
    (heq : cs ++ '-' :: rest = cs' ++ '-' :: rest') : cs = cs' ∧ rest = rest' := by
  cases h with
  | plain hne hhyphen =>
      cases h' with
      | plain _ hhyphen' => exact eq_of_field hhyphen hhyphen' heq
      | negative _ _ => exact absurd heq (append_ne_hyphen hne hhyphen)
  | negative _ hhyphen =>
      cases h' with
      | plain hne' hhyphen' => exact absurd heq.symm (append_ne_hyphen hne' hhyphen')
      | negative _ hhyphen' =>
          obtain ⟨rfl, rfl⟩ := eq_of_field hhyphen hhyphen' (List.cons.inj heq).2
          exact ⟨rfl, rfl⟩

/-- Only hyphens and the ten digits of ASCII. -/
def IsDecimal (cs : List Char) : Prop :=
  ∀ c ∈ cs, c = '-' ∨ isAsciiDigit c = true

theorem isDecimal_intText (n : Int) : IsDecimal (Value.intText n).toList :=
  (Yaml.intText_chars n).1

theorem isDecimal_ends (m n : Int) :
    IsDecimal ((Value.intText m).toList ++ '-' :: (Value.intText n).toList) := by
  intro c hc
  rcases List.mem_append.mp hc with hc | hc
  · exact isDecimal_intText m c hc
  · rcases List.mem_cons.mp hc with hc | hc
    · exact .inl hc
    · exact isDecimal_intText n c hc

theorem IsDecimal.not_mem {cs : List Char} (h : IsDecimal cs) {c : Char} (hhyphen : c ≠ '-')
    (hdigit : isAsciiDigit c = false) : c ∉ cs := by
  intro hc
  rcases h c hc with hc | hc
  · exact hhyphen hc
  · rw [hdigit] at hc
    contradiction

/-- There is nothing to trim. -/
theorem IsDecimal.trimNumeral_eq {cs : List Char} (h : IsDecimal cs) : trimNumeral cs = cs := by
  refine trimWhile_eq_self ?_
  intro c hc
  rcases h c hc with rfl | hdigit
  · decide
  · simp only [isAsciiDigit, Bool.and_eq_true, decide_eq_true_eq, Char.le_def,
      UInt32.le_iff_toNat_le] at hdigit
    change 48 ≤ c.toNat ∧ c.toNat ≤ 57 at hdigit
    simp only [isNumeralBlank, Bool.or_eq_false_iff, Bool.and_eq_false_iff,
      decide_eq_false_iff_not, beq_eq_false_iff_ne]
    omega

/-- **An integer is read back** from its decimal text. -/
theorem integerOf?_intText {n : Int} (h : Value.hasNumeral n = true) :
    integerOf? (Value.intText n).toList = some n := by
  have hsize : n.natAbs < Decimal.pow10 mostDigits := of_decide_eq_true h
  by_cases hneg : n < 0
  · rw [integerOf?, (isDecimal_intText n).trimNumeral_eq, Yaml.toList_intText, if_pos hneg]
    show Option.map _ (natural? (Nat.toDigits 10 n.natAbs) >>= _) = _
    rw [natural?_toDigits hsize]
    refine congrArg some ?_
    show -(n.natAbs : Int) = n
    omega
  · have htext : Value.intText n = String.ofList (Nat.toDigits 10 n.natAbs) := if_neg hneg
    rw [htext]
    exact (integer?_toDigits hsize).trans (congrArg some (by omega))

/-- The text is two numerals with a hyphen in between, and they denote these integers. -/
def ReadsRange (cs : List Char) (i j : Int) : Prop :=
  ∃ x y, cs = x ++ '-' :: y ∧ integerOf? x = some i ∧ integerOf? y = some j

/-- **Two integers are read back** in one way only, also if some of the hyphens are signs. -/
theorem readsRange_iff {m n : Int} (hm : Value.hasNumeral m = true)
    (hn : Value.hasNumeral n = true) (i j : Int) :
    ReadsRange ((Value.intText m).toList ++ '-' :: (Value.intText n).toList) i j ↔
      i = m ∧ j = n := by
  have hm := integerOf?_intText hm
  have hn := integerOf?_intText hn
  constructor
  · rintro ⟨x, y, heq, hx, hy⟩
    have hdecimal : IsDecimal x := by
      intro c hc
      have hmem : c ∈ x ++ '-' :: y := List.mem_append_left _ hc
      rw [← heq] at hmem
      exact isDecimal_ends m n c hmem
    have hfirst := signed_of_integerOf? (isDecimal_intText m).trimNumeral_eq hm
    have hcut := signed_of_integerOf? hdecimal.trimNumeral_eq hx
    obtain ⟨rfl, rfl⟩ := hfirst.eq_of_append hcut heq
    exact ⟨Option.some.inj (hx.symm.trans hm), Option.some.inj (hy.symm.trans hn)⟩
  · rintro ⟨rfl, rfl⟩
    exact ⟨_, _, rfl, hm, hn⟩

end Text

/-! ## What runs are painted with -/

theorem exists_match_of_mem_paintAll {r : Run} : ∀ {ms : List Match} {c : Canvas},
    r ∈ paintAll c ms → ∃ m ∈ ms, r.paint = m.paint
  | [], _, h => absurd h List.not_mem_nil
  | m :: rest, c, h => by
      rw [paintAll_cons] at h
      rcases List.mem_append.mp h with h | h
      · refine ⟨m, List.mem_cons_self, ?_⟩
        by_cases hm : m.span.isEmpty = true
        · rw [paintMatch_of_empty hm] at h
          dsimp only at h
          split at h
          · exact absurd h List.not_mem_nil
          · rw [List.mem_singleton.mp h]
            rfl
        · rw [paintMatch_of_nonempty hm] at h
          obtain ⟨s, -, rfl⟩ := List.mem_map.mp h
          rfl
      · obtain ⟨k, hk, hpaint⟩ := exists_match_of_mem_paintAll h
        exact ⟨k, List.mem_cons_of_mem _ hk, hpaint⟩

/-- A run has the category of a rule and the name of its feature. -/
theorem exists_rule_of_mem_paint {block inline : Node} {active : List Feature} {r : Run}
    (h : r ∈ paint (kept block inline active)) :
    ∃ f ∈ active, ∃ rule ∈ f.rules, r.category = rule.category ∧ r.feature = f.name := by
  obtain ⟨m, hm, hpaint⟩ := exists_match_of_mem_paintAll (List.mem_mergeSort.mp h)
  obtain ⟨hit, hhit, rfl⟩ := exists_hit_of_mem_kept (List.mem_mergeSort.mp hm)
  obtain ⟨hcategory, hfeature⟩ := Prod.mk.inj hpaint
  have hdeclared : (hit.feature, hit.rule) ∈ declaredRules active :=
    List.fst_mem_of_mem_zipIdx hhit.declared
  obtain ⟨f, hf, hrule⟩ := List.mem_flatMap.mp hdeclared
  obtain ⟨rule, hrule, heq⟩ := List.mem_map.mp hrule
  obtain ⟨rfl, rfl⟩ := Prod.mk.inj heq
  exact ⟨_, hf, _, hrule, hcategory, hfeature⟩

/-- A text that can stand in a field of a line. -/
def Text.IsField (s : String) : Prop :=
  '\t' ∉ s.toList ∧ '\n' ∉ s.toList

instance : DecidablePred Text.IsField := fun s =>
  inferInstanceAs (Decidable ('\t' ∉ s.toList ∧ '\n' ∉ s.toList))

/-- The names and the categories in the table for Markdown can stand in fields. -/
theorem Feature.markdown_fields : ∀ f ∈ markdown, Text.IsField f.name ∧
    ∀ rule ∈ f.rules, Text.IsField rule.category := by
  decide +kernel

theorem fields_of_mem_paint {initial enabled : Table.markdown.Choice} {block inline : Node}
    {r : Run} (h : r ∈ paint (kept block inline (Table.markdown.active initial enabled))) :
    Text.IsField r.category ∧ Text.IsField r.feature := by
  obtain ⟨f, hf, rule, hrule, hcategory, hfeature⟩ := exists_rule_of_mem_paint h
  obtain ⟨hname, hrules⟩ := Feature.markdown_fields f (Feature.mem_of_mem_chosen hf)
  rw [hcategory, hfeature]
  exact ⟨hrules rule hrule, hname⟩

/-! ## One line -/

namespace Command

theorem lineFeed_not_mem_escapeLineFeeds (cs : List Char) : '\n' ∉ escapeLineFeeds cs := by
  fun_induction escapeLineFeeds cs with
  | case1 => exact List.not_mem_nil
  | case2 rest ih =>
      simp only [List.mem_cons, not_or]
      exact ⟨by decide, by decide, ih⟩
  | case3 c rest hc ih =>
      simp only [List.mem_cons, not_or]
      exact ⟨fun heq => hc heq.symm, ih⟩

/-- Nothing in a document makes the text under a run longer or breaks it. -/
theorem chars_snippet (source : Bytes) (span : Span) :
    (snippet source span).toList.length ≤ 40 ∧ '\n' ∉ (snippet source span).toList := by
  unfold snippet
  dsimp only
  rw [String.toList_ofList]
  have hescaped := lineFeed_not_mem_escapeLineFeeds
    (Bytes.toTextLossy (source.window span.start span.stop)).toList
  generalize escapeLineFeeds _ = text at hescaped
  split
  · rename_i hshort
    exact ⟨hshort, hescaped⟩
  · constructor
    · rw [List.length_append, List.length_take]
      unfold snippetWidth
      simp only [List.length_cons, List.length_nil]
      omega
    · rw [List.mem_append, not_or]
      refine ⟨fun hmem => hescaped (List.mem_of_mem_take hmem), by decide⟩

/-- The line tells the run: it is one line, and split at the first three tabs, it gives the two ends
and nothing else that could be read as them, the category, the feature, and a short text. -/
structure Tells (line : String) (r : Run) : Prop where
  single : '\n' ∉ line.toList
  fields : ∃ ends under, Text.splitAtFirst '\t' 3 line.toList =
      [ends, r.category.toList, r.feature.toList, under] ∧
    (∀ i j, Text.ReadsRange ends i j ↔ i = r.span.start ∧ j = r.span.stop) ∧
    under.length ≤ 40 ∧ '\n' ∉ under

/-- The line about a run whose ends have numerals, without its line feed. -/
def runText (source : Bytes) (r : Run) : String :=
  Value.intText r.span.start ++ "-" ++ Value.intText r.span.stop ++ "\t" ++ r.category ++ "\t" ++
    r.feature ++ "\t" ++ snippet source r.span

theorem runLine_eq (source : Bytes) {r : Run} (h : r.span.hasNumerals = true) :
    runLine source r = .ok (runText source r ++ "\n") := by
  unfold runLine
  rw [spanText_eq h]
  rfl

/-- **The line about a run tells it**, whatever the document holds. -/
theorem tells_runText (source : Bytes) {r : Run} (h : r.span.hasNumerals = true)
    (hcategory : Text.IsField r.category) (hfeature : Text.IsField r.feature) :
    Tells (runText source r) r := by
  set ends := (Value.intText r.span.start).toList ++ '-' :: (Value.intText r.span.stop).toList
    with hends
  obtain ⟨hstart, hstop⟩ := (Bool.and_eq_true _ _).mp h
  obtain ⟨hlength, hunder⟩ := chars_snippet source r.span
  have hline : (runText source r).toList = ends ++ '\t' :: (r.category.toList ++
      '\t' :: (r.feature.toList ++ '\t' :: (snippet source r.span).toList)) := by
    rw [hends, runText]
    simp only [String.toList_append, List.append_assoc]
    rfl
  have hdecimal : Text.IsDecimal ends := Text.isDecimal_ends _ _
  constructor
  · rw [hline]
    simp only [List.mem_append, List.mem_cons, not_or]
    exact ⟨hdecimal.not_mem (by decide) (by decide), by decide, hcategory.2, by decide, hfeature.2,
      by decide, hunder⟩
  · refine ⟨ends, (snippet source r.span).toList, ?_, Text.readsRange_iff hstart hstop, hlength,
      hunder⟩
    rw [hline, Text.splitAtFirst_field (hdecimal.not_mem (by decide) (by decide)),
      Text.splitAtFirst_field hcategory.1, Text.splitAtFirst_field hfeature.1, Text.splitAtFirst]

/-! ## All lines -/

/-- Parts are printed up to the first that has no text. -/
theorem Printout.text_ofParts {α : Type} {part : α → Except Error String} {p : α → Bool}
    {text : α → String} (hok : ∀ x, p x = true → part x = .ok (text x))
    (herror : ∀ x, p x = false → ∃ e, part x = .error e) (xs : List α) :
    (ofParts (xs.map part)).text = String.join ((xs.takeWhile p).map text) := by
  induction xs with
  | nil => rfl
  | cons x rest ih =>
      rw [List.map_cons]
      cases hp : p x with
      | true =>
          rw [hok x hp, List.takeWhile_cons_of_pos hp, List.map_cons, String.join_cons, ← ih]
          rfl
      | false =>
          obtain ⟨e, he⟩ := herror x hp
          rw [he, List.takeWhile_cons_of_neg (by simp [hp])]
          rfl

theorem text_runLines (source : Bytes) (runs : List Run) :
    (runLines source runs).text = String.join
      (((runs.takeWhile (·.span.hasNumerals)).map (runText source)).map (· ++ "\n")) := by
  rw [List.map_map]
  refine Printout.text_ofParts (fun r hr => runLine_eq source hr) ?_ runs
  intro r hr
  exact ⟨_, (runLine_error_iff source r _).mpr ⟨hr, rfl⟩⟩

theorem fault_runLines (source : Bytes) (runs : List Run) :
    (runLines source runs).fault = none ↔ ∀ r ∈ runs, r.span.hasNumerals = true :=
  Printout.fault_ofParts_eq_none (fun r => by simp [runLine_error_iff]) runs

/-- What was printed stays, and the exit code is 0 if this was all. -/
theorem printed_of_ok {l : Logged Printout} {p : Printout} (h : l.result = .ok p)
    (verbose : Bool) : (printed verbose l).output = p.text ∧
      ((printed verbose l).ending = .exit 0 ↔ p.fault = none) := by
  unfold printed
  rw [h]
  dsimp only
  cases hfault : p.fault with
  | none => exact ⟨rfl, iff_of_true rfl rfl⟩
  | some e =>
      refine ⟨rfl, iff_of_false ?_ (Option.some_ne_none e)⟩
      unfold failure
      dsimp only
      split
      · intro heq
        cases heq
      · intro heq
        cases heq

end Command

namespace Workplace

open Command

/-- **Plain lines are faithful.** For any two trees, any octets as their source and any features of
the table for Markdown, `highlight` prints a line for each run, in their order, which tells the run;
if an end of a run has no numeral, it stops before it. -/
theorem highlight_lines_tell_runs (w : Workplace) {d : Document} {block inline : Node}
    (hblock : d.block = some block) (hinline : d.inline = some inline) {features : List String}
    (hdeclares : Feature.Declares Feature.markdown (some (w.chosen features))) (snapshot : Bool) :
    ∃ (runs : List Run) (p : Printout) (lines : List String),
      Feature.runs Feature.markdown (some (w.chosen features)) none block inline = .ok runs ∧
      (w.printout d (.highlight (features.map .text) snapshot false)).result = .ok p ∧
      p.text = String.join (lines.map (· ++ "\n")) ∧
      List.Forall₂ Tells lines (runs.takeWhile (·.span.hasNumerals)) ∧
      (p.fault = none ↔ ∀ r ∈ runs, r.span.hasNumerals = true) ∧
      ∀ file verbose, w.document file snapshot = .ok d →
        let o := run w.surroundings
          ⟨w.config, verbose, .highlight file (features.map .text) snapshot false⟩
        o.output = p.text ∧ (o.ending = .exit 0 ↔ p.fault = none) := by
  have hruns := Table.markdown.runs_eq ⟨_, hdeclares⟩ ⟨none, by rintro _ ⟨⟩⟩ block inline
  set runs := paint (kept block inline (Table.markdown.active ⟨_, hdeclares⟩
    ⟨none, by rintro _ ⟨⟩⟩)) with hpaint
  have hresult : (w.printout d (.highlight (features.map .text) snapshot false)).result =
      .ok (runLines d.source runs) := by
    rw [w.highlight_result hblock hinline]
    show Feature.runs Table.markdown.features _ _ _ _ >>= _ = _
    rw [hruns]
    rfl
  refine ⟨runs, runLines d.source runs, _, hruns, hresult, text_runLines d.source runs, ?_, ?_, ?_⟩
  · rw [List.forall₂_map_left_iff, List.forall₂_same]
    intro r hr
    have hnumerals : r.span.hasNumerals = true :=
      List.mem_takeWhile_imp (p := fun r : Run => r.span.hasNumerals) hr
    obtain ⟨hcategory, hfeature⟩ := fields_of_mem_paint (List.takeWhile_subset _ hr)
    exact tells_runText d.source hnumerals hcategory hfeature
  · exact fault_runLines d.source runs
  · intro file verbose hd
    have hrun := w.run_eq file (.highlight (features.map .text) snapshot false) verbose
    refine hrun ▸ printed_of_ok ?_ verbose
    rw [Logged.result_bind]
    show w.document file snapshot >>= _ = _
    rw [hd]
    exact hresult

/-! ### A document full of separators -/

/-- A break that starts before the first octet. -/
def earlyBreak : Node :=
  { type := "thematic_break", span := ⟨-5, 5⟩ }

/-- One file, with a tab, an octet that no text has, and a line feed, and a grammar that finds
nothing but the break. -/
def spottedSurroundings : Surroundings where
  files p := if p.name == "x.md" then .file [97, 9, 255, 10, 98] else .missing .notFound
  grammars _ := .loaded { accept := fun _ => .ok (), parse := fun _ _ => .ok earlyBreak }
  freshToken _ := "fresh"

/-- Neither the separators in the file nor the sign mislead. -/
theorem spotted_document_told : ∃ (w : Workplace) (line : String),
    w.surroundings = spottedSurroundings ∧ Tells line ⟨⟨-5, 5⟩, "shadow", "paragraph"⟩ ∧
      (run spottedSurroundings ⟨none, false, .highlight "x.md" [] false false⟩).output =
        line ++ "\n" := by
  let w : Workplace := ⟨spottedSurroundings, none, {}, by rfl⟩
  let d : Document :=
    { block := some earlyBreak, inline := some earlyBreak, source := [97, 9, 255, 10, 98] }
  have hd : w.document "x.md" false = .ok d := by rfl
  have hdeclares : Feature.Declares Feature.markdown (some (w.chosen [])) := by
    rintro _ ⟨⟩
    decide +kernel
  have hpainted : (Feature.runs Feature.markdown (some (w.chosen [])) none earlyBreak
      earlyBreak).toOption = some [⟨⟨-5, 5⟩, "shadow", "paragraph"⟩] := by
    decide +kernel
  obtain ⟨runs, p, lines, hruns, -, htext, htells, -, hrun⟩ :=
    w.highlight_lines_tell_runs (d := d) rfl rfl hdeclares false
  rw [hruns] at hpainted
  obtain rfl := Option.some.inj hpainted
  have hall : ([⟨⟨-5, 5⟩, "shadow", "paragraph"⟩] : List Run).takeWhile (·.span.hasNumerals) =
      [⟨⟨-5, 5⟩, "shadow", "paragraph"⟩] := by
    decide +kernel
  rw [hall] at htells
  obtain ⟨line, rest, htell, hrest, rfl⟩ := List.forall₂_cons_right_iff.mp htells
  obtain rfl := List.forall₂_nil_right_iff.mp hrest
  refine ⟨w, line, rfl, htell, ?_⟩
  refine ((hrun "x.md" false hd).1.trans htext).trans ?_
  exact String.join_cons.trans String.append_empty

end Workplace

end Limn
