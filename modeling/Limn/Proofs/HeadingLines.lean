import Limn.Proofs.Demands
import Limn.Proofs.Listing

/-! # Lines about headings

Without JSON, an outline is printed as a line with its label and a line for each heading: two
spaces, the name, a tab, and the two ends of the section with a hyphen in between. Names are titles
as they stand in the document. They are trimmed, but a line feed inside of one stays, and each
breaks the line once more. So the text has a line for each heading just if no name holds a line
feed, every end has a numeral and every name is a text (`outline_lines_tell_headings`).
-/

namespace Limn.Command

open Limn.Text (Symbol)

/-! ## Lines of a text -/

/-- The text consists of these lines, each of which ends with the one line feed in it. -/
def HasLines (text : String) (lines : List String) : Prop :=
  text = String.join (lines.map (· ++ "\n")) ∧ ∀ line ∈ lines, '\n' ∉ line.toList

/-- How often the text breaks. -/
def breaks (text : String) : Nat :=
  text.toList.count '\n'

theorem breaks_append (s t : String) : breaks (s ++ t) = breaks s + breaks t := by
  unfold breaks
  rw [String.toList_append, List.count_append]

theorem breaks_eq_zero_iff (text : String) : breaks text = 0 ↔ '\n' ∉ text.toList :=
  List.count_eq_zero

theorem breaks_join (lines : List String) :
    breaks (String.join (lines.map (· ++ "\n"))) = (lines.map (breaks · + 1)).sum := by
  induction lines with
  | nil => rfl
  | cons line rest ih =>
      rw [List.map_cons, String.join_cons, breaks_append, breaks_append, ih, List.map_cons,
        List.sum_cons]
      rfl

/-- Every line shows: a text has not the same lines and some more. -/
theorem eq_nil_of_join_append {lines more : List String}
    (h : String.join (lines.map (· ++ "\n")) = String.join ((lines ++ more).map (· ++ "\n"))) :
    more = [] := by
  have hbreaks := congrArg breaks h
  rw [breaks_join, breaks_join, List.map_append, List.sum_append] at hbreaks
  cases more with
  | nil => rfl
  | cons line rest =>
      rw [List.map_cons, List.sum_cons] at hbreaks
      omega

/-! ## One heading -/

/-- The line about a heading, without its line feed. -/
def entryText (e : OutlineEntry) : String :=
  String.join (List.replicate e.depth "  ") ++ e.name.text?.getD "" ++ "\t" ++
    (Value.intText e.span.start ++ "-" ++ Value.intText e.span.stop)

theorem parts_of_isPrintable {e : OutlineEntry} (h : e.isPrintable = true) :
    e.span.hasNumerals = true ∧ ∃ s, e.name = .text s := by
  obtain ⟨hspan, htext⟩ := (Bool.and_eq_true _ _).mp h
  cases hname : e.name with
  | text s => exact ⟨hspan, s, rfl⟩
  | halved k =>
      rw [hname] at htext
      cases htext

theorem entryLine_eq {e : OutlineEntry} (h : e.isPrintable = true) :
    entryLine e = .ok (entryText e ++ "\n") := by
  obtain ⟨hspan, s, hname⟩ := parts_of_isPrintable h
  unfold entryLine entryText
  rw [spanText_eq hspan, hname]
  rfl

/-- The line tells the heading: it is indented by two spaces, and its last tab sets the name apart
from the two ends, which can be read in one way only. -/
def TellsHeading (line : String) (e : OutlineEntry) : Prop :=
  ∃ name ends, e.name = .text name ∧
    line.toList = ' ' :: ' ' :: (name.toList ++ '\t' :: ends) ∧ '\t' ∉ ends ∧ '\n' ∉ ends ∧
    ∀ i j, Text.ReadsRange ends i j ↔ i = e.span.start ∧ j = e.span.stop

theorem toList_entryText {e : OutlineEntry} (hdepth : e.depth = 1) {name : String}
    (hname : e.name = .text name) :
    (entryText e).toList = ' ' :: ' ' :: (name.toList ++ '\t' ::
      ((Value.intText e.span.start).toList ++ '-' :: (Value.intText e.span.stop).toList)) := by
  unfold entryText
  rw [hdepth, hname]
  simp only [String.toList_append, List.append_assoc]
  rfl

theorem tellsHeading_entryText {e : OutlineEntry} (hdepth : e.depth = 1)
    (h : e.isPrintable = true) : TellsHeading (entryText e) e := by
  obtain ⟨hspan, name, hname⟩ := parts_of_isPrintable h
  obtain ⟨hstart, hstop⟩ := (Bool.and_eq_true _ _).mp hspan
  have hdecimal := Text.isDecimal_ends e.span.start e.span.stop
  exact ⟨name, _, hname, toList_entryText hdepth hname, hdecimal.not_mem (by decide) (by decide),
    hdecimal.not_mem (by decide) (by decide), Text.readsRange_iff hstart hstop⟩

/-- How often a name breaks the line that it stands on. -/
def nameBreaks (name : Wording) : Nat :=
  name.symbols.count (.char '\n')

theorem nameBreaks_text (s : String) : nameBreaks (.text s) = breaks s :=
  List.count_map_of_injective _ _ (fun _ _ h => Symbol.char.inj h) _

/-- Only the name can break a line. -/
theorem breaks_entryText {e : OutlineEntry} (hdepth : e.depth = 1) (h : e.isPrintable = true) :
    breaks (entryText e) = nameBreaks e.name := by
  obtain ⟨-, name, hname⟩ := parts_of_isPrintable h
  have hends : '\n' ∉ (Value.intText e.span.start).toList ++
      '-' :: (Value.intText e.span.stop).toList :=
    (Text.isDecimal_ends _ _).not_mem (by decide) (by decide)
  rw [hname, nameBreaks_text]
  unfold breaks
  rw [toList_entryText hdepth hname, List.count_cons_of_ne (by decide),
    List.count_cons_of_ne (by decide), List.count_append, List.count_cons_of_ne (by decide),
    List.count_eq_zero.mpr hends, add_zero]

/-! ## All headings -/

/-- The headings that printing comes to. -/
def told (o : Outline) : List OutlineEntry :=
  o.entries.takeWhile (·.isPrintable)

theorem isPrintable_of_mem_told {o : Outline} {e : OutlineEntry} (he : e ∈ told o) :
    e.isPrintable = true :=
  List.mem_takeWhile_imp (p := OutlineEntry.isPrintable) he

theorem text_outlineLines (o : Outline) : (outlineLines o).text =
    String.join ((o.group :: (told o).map entryText).map (· ++ "\n")) := by
  have hentries : (Printout.ofParts (o.entries.map entryLine)).text =
      String.join (((told o).map entryText).map (· ++ "\n")) := by
    rw [List.map_map]
    exact Printout.text_ofParts (fun e he => entryLine_eq he)
      (fun e he => (entryLine_fails_iff e).mp he) o.entries
  rw [List.map_cons, String.join_cons, ← hentries]
  rfl

theorem fault_outlineLines (o : Outline) :
    (outlineLines o).fault = none ↔ ∀ e ∈ o.entries, e.isPrintable = true :=
  Printout.fault_ofParts_eq_none entryLine_fails_iff o.entries

theorem told_eq_iff (o : Outline) :
    told o = o.entries ↔ ∀ e ∈ o.entries, e.isPrintable = true :=
  List.takeWhile_eq_self_iff

section Outline

variable {o : Outline} (hdepth : ∀ e ∈ o.entries, e.depth = 1) (hgroup : '\n' ∉ o.group.toList)

include hdepth hgroup

theorem breaks_outlineLines :
    breaks (outlineLines o).text = 1 + ((told o).map fun e => nameBreaks e.name + 1).sum := by
  rw [text_outlineLines, breaks_join, List.map_cons, List.sum_cons,
    (breaks_eq_zero_iff _).mpr hgroup, List.map_map]
  refine congrArg (fun ns => 1 + List.sum ns) (List.map_congr_left fun e he => ?_)
  have hone := hdepth e (List.takeWhile_subset _ he)
  exact congrArg (· + 1) (breaks_entryText hone (isPrintable_of_mem_told he))

theorem hasLines_outlineLines_iff :
    HasLines (outlineLines o).text (o.group :: o.entries.map entryText) ↔
      ∀ e ∈ o.entries, .char '\n' ∉ e.name.symbols ∧ e.isPrintable = true := by
  have hline : ∀ e ∈ o.entries, e.isPrintable = true →
      ('\n' ∉ (entryText e).toList ↔ .char '\n' ∉ e.name.symbols) := by
    intro e he hprintable
    rw [← breaks_eq_zero_iff, breaks_entryText (hdepth e he) hprintable]
    exact List.count_eq_zero
  unfold HasLines
  rw [text_outlineLines]
  constructor
  · rintro ⟨htext, hlines⟩
    have htold : told o = o.entries := by
      obtain ⟨more, hmore⟩ : told o <+: o.entries := List.takeWhile_prefix _
      rw [← hmore, List.map_append, ← List.cons_append] at htext
      have hnil := List.map_eq_nil_iff.mp (eq_nil_of_join_append htext)
      rw [← hmore, hnil, List.append_nil]
    intro e he
    have hprintable := (told_eq_iff o).mp htold e he
    have hmem : entryText e ∈ o.group :: o.entries.map entryText :=
      List.mem_cons_of_mem _ (List.mem_map_of_mem he)
    exact ⟨(hline e he hprintable).mp (hlines _ hmem), hprintable⟩
  · intro h
    refine ⟨by rw [(told_eq_iff o).mpr fun e he => (h e he).2], ?_⟩
    intro line hmem
    rcases List.mem_cons.mp hmem with rfl | hmem
    · exact hgroup
    · obtain ⟨e, he, rfl⟩ := List.mem_map.mp hmem
      exact (hline e he (h e he).2).mpr (h e he).1

end Outline

/-- What `outline` prints about a document that could be loaded. -/
theorem run_outline_of_ok {s : Surroundings} {config : Option String} {settings : Settings}
    (hload : Settings.load s.files (config.map Path.ofText) = .ok settings) {file : String}
    {snapshot : Bool} {d : Document} (hd : (loadDocument s settings file snapshot).result = .ok d)
    {o : Outline}
    (ho : Outline.build d.block (settings.headingTypes.map .text) settings.group = .ok o)
    (verbose : Bool) :
    let out := run s ⟨config, verbose, .outline file snapshot false⟩
    out.output = (outlineLines o).text ∧
      (out.ending = .exit 0 ↔ (outlineLines o).fault = none) := by
  have hrun : run s ⟨config, verbose, .outline file snapshot false⟩ =
      printed verbose (outline s settings file snapshot false) := by
    unfold run
    rw [hload]
  have hresult : (outline s settings file snapshot false).result = .ok (outlineLines o) := by
    have houtline : (Session.outlineDocument settings d).result = .ok o := by
      unfold Session.outlineDocument
      rw [ho]
      rfl
    unfold outline
    rw [Logged.result_bind, hd]
    show (Session.outlineDocument settings d >>= _).result = _
    rw [Logged.result_bind, houtline]
    rfl
  exact hrun ▸ printed_of_ok hresult verbose

/-- **Lines tell headings, but a name may take several.** For any block tree, types of heading
markers and label on one line, `outline` prints the label and then, in their order, the headings:
each gets a text that tells it, and a line more for each line feed in its name. If an end of a
section has no numeral or a name is no text, printing stops before it. So there is one line for each
heading just if no name holds a line feed and every heading can be printed. -/
theorem outline_lines_tell_headings (block : Node) (types : List Wording) (group : String)
    (hgroup : '\n' ∉ group.toList) :
    ∃ o, Outline.build (some block) types group = .ok o ∧ o.group = group ∧
      (outlineLines o).text =
        String.join ((group :: (told o).map entryText).map (· ++ "\n")) ∧
      (∀ e ∈ told o, TellsHeading (entryText e) e) ∧
      breaks (outlineLines o).text = 1 + ((told o).map fun e => nameBreaks e.name + 1).sum ∧
      ((outlineLines o).fault = none ↔ ∀ e ∈ o.entries, e.isPrintable = true) ∧
      (HasLines (outlineLines o).text (group :: o.entries.map entryText) ↔
        ∀ e ∈ o.entries, .char '\n' ∉ e.name.symbols ∧ e.isPrintable = true) ∧
      ∀ (s : Surroundings) (config : Option String) (settings : Settings) (verbose : Bool)
        (file : String) (snapshot : Bool) (d : Document),
        Settings.load s.files (config.map Path.ofText) = .ok settings →
        settings.headingTypes.map .text = types → settings.group = group →
        (loadDocument s settings file snapshot).result = .ok d → d.block = some block →
        let out := run s ⟨config, verbose, .outline file snapshot false⟩
        out.output = (outlineLines o).text ∧
          (out.ending = .exit 0 ↔ (outlineLines o).fault = none) := by
  obtain ⟨o, ho⟩ : ∃ o, Outline.build (some block) types group = .ok o := ⟨_, rfl⟩
  have hdepth : ∀ e ∈ o.entries, e.depth = 1 := fun e he => Outline.depth_of_build ho he
  obtain rfl : o.group = group := by
    cases ho
    rfl
  refine ⟨o, ho, rfl, text_outlineLines o, ?_, breaks_outlineLines hdepth hgroup,
    fault_outlineLines o, hasLines_outlineLines_iff hdepth hgroup, ?_⟩
  · intro e he
    have hone := hdepth e (List.takeWhile_subset _ he)
    exact tellsHeading_entryText hone (isPrintable_of_mem_told he)
  · intro s config settings verbose file snapshot d hload htypes hlabel hd hblock
    refine run_outline_of_ok hload hd ?_ verbose
    rw [hblock, htypes, hlabel]
    exact ho

/-! ### A title over two lines -/

/-- A section whose marker has the first two lines of a source as its title. -/
def foldedTree (source : Bytes) : Node where
  type := "section"
  span := ⟨0, 8⟩
  children := [{
    type := "setext_heading", span := ⟨0, 8⟩
    children := [{
      type := "paragraph", span := ⟨0, 4⟩, field := .text Outline.titleField
      content := .spanOf source }] }]

/-- Settings that choose other markers, a document with a title over two lines, and a grammar that
knows such titles. -/
def foldedSurroundings : Surroundings where
  files p :=
    if p = Path.ofText Settings.fileName then
      .file (Bytes.ofText "outline.heading_types = [\"setext_heading\"]\n")
    else .file (Bytes.ofText "a\nb\n===\n")
  grammars _ := .loaded {
    accept := fun _ => .ok ()
    parse := fun _ source => .ok (foldedTree source) }
  freshToken _ := "fresh"

/-- The one heading of the document takes two lines. -/
theorem folded_title_breaks :
    let out := run foldedSurroundings ⟨none, false, .outline "x.md" false false⟩
    out.output = "Headings\n  a\nb\t0-8\n" ∧ out.ending = .exit 0 ∧
      ¬HasLines out.output ["Headings", "  a\nb\t0-8"] := by
  let source := Bytes.ofText "a\nb\n===\n"
  let settings : Settings := {
    headingTypes := ["setext_heading"], found := some (Path.ofText Settings.fileName) }
  have hload : Settings.load foldedSurroundings.files none = .ok settings := by
    have hpresent : Settings.firstPresent foldedSurroundings.files [Path.ofText Settings.fileName] =
        .ok (some (Path.ofText Settings.fileName)) := by rfl
    have hcontent : foldedSurroundings.files.read (Path.ofText Settings.fileName) =
        .ok (Bytes.ofText "outline.heading_types = [\"setext_heading\"]\n") := by rfl
    have htext : (Bytes.ofText "outline.heading_types = [\"setext_heading\"]\n").toText? =
        some "outline.heading_types = [\"setext_heading\"]\n" := by cbv
    have hroot : Toml.read "outline.heading_types = [\"setext_heading\"]\n" =
        .ok (.map [(.text "outline", .map [(.text "heading_types",
          .list [.text "setext_heading"])])]) := by cbv
    exact Settings.load_eq hpresent hcontent htext hroot
  have hd : ∃ d, (loadDocument foldedSurroundings settings "x.md" false).result = .ok d ∧
      d.block = some (foldedTree source) := ⟨_, rfl, rfl⟩
  obtain ⟨d, hd, hblock⟩ := hd
  have hentry : (Outline.build (some (foldedTree source)) ["setext_heading"] "Headings").toOption =
      some ⟨"Headings", [⟨"a\nb", ⟨0, 8⟩, 1⟩]⟩ := by
    decide +kernel
  obtain ⟨o, ho, -, htext, -, -, hfault, hlines, hrun⟩ :=
    outline_lines_tell_headings (foldedTree source) ["setext_heading"] "Headings" (by decide)
  rw [ho] at hentry
  obtain rfl := Option.some.inj hentry
  obtain ⟨houtput, hending⟩ :=
    hrun foldedSurroundings none settings false "x.md" false d hload rfl rfl hd hblock
  have hshown : told ⟨"Headings", [⟨"a\nb", ⟨0, 8⟩, 1⟩]⟩ = [⟨"a\nb", ⟨0, 8⟩, 1⟩] := by
    decide +kernel
  dsimp only
  rw [houtput, hending, hfault]
  refine ⟨?_, by decide +kernel, ?_⟩
  · rw [htext, hshown]
    decide +kernel
  · intro h
    exact absurd ((hlines.mp h) _ List.mem_cons_self).1 (by decide)

end Limn.Command
