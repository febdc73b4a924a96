import Limn.Proofs.Answering

/-! # Two ways to ask

The same work can be asked for on a command line and of a service. An installation can be asked
either way. Where its grammars give trees for a text (`Parses`), the two come to the same runs and
the same outline, or refuse the same names in the same words; only a name that is no text is refused
by the command alone (`command_agrees_with_service`).
-/

namespace Limn

open Limn.Text (Symbol)

/-! ## Installations -/

/-- Surroundings in which a session can be started under the settings in force. -/
structure Installation where
  surroundings : Command.Surroundings
  config : Option String
  settings : Settings
  loads : Settings.load surroundings.files (config.map Path.ofText) = .ok settings
  session : Session
  starts : (Session.start settings surroundings.grammars).result = .ok session

namespace Installation

open Command

/-- A service with the session. -/
def service (w : Installation) (token : Option String) (cors : Bool) : Service :=
  ⟨w.session, token, cors⟩

variable (w : Installation) {file : String} {source : Bytes}

theorem started : Session.IsStarted w.settings w.surroundings.grammars w.session :=
  Session.isStarted w.starts

theorem parse_outcome :
    (w.session.parse source).outcome = (w.session.parser.parse source).document :=
  Logged.bind_pure _

/-- Parsing a document, which has both trees unless a grammar breaks down. -/
theorem parse_cases (source : Bytes) :
    (∃ reason, (w.session.parse source).outcome = .of (.error (.grammarCrash reason))) ∨
      ∃ n block inline regions, n.level = .debug ∧ (w.session.parse source).outcome =
        ⟨[n], .ok ⟨some block, some inline, source, regions⟩⟩ := by
  obtain ⟨pair, hpair⟩ := w.started.ready
  rw [w.parse_outcome]
  exact Parser.parse_document hpair source

theorem parse_isQuiet (source : Bytes) : (w.session.parse source).outcome.IsQuiet := by
  obtain ⟨reason, hparse⟩ | ⟨n, block, inline, regions, hn, hparse⟩ := w.parse_cases source
  · rw [hparse]
    exact Logged.isQuiet_of _
  · rw [hparse]
    exact Logged.isQuiet_note hn

theorem loadDocument_eq (hread : readSource w.surroundings file = .ok source) :
    loadDocument w.surroundings w.settings file false = (w.session.parse source).outcome := by
  show (Session.start w.settings w.surroundings.grammars >>= fun session =>
    Logged.of (readSource w.surroundings file) >>= fun source => (session.parse source).outcome) = _
  rw [w.started.start_eq, hread]
  rfl

/-! ### Highlighting -/

theorem run_highlight (names : List Wording) :
    run w.surroundings ⟨w.config, false, .highlight file names false true⟩ =
      printed false (highlight w.surroundings w.settings file names false true) := by
  unfold run
  rw [w.loads]

theorem session_highlight_result (choice : Option (List String)) :
    (w.session.highlight source choice).outcome.result =
      (w.session.parse source).outcome.result >>= fun d =>
        (w.session.highlighter.evaluate d.block d.inline choice).map (·.runs) := by
  show ((w.session.parser.parse source).document >>= fun d =>
    Session.highlightDocument w.session.highlighter d choice).result = _
  rw [Logged.result_bind, ← w.parse_outcome]
  simp only [Session.highlightDocument_result]

theorem highlight_result (hread : readSource w.surroundings file = .ok source)
    (names : List String) :
    (highlight w.surroundings w.settings file (names.map .text) false true).result =
      (w.session.highlight source (choiceOf names)).outcome.result.map runJson := by
  have hchosen : (if names.isEmpty then w.settings.features else names) =
      (choiceOf names).getD w.settings.features := by
    cases names with
    | nil => rfl
    | cons n rest => rfl
  unfold highlight
  rw [w.loadDocument_eq hread, Feature.textNames_map, Logged.result_bind, session_highlight_result]
  obtain ⟨reason, hparse⟩ | ⟨n, block, inline, regions, -, hparse⟩ := w.parse_cases source
  · rw [hparse]
    rfl
  · have hcreate := w.started.highlighter
    have hsame := Highlighter.evaluate_chosen hcreate (choiceOf names) block inline
    rw [hparse]
    change (Logged.of (Highlighter.create Feature.markdown
      (some (if names.isEmpty then w.settings.features else names))) >>= fun own => _).result =
        ((w.session.highlighter.evaluate (some block) (some inline) (choiceOf names)).map
          (·.runs)).map runJson
    -- the command's own highlighter is made after the document was parsed, but before it is used
    rw [← hsame, hchosen, Logged.result_bind]
    cases Highlighter.create Feature.markdown
        (some ((choiceOf names).getD w.settings.features)) with
    | error e => rfl
    | ok own =>
        show (Session.highlightDocument own _ none >>= fun runs => pure (runJson runs)).result = _
        rw [Logged.result_bind, Session.highlightDocument_result]
        show ((own.evaluate (some block) (some inline) none).map (·.runs) >>= _) =
          ((own.evaluate (some block) (some inline) none).map (·.runs)).map runJson
        cases own.evaluate (some block) (some inline) none with
        | error e => rfl
        | ok e => rfl

/-- A command reports a name that is no text like any other that is not declared. -/
theorem highlight_result_halved (hread : readSource w.surroundings file = .ok source)
    {names : List Wording} {k : Halved} (hk : .halved k ∈ names) :
    ∃ unknown known, (highlight w.surroundings w.settings file names false true).result =
      (w.session.parse source).outcome.result >>= fun _ =>
        .error (.unknownFeatures unknown known) := by
  obtain ⟨unknown, known, hnames⟩ := Feature.textNames_of_halved Feature.markdown hk
  refine ⟨unknown, known, ?_⟩
  unfold highlight
  rw [w.loadDocument_eq hread, hnames, Logged.result_bind]
  rfl

theorem highlight_isQuiet (hread : readSource w.surroundings file = .ok source)
    (names : List Wording) :
    (highlight w.surroundings w.settings file names false true).IsQuiet := by
  unfold highlight
  rw [w.loadDocument_eq hread]
  refine Logged.IsQuiet.bind (w.parse_isQuiet source) fun d => ?_
  refine (Logged.isQuiet_of _).bind fun own => (Logged.isQuiet_of _).bind fun h => ?_
  refine Logged.IsQuiet.bind ?_ fun runs => Logged.isQuiet_of _
  exact (Logged.isQuiet_of _).bind fun e =>
    (Logged.isQuiet_note rfl).bind fun _ => Logged.isQuiet_of _

/-- What comes of highlighting a document: the grammars break down, or the names decide. -/
theorem highlight_cases (source : Bytes) (names : List String) :
    (∃ reason, (w.session.parse source).outcome.result = .error (.grammarCrash reason) ∧
        (w.session.highlight source (choiceOf names)).outcome.result =
          .error (.grammarCrash reason)) ∨
      (∃ d, (w.session.parse source).outcome.result = .ok d) ∧
        ((Feature.Declares Feature.markdown (choiceOf names) ∧
            ∃ runs, (w.session.highlight source (choiceOf names)).outcome.result = .ok runs) ∨
          (¬Feature.Declares Feature.markdown (choiceOf names) ∧
            ∃ chosen, (w.session.highlight source (choiceOf names)).outcome.result =
              .error (Feature.undeclared Feature.markdown chosen))) := by
  rw [session_highlight_result]
  obtain ⟨reason, hparse⟩ | ⟨n, block, inline, regions, -, hparse⟩ := w.parse_cases source
  · rw [hparse]
    exact .inl ⟨reason, rfl, rfl⟩
  · rw [hparse]
    refine .inr ⟨⟨_, rfl⟩, ?_⟩
    obtain ⟨hdeclares, e, heval⟩ | ⟨hnot, chosen, heval⟩ :=
      Highlighter.evaluate_markdown w.started.highlighter (choiceOf names) block inline
    · refine .inl ⟨hdeclares, e.runs, ?_⟩
      show (w.session.highlighter.evaluate (some block) (some inline) (choiceOf names)).map _ = _
      rw [heval]
      rfl
    · refine .inr ⟨hnot, chosen, ?_⟩
      show (w.session.highlighter.evaluate (some block) (some inline) (choiceOf names)).map _ = _
      rw [heval]
      rfl

/-! ### Outlines -/

theorem run_outline :
    run w.surroundings ⟨w.config, false, .outline file false true⟩ =
      printed false (outline w.surroundings w.settings file false true) := by
  unfold run
  rw [w.loads]

theorem session_outline_result :
    (w.session.outline source).outcome.result =
      (w.session.parse source).outcome.result >>= fun d =>
        Outline.build d.block (w.settings.headingTypes.map .text) w.settings.group := by
  have hbuild : ∀ d, (Session.outlineDocument w.settings d).result =
      Outline.build d.block (w.settings.headingTypes.map .text) w.settings.group := by
    intro d
    unfold Session.outlineDocument
    rw [Logged.result_bind]
    show Outline.build d.block _ _ >>= _ = _
    cases Outline.build d.block (w.settings.headingTypes.map .text) w.settings.group with
    | error e => rfl
    | ok o => rfl
  show ((w.session.parser.parse source).document >>= fun d =>
    Session.outlineDocument w.session.settings d).result = _
  rw [Logged.result_bind, ← w.parse_outcome, w.started.settings_eq]
  simp only [hbuild]

theorem outline_result (hread : readSource w.surroundings file = .ok source) :
    (outline w.surroundings w.settings file false true).result =
      (w.session.outline source).outcome.result.map outlineJson := by
  unfold outline
  rw [w.loadDocument_eq hread, Logged.result_bind, session_outline_result]
  obtain ⟨reason, hparse⟩ | ⟨n, block, inline, regions, -, hparse⟩ := w.parse_cases source
  · rw [hparse]
    rfl
  · rw [hparse]
    rfl

theorem outline_isQuiet (hread : readSource w.surroundings file = .ok source) :
    (outline w.surroundings w.settings file false true).IsQuiet := by
  unfold outline
  rw [w.loadDocument_eq hread]
  refine Logged.IsQuiet.bind (w.parse_isQuiet source) fun d => ?_
  refine Logged.IsQuiet.bind ?_ fun o => Logged.isQuiet_of _
  exact (Logged.isQuiet_of _).bind fun o =>
    (Logged.isQuiet_note rfl).bind fun _ => Logged.isQuiet_of _

theorem outline_cases (source : Bytes) :
    (∃ reason, (w.session.outline source).outcome.result = .error (.grammarCrash reason)) ∨
      ∃ o, (w.session.outline source).outcome.result = .ok o := by
  rw [session_outline_result]
  obtain ⟨reason, hparse⟩ | ⟨n, block, inline, regions, -, hparse⟩ := w.parse_cases source
  · rw [hparse]
    exact .inl ⟨reason, rfl⟩
  · rw [hparse]
    exact .inr ⟨_, rfl⟩

/-! ## Agreement -/

/-- What a command prints about runs. -/
def printedRuns (runs : List Run) : Value :=
  .list (runs.map Command.runValue)

/-- What a service answers about runs. -/
def answeredRuns (runs : List Run) : List (String × Value) :=
  [("highlights", .list (runs.map Service.runValue))]

/-- What a command prints about an outline. -/
def printedOutline (o : Outline) : Value :=
  .map [(.text "group", .text o.group), (.text "entries", .list (o.entries.map Command.entryValue))]

/-- What a service answers about an outline. -/
def answeredOutline (o : Outline) : List (String × Value) :=
  [("group", .text o.group), ("entries", .list (o.entries.map Service.entryValue))]

theorem runValue_eq : Command.runValue = Service.runValue := by
  funext r
  rfl

theorem entryValue_eq : Command.entryValue = Service.entryValue := by
  funext e
  rfl

/-- The runs are written in one way, and the service puts them under a key. -/
theorem answeredRuns_eq (runs : List Run) :
    answeredRuns runs = [("highlights", printedRuns runs)] := by
  unfold answeredRuns printedRuns
  rw [runValue_eq]

/-- The members of an outline are written in one way. -/
theorem printedOutline_eq (o : Outline) :
    printedOutline o = .map ((answeredOutline o).map fun (k, v) => (.text k, v)) := by
  unfold printedOutline answeredOutline
  rw [entryValue_eq]
  rfl

/-- The service after requests in a row answers as if they had not been. -/
theorem content_after (s : Service) (earlier : List Request) (r : Request) :
    ((s.after earlier).answer r).content = (s.answer r).content := by
  obtain ⟨ranges, hafter⟩ := s.after_eq_told earlier
  unfold Service.Exchange.content
  rw [hafter, (s.answer_told ranges r).response]

/-! ### Texts -/

/-- The grammars give trees for a text, and no node of the block tree says what is no text. Nodes
that a grammar makes say what their octets decode to. -/
structure Parses (text : String) : Prop where
  document : ∃ d, (w.session.parse (Bytes.ofText text)).outcome.result = .ok d
  encodable : ∀ d root, (w.session.parse (Bytes.ofText text)).outcome.result = .ok d →
    d.block = some root → ∀ v ∈ root.walk, ∀ k, v.node.content ≠ .literal (.halved k)

end Installation

/-- What a node says is a text, unless it holds what is none. -/
theorem Node.text?_isText {n : Node} (h : ∀ k, n.content ≠ .literal (.halved k)) {said : Wording}
    (hsaid : n.text? = some said) : ∃ s, said = .text s := by
  unfold Node.text? at hsaid
  cases hcontent : n.content with
  | absent =>
      rw [hcontent] at hsaid
      contradiction
  | literal wording =>
      cases wording with
      | text s =>
          rw [hcontent] at hsaid
          exact ⟨s, (Option.some.inj hsaid).symm⟩
      | halved k => exact absurd hcontent (h k)
  | raw bytes =>
      rw [hcontent] at hsaid
      exact ⟨_, (Option.some.inj hsaid).symm⟩
  | spanOf source =>
      rw [hcontent] at hsaid
      exact ⟨_, (Option.some.inj hsaid).symm⟩

/-- The title of a node is said two steps below it. -/
theorem Outline.exists_of_heading? {types : List Wording} {n : Node} {e : OutlineEntry}
    (h : heading? types n = some e) :
    ∃ marker ∈ n.children, ∃ c ∈ marker.children, c.text?.map Wording.trim = some e.name := by
  unfold heading? title? at h
  split at h
  · obtain ⟨name, htitle, rfl⟩ := Option.map_eq_some_iff.mp h
    obtain ⟨marker, hmarker, htitle⟩ := Option.bind_eq_some_iff.mp htitle
    obtain ⟨c, hc, htitle⟩ := Option.bind_eq_some_iff.mp htitle
    obtain ⟨said, hsaid, htitle⟩ := Option.bind_eq_some_iff.mp htitle
    refine ⟨marker, List.mem_of_mem_filter (List.mem_of_mem_head? hmarker), c,
      List.mem_of_find?_eq_some hc, ?_⟩
    rw [hsaid]
    exact htitle
  · contradiction

theorem Outline.names_isText {root : Node} (h : ∀ v ∈ root.walk, ∀ k,
    v.node.content ≠ .literal (.halved k)) (types : List Wording) (group : String) {o : Outline}
    (ho : build (some root) types group = .ok o) : o.names.all (·.text?.isSome) = true := by
  obtain rfl := Except.ok.inj ho
  rw [List.all_eq_true]
  intro name hname
  obtain ⟨e, he, rfl⟩ := List.mem_map.mp hname
  obtain ⟨v, hv, he⟩ := List.mem_filterMap.mp he
  obtain ⟨marker, hmarker, c, hc, hsaid⟩ := exists_of_heading? he
  obtain ⟨said, hsaid, htrim⟩ := Option.map_eq_some_iff.mp hsaid
  have hvisited := Node.mem_walk_child (Node.mem_walk_child hv hmarker) hc
  obtain ⟨s, rfl⟩ := Node.text?_isText (h _ hvisited) hsaid
  rw [← htrim]
  rfl

namespace Installation

open Command

variable (w : Installation) {file text : String}

/-! ### Highlighting on both ways -/

/-- One of the names is not in the table. -/
def HasUndeclared (names : List Wording) : Prop :=
  ∃ name ∈ names, name ∉ (Feature.names Feature.markdown).map .text

theorem declares_iff (names : List String) :
    Feature.Declares Feature.markdown (choiceOf names) ↔ ¬HasUndeclared (names.map .text) := by
  unfold HasUndeclared
  push Not
  cases names with
  | nil => simp [Feature.Declares, choiceOf]
  | cons n rest => simp [Feature.Declares, choiceOf]

theorem hasUndeclared_of_halved {names : List Wording} {k : Halved} (hk : .halved k ∈ names) :
    HasUndeclared names := by
  refine ⟨_, hk, fun hmem => ?_⟩
  obtain ⟨s, -, hs⟩ := List.mem_map.mp hmem
  contradiction

theorem highlight_agrees (hread : readSource w.surroundings file = .ok (Bytes.ofText text))
    {names : List String} {token : Option String} {cors : Bool} (earlier : List Request)
    {r : Request}
    (hr : (w.service token cors).Posts r .highlight (highlightBody text (names.map .text))) :
    Agree (run w.surroundings ⟨w.config, false, .highlight file (names.map .text) false true⟩)
      (((w.service token cors).after earlier).answer r) printedRuns answeredRuns := by
  rw [w.run_highlight]
  refine agree_of_result (w.highlight_isQuiet hread _) (w.highlight_result hread names) ?_ ?_ ?_
  · rw [content_after]
    exact Service.content_highlight hr
  · intro runs
    simp [Service.success, answeredRuns_eq, Value.isWritable, Value.entriesWritable]
  · intro e he hreported
    obtain ⟨reason, -, hcrash⟩ | ⟨-, ⟨-, runs, hok⟩ | ⟨-, chosen, hunknown⟩⟩ :=
      w.highlight_cases (Bytes.ofText text) names
    · obtain rfl : Error.grammarCrash reason = e := Except.error.inj (hcrash.symm.trans he)
      contradiction
    · rw [hok] at he
      contradiction
    · exact ⟨_, _, (Except.error.inj (hunknown.symm.trans he)).symm⟩

/-- A service finds fault with names of features just if one of them is not declared. -/
theorem refused_iff (hparses : w.Parses text) {names : List String} {token : Option String}
    {cors : Bool} (earlier : List Request) {r : Request}
    (hr : (w.service token cors).Posts r .highlight (highlightBody text (names.map .text))) :
    (∃ m, (((w.service token cors).after earlier).answer r).content =
        .ok (400, (Service.detail 400 m).body)) ↔ HasUndeclared (names.map .text) := by
  rw [content_after, Service.content_highlight hr]
  change (∃ m, (Service.settled (w.session.highlight (Bytes.ofText text)
    (choiceOf names)).outcome.result _).map _ = _) ↔ _
  obtain ⟨reason, hparse, hcrash⟩ | ⟨-, ⟨hall, runs, hok⟩ | ⟨hnot, chosen, hunknown⟩⟩ :=
    w.highlight_cases (Bytes.ofText text) names
  · obtain ⟨d, hd⟩ := hparses.document
    rw [hparse] at hd
    contradiction
  · -- runs are answered with another status, or not at all if a number cannot be written
    rw [hok]
    refine iff_of_false ?_ ((declares_iff names).mp hall)
    rintro ⟨m, h⟩
    change (Service.sent _).map _ = _ at h
    unfold Service.sent at h
    split at h
    · exact absurd (congrArg (Except.map Prod.fst) h) (by simp [Except.map, Service.success])
    · contradiction
  · rw [hunknown]
    refine iff_of_true ⟨_, rfl⟩ ?_
    by_contra hnone
    exact hnot ((declares_iff names).mpr hnone)

/-- A name that is no text is reported by a command, in words that a service cannot send. -/
theorem halved_refused (hread : readSource w.surroundings file = .ok (Bytes.ofText text))
    (hparses : w.Parses text) {names : List Wording} {k : Halved} (hk : .halved k ∈ names)
    {token : Option String} {cors : Bool} (earlier : List Request) {r : Request}
    (hr : (w.service token cors).Posts r .highlight (highlightBody text names)) :
    (∃ m, (run w.surroundings ⟨w.config, false, .highlight file names false true⟩).ending =
        .exit 1 ∧
      (run w.surroundings ⟨w.config, false, .highlight file names false true⟩).report =
        "Error: " ++ m ++ "\n") ∧
    (((w.service token cors).after earlier).answer r).content = .error .unencodableText := by
  obtain ⟨d, hd⟩ := hparses.document
  constructor
  · obtain ⟨unknown, known, hresult⟩ := w.highlight_result_halved hread hk
    refine ⟨(Error.unknownFeatures unknown known).message, ?_⟩
    rw [w.run_highlight, printed_of_quiet (w.highlight_isQuiet hread names), hresult, hd]
    exact ⟨rfl, rfl⟩
  · rw [content_after, Service.content_highlight_halved hk hr]
    change (Service.settled (w.session.parse (Bytes.ofText text)).outcome.result _).map _ = _
    rw [hd]
    rfl

/-- How a command fares that highlights with these names, and a service that is asked to. -/
structure Matched (names : List Wording) (o : Outcome) (x : Service.Exchange) : Prop where
  agree : (∀ k, .halved k ∉ names) → Agree o x printedRuns answeredRuns
  reported_iff : (∃ m, o.ending = .exit 1 ∧ o.report = "Error: " ++ m ++ "\n") ↔
    HasUndeclared names
  refused_iff : (∃ m, x.content = .ok (400, (Service.detail 400 m).body)) ↔
    HasUndeclared names ∧ ∀ k, .halved k ∉ names
  unanswered : ∀ k, .halved k ∈ names → x.content = .error .unencodableText

theorem highlight_matched (hread : readSource w.surroundings file = .ok (Bytes.ofText text))
    (hparses : w.Parses text) {names : List Wording} {token : Option String} {cors : Bool}
    (earlier : List Request) {r : Request}
    (hr : (w.service token cors).Posts r .highlight (highlightBody text names)) :
    Matched names (run w.surroundings ⟨w.config, false, .highlight file names false true⟩)
      (((w.service token cors).after earlier).answer r) := by
  obtain ⟨texts, rfl⟩ | ⟨k, hk⟩ := Wording.texts_or_halved names
  · have hagree := w.highlight_agrees hread earlier hr
    have hrefused := w.refused_iff hparses earlier hr
    have hwhole : ∀ k, Wording.halved k ∉ texts.map Wording.text := by
      intro k hk
      obtain ⟨s, -, hs⟩ := List.mem_map.mp hk
      contradiction
    refine ⟨fun _ => hagree, ?_, ?_, fun k hk => absurd hk (hwhole k)⟩
    · rw [← hrefused]
      exact exists_congr hagree.report_iff
    · rw [hrefused]
      exact (and_iff_left hwhole).symm
  · obtain ⟨hreported, hcontent⟩ := w.halved_refused hread hparses hk earlier hr
    refine ⟨fun hwhole => absurd hk (hwhole k), iff_of_true hreported (hasUndeclared_of_halved hk),
      iff_of_false ?_ fun h => h.2 k hk, fun _ _ => hcontent⟩
    rintro ⟨m, hm⟩
    rw [hcontent] at hm
    contradiction

/-! ### Outlines on both ways -/

theorem outline_agrees (hread : readSource w.surroundings file = .ok (Bytes.ofText text))
    (hparses : w.Parses text) {token : Option String} {cors : Bool} (earlier : List Request)
    {r : Request} (hr : (w.service token cors).Posts r .outline (outlineBody text)) :
    Agree (run w.surroundings ⟨w.config, false, .outline file false true⟩)
      (((w.service token cors).after earlier).answer r) printedOutline answeredOutline := by
  -- the titles of the outline are texts, so the answer is sent whenever its numbers can be
  have hnames : ∀ o, (w.session.outline (Bytes.ofText text)).outcome.result = .ok o →
      o.names.all (·.text?.isSome) = true := by
    intro o ho
    rw [session_outline_result] at ho
    obtain ⟨reason, hparse⟩ | ⟨n, block, inline, regions, -, hparse⟩ := w.parse_cases _
    · rw [hparse] at ho
      contradiction
    · have hencodable := hparses.encodable _ block (congrArg Logged.result hparse) rfl
      rw [hparse] at ho
      exact Outline.names_isText hencodable _ _ ho
  rw [w.run_outline]
  refine agree_of_result (w.outline_isQuiet hread) (w.outline_result hread) ?_ ?_ ?_
  · rw [content_after, Service.content_outline hr]
    change (Service.settled (w.session.outline (Bytes.ofText text)).outcome.result _).map _ = _
    cases ho : (w.session.outline (Bytes.ofText text)).outcome.result with
    | error e => rfl
    | ok o =>
        unfold Service.settled Service.sent answeredOutline
        dsimp only
        rw [hnames o ho]
        split <;> rfl
  · intro o
    rw [printedOutline_eq]
    rfl
  · intro e he hreported
    obtain ⟨reason, hcrash⟩ | ⟨o, hok⟩ := w.outline_cases (Bytes.ofText text)
    · obtain rfl : Error.grammarCrash reason = e := Except.error.inj (hcrash.symm.trans he)
      contradiction
    · rw [hok] at he
      contradiction

/-- **A command and a service agree**, except on names that are no texts. Let a file hold a text for
which the grammars give trees, and let a service with a session under the same settings be asked for
the same, after whatever other requests. -/
theorem command_agrees_with_service (hfile : file.toList.head? ≠ some '-')
    (hread : w.surroundings.files.read (Path.ofText file) = .ok (Bytes.ofText text))
    (hparses : w.Parses text) (token : Option String) (cors : Bool) (earlier : List Request) :
    (∀ texts : List String, readLine (configWords w.config ++
        "highlight" :: "--json" :: (texts.map ("--feature=" ++ ·) ++ [file])) =
      .ok ⟨w.config, false, .highlight file (texts.map .text) false true⟩) ∧
    (∀ names r, (w.service token cors).Posts r .highlight (highlightBody text names) →
      Matched names (run w.surroundings ⟨w.config, false, .highlight file names false true⟩)
        (((w.service token cors).after earlier).answer r)) ∧
    (∀ runs, answeredRuns runs = [("highlights", printedRuns runs)]) ∧
    readLine (configWords w.config ++ ["outline", "--json", file]) =
      .ok ⟨w.config, false, .outline file false true⟩ ∧
    (∀ r, (w.service token cors).Posts r .outline (outlineBody text) →
      Agree (run w.surroundings ⟨w.config, false, .outline file false true⟩)
        (((w.service token cors).after earlier).answer r) printedOutline answeredOutline) ∧
    ∀ o, printedOutline o = .map ((answeredOutline o).map fun (k, v) => (.text k, v)) := by
  have hsource : readSource w.surroundings file = .ok (Bytes.ofText text) := by
    unfold readSource
    rw [if_neg, hread]
    intro hdash
    rw [eq_of_beq hdash] at hfile
    exact hfile rfl
  refine ⟨readLine_highlight w.config hfile, fun names r hr => ?_, answeredRuns_eq,
    readLine_outline w.config hfile, fun r hr => ?_, printedOutline_eq⟩
  · exact w.highlight_matched hsource hparses earlier hr
  · exact w.outline_agrees hsource hparses earlier hr

end Installation

/-! ### Refusals -/

namespace Installation

open Command

/-- Surroundings with one file, which holds the text `ab`. -/
def abSurroundings : Surroundings where
  files p := if p.name == "ab.md" then .file (Bytes.ofText "ab") else .missing .notFound
  grammars _ := .loaded Session.shortRegions
  freshToken _ := "fresh"

/-- A request to highlight with this body, from another origin. -/
def highlightRequest (body : String) : Request where
  method := "POST"
  path := "/highlight"
  headers := [("Content-Type", "application/json"), ("Authorization", "Bearer secret"),
    ("Origin", "null")]
  body := Bytes.ofText body

/-- A body that asks for a feature that there is not. -/
def boldBody : String :=
  "\x7b\"text\": \"ab\", \"features\": [\"bold\"]\x7d"

/-- A body that asks for a feature whose name is half of a pair. -/
def halfBody : String :=
  "\x7b\"text\": \"ab\", \"features\": [\"\\ud800\"]\x7d"

/-- A name that is the first half of a pair. -/
def halfName : Halved :=
  ⟨[.half ⟨0xd800, by decide⟩], by decide⟩

theorem content_highlightRequest {body : String} {v : Json}
    (hannounced : ((highlightRequest body).body.isEmpty ||
      !Request.isJson (highlightRequest body).contentType) = false)
    (hsymbols : (Text.Encoding.detect (highlightRequest body).body).decode
      (highlightRequest body).body = some (Symbol.ofText body))
    (hread : Json.read (some Text.mostDigits) (Symbol.ofText body) = .ok v) :
    (highlightRequest body).content = .json v := by
  unfold Request.content Request.readJson
  rw [hannounced, hsymbols]
  dsimp only
  rw [hread]
  rfl

theorem content_boldBody :
    (highlightRequest boldBody).content = .json (highlightBody "ab" ["bold"]) :=
  content_highlightRequest (by decide +kernel) (by decide +kernel) (by cbv)

theorem content_halfBody :
    (highlightRequest halfBody).content = .json (highlightBody "ab" [.halved halfName]) :=
  content_highlightRequest (by decide +kernel) (by decide +kernel) (by cbv)

/-- A command and a service refuse a feature that there is not in the same words. If its name is
half of a pair, the command refuses it and the service gives no answer. -/
theorem half_name_parts_ways :
    ∃ (w : Installation) (m m' : String), w.surroundings = abSurroundings ∧
      readLine ["highlight", "--json", "--feature=bold", "ab.md"] =
        .ok ⟨none, false, .highlight "ab.md" ["bold"] false true⟩ ∧
      (run abSurroundings ⟨none, false, .highlight "ab.md" ["bold"] false true⟩).report =
        "Error: " ++ m ++ "\n" ∧
      ((w.service (some "secret") true).answer (highlightRequest boldBody)).content =
        .ok (400, (Service.detail 400 m).body) ∧
      (run abSurroundings ⟨none, false, .highlight "ab.md" [.halved halfName] false true⟩).report =
        "Error: " ++ m' ++ "\n" ∧
      ((w.service (some "secret") true).answer (highlightRequest halfBody)).content =
        .error .unencodableText := by
  obtain ⟨session, block, d, hstart, hparse, hblock, hwalk⟩ : ∃ session block d,
      (Session.start {} abSurroundings.grammars).result = .ok session ∧
        (session.parse (Bytes.ofText "ab")).outcome.result = .ok d ∧
        d.block = some block ∧ ∀ v ∈ block.walk, v.node.content = .absent :=
    ⟨_, _, _, rfl, by rfl, rfl, by decide⟩
  let w : Installation := ⟨abSurroundings, none, {}, by rfl, session, hstart⟩
  have hparses : w.Parses "ab" := by
    refine ⟨⟨d, hparse⟩, fun d' root hd hroot v hv k => ?_⟩
    obtain rfl := Except.ok.inj (hparse.symm.trans hd)
    obtain rfl := Option.some.inj (hblock.symm.trans hroot)
    rw [hwalk v hv]
    exact Content.noConfusion
  have hfile : "ab.md".toList.head? ≠ some '-' := by decide
  have hposts : ∀ body names, (highlightRequest body).content = .json (highlightBody "ab" names) →
      (w.service (some "secret") true).Posts (highlightRequest body) .highlight
        (highlightBody "ab" names) := by
    intro body names hcontent
    have hfind : (w.service (some "secret") true).find? "/highlight" = some .highlight :=
      Service.find?_of_mem _ (by decide)
    exact ⟨hfind, rfl, by rfl, hcontent⟩
  obtain ⟨hline, hmatched, -⟩ :=
    w.command_agrees_with_service hfile (by rfl) hparses (some "secret") true []
  have hbold := hmatched _ _ (hposts _ _ content_boldBody)
  have hhalf := hmatched _ _ (hposts _ _ content_halfBody)
  obtain ⟨m, hm⟩ := hbold.refused_iff.mpr ⟨⟨"bold", by decide, by decide⟩, by simp⟩
  obtain ⟨m', -, hm'⟩ := hhalf.reported_iff.mpr (hasUndeclared_of_halved List.mem_cons_self)
  refine ⟨w, m, m', rfl, hline ["bold"], ?_, hm, hm', ?_⟩
  · exact (((hbold.agree (by simp)).report_iff m).mpr hm).2
  · exact hhalf.unanswered halfName List.mem_cons_self

end Installation

end Limn
