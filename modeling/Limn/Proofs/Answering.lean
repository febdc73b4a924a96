import Limn.Proofs.Access
import Limn.Proofs.Switching

/-! # Printing and answering

A command reads a file and makes a highlighter of its own for the features that it is given; a
service takes a text and leaves the choice to the highlighter that its session has. Both
highlighters come to the same result (`Highlighter.evaluate_chosen`). From there on a printed
outcome and an answer tell the same story (`Agree`, `agree_of_result`), provided that the request
reads as what the command was asked for (`content_highlight`, `content_outline`).
-/

namespace Limn

open Limn.Text (Symbol)

/-! ## Started sessions -/

namespace Parser

theorem loadGrammar_notices {grammars : Grammars} {name : Value}
    {reasons reasons' : List (Value × String)} {g : Grammar}
    (h : (loadGrammar grammars name reasons).result = .ok (some g, reasons')) :
    (loadGrammar grammars name reasons).notices = [] := by
  unfold loadGrammar at h ⊢
  cases hlookup : grammars name with
  | loaded g => rfl
  | broken reason => rfl
  | unavailable reason =>
      -- a grammar that is not there leaves nothing behind, or is an error by its name
      rw [hlookup] at h
      obtain ⟨-, -, h⟩ := Logged.bind_ok h
      split at h
      · exact absurd (congrArg (Except.map Prod.fst) h) (by rintro ⟨⟩)
      · contradiction

/-- A parser that has both grammars was made without a notice. -/
theorem create_notices {grammars : Grammars} {blockLanguage inlineLanguage : Value} {p : Parser}
    (h : (create grammars blockLanguage inlineLanguage).result = .ok p)
    {pair : Grammar × Grammar} (hpair : p.grammarPair = .ok pair) :
    (create grammars blockLanguage inlineLanguage).notices = [] := by
  unfold create at h ⊢
  obtain ⟨⟨block, reasons⟩, hblock, h⟩ := Logged.bind_ok h
  obtain ⟨⟨inline, reasons'⟩, hinline, h⟩ := Logged.bind_ok h
  obtain rfl := Except.ok.inj h
  rw [Logged.notices_bind hblock, Logged.notices_bind hinline]
  unfold grammarPair at hpair
  cases block with
  | none => contradiction
  | some block =>
      cases inline with
      | none => contradiction
      | some inline =>
          rw [loadGrammar_notices hblock, loadGrammar_notices hinline]
          rfl

/-- With both grammars there, a document has both trees unless a grammar breaks down. -/
theorem parse_document {p : Parser} {pair : Grammar × Grammar} (hpair : p.grammarPair = .ok pair)
    (source : Bytes) :
    (∃ reason, (p.parse source).document = .of (.error (.grammarCrash reason))) ∨
      ∃ n block inline regions, n.level = .debug ∧
        (p.parse source).document = ⟨[n], .ok ⟨some block, some inline, source, regions⟩⟩ := by
  unfold parse
  rw [hpair]
  dsimp only
  cases pair.1.parse [] source with
  | error reason => exact .inl ⟨reason, rfl⟩
  | ok tree =>
      dsimp only
      cases pair.2.accept tree.inlineRegions with
      | error reason => exact .inl ⟨reason, rfl⟩
      | ok told =>
          dsimp only
          cases pair.2.parse tree.inlineRegions (inlineSource source tree.inlineRegions) with
          | error reason => exact .inl ⟨reason, rfl⟩
          | ok inlineTree =>
              exact .inr ⟨.parsed source.length tree.inlineRegions.length, tree, inlineTree,
                tree.inlineRegions, rfl, rfl⟩

end Parser

namespace Session

/-- What is known of a session that was started. -/
structure IsStarted (settings : Settings) (grammars : Grammars) (s : Session) : Prop where
  start_eq : start settings grammars = ⟨[], .ok s⟩
  settings_eq : s.settings = settings
  ready : ∃ pair, s.parser.grammarPair = .ok pair
  highlighter : Highlighter.create Feature.markdown (some settings.features) = .ok s.highlighter

theorem isStarted {settings : Settings} {grammars : Grammars} {s : Session}
    (h : (start settings grammars).result = .ok s) : IsStarted settings grammars s := by
  have hparts : (start settings grammars).notices = [] ∧ s.settings = settings ∧
      (∃ pair, s.parser.grammarPair = .ok pair) ∧
        Highlighter.create Feature.markdown (some settings.features) = .ok s.highlighter := by
    unfold start at h ⊢
    obtain ⟨p, hp, h⟩ := Logged.bind_ok h
    obtain ⟨pair, hpair, h⟩ := Logged.bind_ok h
    obtain ⟨highlighter, hcreate, h⟩ := Logged.bind_ok h
    obtain rfl := Except.ok.inj h
    refine ⟨?_, rfl, ⟨pair, hpair⟩, hcreate⟩
    rw [Logged.notices_bind hp, Logged.notices_bind hpair, Logged.notices_bind hcreate,
      Parser.create_notices hp hpair]
    rfl
  obtain ⟨hnotices, hsettings, hready, hcreate⟩ := hparts
  refine ⟨?_, hsettings, hready, hcreate⟩
  rw [← h, ← hnotices]

theorem highlightDocument_result (h : Highlighter) (d : Document)
    (features : Option (List String)) :
    (highlightDocument h d features).result =
      (h.evaluate d.block d.inline features).map (·.runs) := by
  unfold highlightDocument
  rw [Logged.result_bind]
  show h.evaluate d.block d.inline features >>= _ = _
  cases h.evaluate d.block d.inline features with
  | error e => rfl
  | ok e => rfl

end Session

/-! ## Choosing features -/

theorem Feature.declares_of_select {features : List Feature} {choice : Option (List String)}
    {active : List Feature} (h : select features choice = .ok active) :
    Declares features choice := by
  by_contra hnot
  obtain ⟨chosen, rfl, herror⟩ := exists_of_not_declares hnot
  rw [herror] at h
  contradiction

/-- Choosing the features that are on by their names leaves them on. -/
theorem Feature.select_names {features : List Feature} {choice : Option (List String)}
    {active : List Feature} (h : select features choice = .ok active) :
    select features (some (names active)) = .ok active := by
  have hchosen := select_chosen (declares_of_select h)
  obtain rfl : active = chosen features choice := Except.ok.inj (h.symm.trans hchosen)
  exact select_names_chosen features choice

theorem Feature.textNames_map (features : List Feature) (names : List String) :
    textNames features (names.map .text) = .ok names := by
  unfold textNames
  rw [Wording.mapM_text?]

theorem Feature.textNames_of_halved (features : List Feature) {names : List Wording} {k : Halved}
    (hk : .halved k ∈ names) :
    ∃ unknown known, textNames features names = .error (.unknownFeatures unknown known) := by
  unfold textNames
  rw [Wording.mapM_text?_of_halved hk]
  exact ⟨_, _, rfl⟩

theorem Highlighter.exists_of_create {features : List Feature} {enabled : Option (List String)}
    {h : Highlighter} (hcreate : create features enabled = .ok h) :
    ∃ active, Feature.select features enabled = .ok active ∧
      h = ⟨features, Feature.names active⟩ := by
  unfold create at hcreate
  cases hselect : Feature.select features enabled with
  | error e =>
      rw [hselect] at hcreate
      contradiction
  | ok active =>
      rw [hselect] at hcreate
      exact ⟨active, rfl, (Except.ok.inj hcreate).symm⟩

/-- It is the same whether a highlighter is made for a choice or told the choice when it is used.
Without a choice, both fall back on the settings. -/
theorem Highlighter.evaluate_chosen {features : List Feature} {initial : List String}
    {h : Highlighter} (hcreate : create features (some initial) = .ok h)
    (choice : Option (List String)) (block inline : Node) :
    (create features (some (choice.getD initial)) >>= fun own =>
        own.evaluate (some block) (some inline) none) =
      h.evaluate (some block) (some inline) choice := by
  cases choice with
  | none =>
      rw [Option.getD_none, hcreate]
      rfl
  | some chosen =>
      obtain ⟨initially, -, rfl⟩ := exists_of_create hcreate
      rw [Option.getD_some]
      unfold create evaluate
      dsimp only
      rw [Option.getD_some]
      cases hselect : Feature.select features (some chosen) with
      | error e => rfl
      | ok active =>
          show (Feature.select features (some (Feature.names active)) >>= _) = _
          rw [Feature.select_names hselect]

/-- A highlighter for Markdown answers every choice of declared names, and refuses every other. -/
theorem Highlighter.evaluate_markdown {initial : List String} {h : Highlighter}
    (hcreate : create Feature.markdown (some initial) = .ok h) (choice : Option (List String))
    (block inline : Node) :
    (Feature.Declares Feature.markdown choice ∧
        ∃ e, h.evaluate (some block) (some inline) choice = .ok e) ∨
      (¬Feature.Declares Feature.markdown choice ∧
        ∃ chosen, h.evaluate (some block) (some inline) choice =
          .error (Feature.undeclared Feature.markdown chosen)) := by
  obtain ⟨initially, hselect, hmade⟩ := exists_of_create hcreate
  by_cases hdeclares : Feature.Declares Feature.markdown choice
  · have hinitial := Feature.declares_of_select hselect
    obtain ⟨h', hcreate', heval⟩ := Table.markdown.exists_highlighter ⟨some initial, hinitial⟩
    obtain rfl : h' = h := Except.ok.inj (hcreate'.symm.trans hcreate)
    exact .inl ⟨hdeclares, _, heval ⟨choice, hdeclares⟩ block inline⟩
  · obtain ⟨chosen, rfl, herror⟩ := Feature.exists_of_not_declares hdeclares
    refine .inr ⟨hdeclares, chosen, ?_⟩
    unfold evaluate
    dsimp only
    rw [hmade, Option.getD_some, herror]
    rfl

/-! ## Printing and answering -/

/-- The status and the value of an answer. -/
def Service.Exchange.content (x : Exchange) : Except Error (Nat × Option Value) :=
  x.response.map fun a => (a.status, a.body)

open Command Service in
/-- The outcome of a command and an exchange with a service tell the same: both succeed with the
same result, of which the command prints one form and the service answers with another; both report
the same error; or both end with the same error that neither reports. -/
structure Agree {α : Type} (o : Outcome) (x : Exchange) (printout : α → Value)
    (members : α → List (String × Value)) : Prop where
  success_iff : o.ending = .exit 0 ↔ ∃ body, x.content = .ok (200, body)
  same : o.ending = .exit 0 → ∃ result, o.output = Json.indented (printout result) ++ "\n" ∧
    x.content = .ok (200, (success (members result)).body)
  report_iff : ∀ m, o.ending = .exit 1 ∧ o.report = "Error: " ++ m ++ "\n" ↔
    x.content = .ok (400, (detail 400 m).body)
  failed_iff : ∀ e, o.ending = .failed e ↔ x.content = .error e

namespace Command

theorem noticeLines_of_quiet {l : Logged Printout} (h : l.IsQuiet) :
    noticeLines false l.notices = "" := by
  have hnone : l.notices.filter (·.isShown false) = [] := by
    rw [List.filter_eq_nil_iff]
    intro n hn
    unfold Notice.isShown
    rw [h n hn]
    decide
  unfold noticeLines
  rw [hnone]
  rfl

theorem printed_of_quiet {l : Logged Printout} (h : l.IsQuiet) :
    printed false l = printed false (.of l.result) := by
  unfold printed failure
  dsimp only [Logged.of]
  rw [noticeLines_of_quiet h]
  rfl

end Command

section Agree

open Command Service

variable {α : Type} {o : Outcome} {x : Exchange} {printout : α → Value}
  {members : α → List (String × Value)}

theorem agree_of_success {result : α} (hending : o.ending = .exit 0)
    (houtput : o.output = Json.indented (printout result) ++ "\n")
    (hx : x.content = .ok (200, (success (members result)).body)) :
    Agree o x printout members := by
  refine ⟨⟨fun _ => ⟨_, hx⟩, fun _ => hending⟩, fun _ => ⟨result, houtput, hx⟩, fun m => ?_,
    fun e => ?_⟩
  · rw [hending, hx]
    simp
  · rw [hending, hx]
    simp

theorem agree_of_failed {e : Error} (hending : o.ending = .failed e) (hx : x.content = .error e) :
    Agree o x printout members := by
  refine ⟨?_, fun h0 => ?_, fun m => ?_, fun e' => ?_⟩
  · rw [hending, hx]
    simp
  · rw [hending] at h0
    contradiction
  · rw [hending, hx]
    simp
  · rw [hending, hx]
    simp

theorem agree_of_reported {m : String} (hending : o.ending = .exit 1)
    (hreport : o.report = "Error: " ++ m ++ "\n")
    (hx : x.content = .ok (400, (detail 400 m).body)) : Agree o x printout members := by
  refine ⟨?_, fun h0 => ?_, fun m' => ?_, fun e => ?_⟩
  · rw [hending, hx]
    simp
  · rw [hending] at h0
    exact absurd (Ending.exit.inj h0) (by decide)
  · rw [hending, hreport, hx]
    simp [detail, String.append_left_inj, String.append_right_inj]
  · rw [hending, hx]
    simp

/-- A command that prints a result and a service that answers with it agree, whatever the result. -/
theorem agree_of_result {l : Logged Printout} {result : Except Error α} (hquiet : l.IsQuiet)
    (hl : l.result = result.map fun a => Printout.ofValue (printout a))
    (hx : x.content = (settled result fun a => sent (success (members a))).map
      fun a => (a.status, a.body))
    (hwritable : ∀ a, (success (members a)).body.all (·.isWritable) = (printout a).isWritable)
    (hreported : ∀ e, result = .error e → isReported e = true →
      ∃ unknown known, e = .unknownFeatures unknown known) :
    Agree (printed false l) x printout members := by
  rw [printed_of_quiet hquiet, hl]
  cases result with
  | ok a =>
      change x.content = (sent (success (members a))).map _ at hx
      show Agree (printed false (.of (.ok (Printout.ofValue (printout a))))) x printout members
      unfold sent at hx
      rw [hwritable] at hx
      unfold Printout.ofValue
      by_cases hw : (printout a).isWritable
      · rw [if_pos hw] at hx ⊢
        exact agree_of_success rfl rfl hx
      · rw [if_neg hw] at hx ⊢
        exact agree_of_failed rfl hx
  | error e =>
      change x.content = (Service.failure e).map _ at hx
      show Agree (Command.failure false [] e) x printout members
      -- of the errors that a command reports, only unknown features get this far
      by_cases hr : isReported e
      · obtain ⟨unknown, known, rfl⟩ := hreported e rfl hr
        exact agree_of_reported rfl rfl hx
      · have hservice : Service.failure e = .error e := by
          cases e <;> first | rfl | exact absurd rfl hr
        rw [hservice] at hx
        refine agree_of_failed ?_ hx
        unfold Command.failure
        rw [if_neg hr]

end Agree

/-! ## Orders -/

/-- The names as a choice: giving none is making no choice. -/
def choiceOf {α : Type} (names : List α) : Option (List α) :=
  if names.isEmpty then none else some names

/-- The body of a request to highlight a text. -/
def highlightBody (text : String) (names : List Wording) : Json :=
  .object [(Symbol.ofText "text", .text (Symbol.ofText text)),
    (Symbol.ofText "features",
      if names.isEmpty then .null else .list (names.map fun n => .text n.symbols))]

/-- The body of a request for the outline of a text. -/
def outlineBody (text : String) : Json :=
  .object [(Symbol.ofText "text", .text (Symbol.ofText text))]

namespace Order

theorem namesOf_texts (names : List Wording) :
    namesOf (names.map fun n => Json.text n.symbols) = .ok (names.map Wording.symbols) := by
  have hfaultless : (names.map fun n => Json.text n.symbols).filter
      (fun item => item.symbols?.isNone) = [] := by
    rw [List.filter_eq_nil_iff]
    intro item hitem
    obtain ⟨n, -, rfl⟩ := List.mem_map.mp hitem
    exact Bool.false_ne_true
  unfold namesOf
  rw [hfaultless]
  dsimp only
  rw [List.filterMap_map]
  exact congrArg Except.ok (congrFun List.filterMap_eq_map names)

theorem ofJson_highlightBody (text : String) (names : List Wording) :
    ofJson true (highlightBody text names) =
      .ok ⟨Symbol.ofText text, (choiceOf names).map (List.map Wording.symbols)⟩ := by
  have htext : textOf (highlightBody text names) = .ok (Symbol.ofText text) := by rfl
  have hfeatures : featuresOf (highlightBody text names) =
      .ok ((choiceOf names).map (List.map Wording.symbols)) := by
    cases names with
    | nil => rfl
    | cons n rest =>
        show (namesOf ((n :: rest).map fun n => Json.text n.symbols)).map some = _
        rw [namesOf_texts]
        rfl
  obtain ⟨entries, hentries⟩ : ∃ entries, highlightBody text names = .object entries := ⟨_, rfl⟩
  rw [hentries] at htext hfeatures ⊢
  unfold ofJson
  dsimp only
  rw [if_pos rfl, htext, hfeatures]

end Order

namespace Service

/-- A request posts a value to an endpoint of the service, which admits it. -/
structure Posts (s : Service) (r : Request) (e : Endpoint) (v : Json) : Prop where
  leads : s.find? r.path = some e
  method : r.method = "POST"
  admitted : s.admits r = true
  content : r.content = .json v

variable {s : Service} {r : Request} {v : Json}

theorem Posts.preflight? {e : Endpoint} (h : s.Posts r e v) : s.preflight? r = none := by
  unfold Service.preflight?
  rw [h.method]
  have hmethod : ("POST" != "OPTIONS") = true := by decide
  rw [hmethod, Bool.or_true]
  rfl

/-- Where a request comes from changes neither the status nor the value of the answer. -/
theorem Posts.content_answer {e : Endpoint} (h : s.Posts r e v)
    (hmethod : e.methods.contains "POST" = true) :
    (s.answer r).content = (s.answerAt r e).content := by
  have hroute : s.route r = s.answerAt r e := by
    unfold route
    rw [h.leads, h.method]
    exact if_pos hmethod
  unfold answer
  rw [h.preflight?, hroute]
  dsimp only
  split
  · unfold Exchange.content
    cases (s.answerAt r e).response with
    | error e => rfl
    | ok a => rfl
  · rfl

theorem Posts.answerOrder {e : Endpoint} (h : s.Posts r e v) {withFeatures : Bool} {o : Order}
    (ho : Order.ofJson withFeatures v = .ok o) (work : Order → Exchange) :
    s.answerOrder r withFeatures work = work o := by
  unfold Service.answerOrder
  rw [h.content]
  dsimp only
  rw [h.admitted, ho]
  rfl

theorem highlightOrder_names (names : List Wording) :
    (((choiceOf names).map (List.map Wording.symbols)).getD []).mapM Symbol.text? =
      names.mapM Wording.text? := by
  rw [← Wording.mapM_text?_symbols]
  cases names with
  | nil => rfl
  | cons n rest => rfl

theorem content_highlight {text : String} {names : List String}
    (h : s.Posts r .highlight (highlightBody text (names.map .text))) :
    (s.answer r).content =
      (settled (s.session.highlight (Bytes.ofText text) (choiceOf names)).outcome.result
        fun runs => sent (success [("highlights", .list (runs.map runValue))])).map
          fun a => (a.status, a.body) := by
  have hchoice : ((choiceOf (names.map Wording.text)).map (List.map Wording.symbols)).map
      (fun _ => names) = choiceOf names := by
    cases names with
    | nil => rfl
    | cons n rest => rfl
  rw [h.content_answer (by decide)]
  show (s.answerOrder r true s.highlightOrder).content = _
  rw [h.answerOrder (Order.ofJson_highlightBody text _)]
  unfold highlightOrder withText
  dsimp only
  rw [Symbol.text?_ofText, highlightOrder_names, Wording.mapM_text?]
  dsimp only
  rw [hchoice]
  rfl

/-- An answer that would name half of a pair cannot be sent. -/
theorem content_highlight_halved {text : String} {names : List Wording} {k : Halved}
    (hk : .halved k ∈ names) (h : s.Posts r .highlight (highlightBody text names)) :
    (s.answer r).content = (settled (s.session.parse (Bytes.ofText text)).outcome.result
      fun _ => .error .unencodableText).map fun a => (a.status, a.body) := by
  rw [h.content_answer (by decide)]
  show (s.answerOrder r true s.highlightOrder).content = _
  rw [h.answerOrder (Order.ofJson_highlightBody text _)]
  unfold highlightOrder withText
  dsimp only
  rw [Symbol.text?_ofText, highlightOrder_names, Wording.mapM_text?_of_halved hk]
  rfl

theorem content_outline {text : String} (h : s.Posts r .outline (outlineBody text)) :
    (s.answer r).content =
      (settled (s.session.outline (Bytes.ofText text)).outcome.result fun outline => do
        let response ← sent (success [("group", .text outline.group),
          ("entries", .list (outline.entries.map entryValue))])
        if outline.names.all (·.text?.isSome) then .ok response
        else .error .unencodableText).map fun a => (a.status, a.body) := by
  have horder : Order.ofJson false (outlineBody text) = .ok ⟨Symbol.ofText text, none⟩ := by rfl
  rw [h.content_answer (by decide)]
  show (s.answerOrder r false s.outlineOrder).content = _
  rw [h.answerOrder horder]
  unfold outlineOrder withText
  dsimp only
  rw [Symbol.text?_ofText]
  rfl

end Service

end Limn
