import Limn.Service
import Limn.Source

/-! # Calls in a row

The inline grammar of a session keeps the ranges that it was told last, from one document to the
next and also when a call breaks down halfway. No later call can see them: every call tells the
grammar its own ranges before it asks for a tree, and gives up if these are refused.

One step says that the ranges in force change neither what a call asks the grammars for nor how it
ends, and that nothing but these ranges is different afterwards (`Call.answer_told`). A row of calls
therefore goes like as many first calls on fresh sessions (`calls_leave_no_trace`), and so does a
row of requests to a service (`Service.after_eq_told`, `Service.answer_told`).
-/

namespace Limn

open Limn.Text (Symbol)

/-! ## Ranges in force -/

/-- The parser whose inline grammar was told these ranges last. -/
def Parser.told (p : Parser) (ranges : List Span) : Parser :=
  { p with ranges }

theorem Parser.parse_told (p : Parser) (ranges : List Span) (source : Bytes) :
    ((p.told ranges).parse source).requests = (p.parse source).requests ∧
      ((p.told ranges).parse source).document = (p.parse source).document ∧
      ∃ later, ((p.told ranges).parse source).parser = p.told later := by
  unfold Parser.parse
  rw [show (p.told ranges).grammarPair = p.grammarPair from rfl]
  cases p.grammarPair with
  | error e => exact ⟨rfl, rfl, ranges, rfl⟩
  | ok pair =>
      obtain ⟨block, inline⟩ := pair
      dsimp only
      cases block.parse [] source with
      | error reason => exact ⟨rfl, rfl, ranges, rfl⟩
      | ok tree =>
          dsimp only
          cases inline.accept tree.inlineRegions with
          | error reason => exact ⟨rfl, rfl, ranges, rfl⟩
          | ok told =>
              -- from here on the ranges in force are those of this document
              dsimp only
              cases inline.parse tree.inlineRegions (inlineSource source tree.inlineRegions) with
              | error reason => exact ⟨rfl, rfl, tree.inlineRegions, rfl⟩
              | ok inlineTree => exact ⟨rfl, rfl, tree.inlineRegions, rfl⟩

namespace Session

/-- The session whose inline grammar was told these ranges last. -/
def told (s : Session) (ranges : List Span) : Session :=
  { s with parser := s.parser.told ranges }

namespace Answer

/-- An answer repeats one of `s`: it asked for the same and ends the same, and `s` is left behind
with some ranges in force. -/
structure Repeats {α : Type} (s : Session) (a b : Answer α) : Prop where
  requests : a.requests = b.requests
  outcome : a.outcome = b.outcome
  session : ∃ ranges, a.session = s.told ranges

end Answer

theorem withDocument_told {α : Type} (s : Session) (ranges : List Span) (source : Bytes)
    (f : Document → Logged α) :
    Answer.Repeats s ((s.told ranges).withDocument source f) (s.withDocument source f) := by
  obtain ⟨hrequests, hdocument, later, hparser⟩ := s.parser.parse_told ranges source
  refine ⟨hrequests, ?_, later, ?_⟩
  · show ((s.parser.told ranges).parse source).document >>= f = (s.parser.parse source).document >>= f
    rw [hdocument]
  · show { s with parser := ((s.parser.told ranges).parse source).parser } = s.told later
    rw [hparser]
    rfl

/-! ## Calls -/

/-- What a call wants done with its document. -/
inductive Work where
  | parse
  | highlight (features : Option (List String))
  | outline

/-- A call on a session. -/
structure Call where
  source : Source
  work : Work

/-- What a call can return. -/
inductive Result where
  | document (d : Document)
  | runs (runs : List Run)
  | outline (o : Outline)

/-- An answer with its result as something else. -/
def Answer.as {α β : Type} (a : Answer α) (f : α → β) : Answer β :=
  ⟨a.session, a.requests, f <$> a.outcome⟩

/-- The answer to a call. A document without octets is found out once the grammars are known to be
there, and before they are asked for anything. -/
def Call.answer (s : Session) (c : Call) : Answer Result :=
  match c.source.bytes with
  | .error e => ⟨s, [], .of (s.parser.grammarPair.bind fun _ => .error e)⟩
  | .ok source =>
    match c.work with
    | .parse => (s.parse source).as .document
    | .highlight features => (s.highlight source features).as .runs
    | .outline => (s.outline source).as .outline

/-- What can be seen of a call: what the grammars were asked for, the notices, and the result. -/
structure Seen where
  requests : List GrammarRequest
  outcome : Logged Result

/-- What is seen of a call on a session. -/
def Call.seen (s : Session) (c : Call) : Seen :=
  ⟨(c.answer s).requests, (c.answer s).outcome⟩

/-- What is seen of calls in a row, each on the session that the one before left behind. -/
def history (s : Session) : List Call → List Seen
  | [] => []
  | c :: rest => c.seen s :: history (c.answer s).session rest

theorem Answer.Repeats.as {α β : Type} {s : Session} {a b : Answer α} (h : Answer.Repeats s a b)
    (f : α → β) : Answer.Repeats s (a.as f) (b.as f) := by
  refine ⟨h.requests, ?_, h.session⟩
  show f <$> a.outcome = f <$> b.outcome
  rw [h.outcome]

/-- **One call** asks for the same and ends the same whatever ranges are in force. -/
theorem Call.answer_told (s : Session) (ranges : List Span) (c : Call) :
    Answer.Repeats s (c.answer (s.told ranges)) (c.answer s) := by
  unfold Call.answer
  cases c.source.bytes with
  | error e => exact ⟨rfl, rfl, ranges, rfl⟩
  | ok source =>
      cases c.work with
      | parse => exact (withDocument_told s ranges source _).as _
      | highlight features => exact (withDocument_told s ranges source _).as _
      | outline => exact (withDocument_told s ranges source _).as _

theorem history_told (s : Session) (ranges : List Span) (calls : List Call) :
    (s.told ranges).history calls = calls.map fun c => c.seen s := by
  induction calls generalizing ranges with
  | nil => rfl
  | cons c rest ih =>
      have hc := c.answer_told s ranges
      obtain ⟨later, hlater⟩ := hc.session
      rw [history, hlater, ih later, List.map_cons, Call.seen, Call.seen, hc.requests, hc.outcome]

/-- **Calls leave no trace.** Let two sessions be started under the same settings with the same
grammars, and let one of them take calls in a row. What is seen of each call is what is seen of it
when it comes first on the other. -/
theorem calls_leave_no_trace {settings : Settings} {grammars : Grammars} {s fresh : Session}
    (hs : (Session.start settings grammars).result = .ok s)
    (hfresh : (Session.start settings grammars).result = .ok fresh) (calls : List Call) :
    s.history calls = calls.map fun c => c.seen fresh := by
  obtain rfl : s = fresh := Except.ok.inj (hs.symm.trans hfresh)
  exact s.history_told s.parser.ranges calls

/-- A grammar that takes no region beyond the second octet. Its trees are one inline region, and
their types tell whether ranges are in force. -/
def shortRegions : Grammar where
  accept regions :=
    if regions.all fun r => r.stop ≤ 2 then .ok () else .error "region too long"
  parse ranges source := .ok {
    type := if ranges.isEmpty then "document" else "parts", span := ⟨0, source.length⟩
    children := if source.isEmpty then [] else [{ type := "inline", span := ⟨0, source.length⟩ }] }

/-- A document leaves its region behind, the next one is refused, and the empty document after them
is parsed as on a fresh session. -/
theorem refused_document_leaves_no_trace :
    let calls : List Call := [⟨.octets [35, 32], .parse⟩, ⟨.octets [35, 32, 65], .outline⟩,
      ⟨.octets [], .parse⟩]
    ∃ s, (Session.start {} fun _ => .loaded shortRegions).result = .ok s ∧
      (Call.answer s ⟨.octets [35, 32], .parse⟩).session.parser.ranges = [⟨0, 2⟩] ∧
      s.history calls = calls.map fun c => c.seen s := by
  intro calls
  have hstart : (Session.start {} fun _ => .loaded shortRegions).result = .ok _ := rfl
  exact ⟨_, hstart, by decide +kernel, calls_leave_no_trace hstart hstart calls⟩

end Session

/-! ## A row of requests -/

namespace Service

open Session (withDocument_told)

/-- The service whose inline grammar was told these ranges last. -/
def told (s : Service) (ranges : List Span) : Service :=
  { s with session := s.session.told ranges }

/-- The service after requests in a row. -/
def after (s : Service) (requests : List Request) : Service :=
  requests.foldl (fun s r => (s.answer r).service) s

/-- An exchange repeats one of `s`: the answer is the same, and `s` is left behind with some ranges
in force. -/
structure Exchange.Repeats (s : Service) (x y : Exchange) : Prop where
  response : x.response = y.response
  service : ∃ ranges, x.service = s.told ranges

/-- What stands at an address depends on nothing but the token. -/
theorem find?_of_token {s t : Service} (h : s.token = t.token) (path : String) :
    s.find? path = t.find? path := by
  unfold find? endpoint? docs redoc
  rw [h]

section Told

variable (s : Service) (ranges : List Span) (r : Request)

theorem reply_told (a : Response) :
    Exchange.Repeats s ((s.told ranges).reply a) (s.reply a) :=
  ⟨rfl, ranges, rfl⟩

theorem worked_told {α : Type} {a b : Session.Answer α} (h : a.Repeats s.session b)
    (f : α → Except Error Response) :
    Exchange.Repeats s ((s.told ranges).worked a f) (s.worked b f) := by
  obtain ⟨later, hlater⟩ := h.session
  refine ⟨?_, later, ?_⟩
  · show settled a.outcome.result f = settled b.outcome.result f
    rw [h.outcome]
  · show { s with session := a.session } = s.told later
    rw [hlater]
    rfl

theorem withText_told (symbols : List Symbol) {work work' : Bytes → Exchange}
    (h : ∀ source, Exchange.Repeats s (work source) (work' source)) :
    Exchange.Repeats s ((s.told ranges).withText symbols work) (s.withText symbols work') := by
  unfold withText
  cases Symbol.text? symbols with
  | none => exact ⟨rfl, ranges, rfl⟩
  | some text => exact h (Bytes.ofText text)

theorem highlightOrder_told (o : Order) :
    Exchange.Repeats s ((s.told ranges).highlightOrder o) (s.highlightOrder o) := by
  apply withText_told
  intro source
  cases (o.features.getD []).mapM Symbol.text? with
  | none => exact worked_told s ranges (withDocument_told s.session ranges source _) _
  | some names => exact worked_told s ranges (withDocument_told s.session ranges source _) _

theorem outlineOrder_told (o : Order) :
    Exchange.Repeats s ((s.told ranges).outlineOrder o) (s.outlineOrder o) := by
  apply withText_told
  intro source
  exact worked_told s ranges (withDocument_told s.session ranges source _) _

theorem answerOrder_told (withFeatures : Bool) {work work' : Order → Exchange}
    (h : ∀ o, Exchange.Repeats s (work o) (work' o)) :
    Exchange.Repeats s ((s.told ranges).answerOrder r withFeatures work)
      (s.answerOrder r withFeatures work') := by
  unfold answerOrder
  rw [show (s.told ranges).admits r = s.admits r from rfl]
  cases r.content with
  | malformed => exact reply_told s ranges _
  | unreadable => exact reply_told s ranges _
  | other => exact reply_told s ranges _
  | json v =>
      cases s.admits r with
      | false => exact reply_told s ranges _
      | true =>
          dsimp only [Bool.not_true, Bool.false_eq_true, if_false]
          cases Order.ofJson withFeatures v with
          | error faulty => exact ⟨rfl, ranges, rfl⟩
          | ok o => exact h o

theorem answerAt_told (e : Endpoint) :
    Exchange.Repeats s ((s.told ranges).answerAt r e) (s.answerAt r e) := by
  cases e with
  | page => exact reply_told s ranges _
  | health => exact reply_told s ranges _
  | features => exact reply_told s ranges _
  | highlight => exact answerOrder_told s ranges r true (highlightOrder_told s ranges)
  | outline => exact answerOrder_told s ranges r false (outlineOrder_told s ranges)

theorem route_told : Exchange.Repeats s ((s.told ranges).route r) (s.route r) := by
  unfold route
  rw [find?_of_token (show (s.told ranges).token = s.token from rfl)]
  cases s.find? r.path with
  | none => exact reply_told s ranges _
  | some e =>
      dsimp only
      split
      · exact answerAt_told s ranges r e
      · exact reply_told s ranges _

/-- **One request** is answered the same whatever ranges are in force. -/
theorem answer_told : Exchange.Repeats s ((s.told ranges).answer r) (s.answer r) := by
  unfold answer
  rw [show (s.told ranges).preflight? r = s.preflight? r from rfl]
  cases s.preflight? r with
  | some a => exact reply_told s ranges a
  | none =>
      have hroute := route_told s ranges r
      rw [show (s.told ranges).cors = s.cors from rfl]
      dsimp only
      split
      · refine ⟨?_, hroute.service⟩
        dsimp only
        rw [hroute.response]
      · exact hroute

end Told

/-- Requests change a service in nothing but the ranges in force. -/
theorem after_eq_told (s : Service) (requests : List Request) :
    ∃ ranges, s.after requests = s.told ranges := by
  suffices h : ∀ ranges, ∃ later, (s.told ranges).after requests = s.told later from
    h s.session.parser.ranges
  induction requests with
  | nil => exact fun ranges => ⟨ranges, rfl⟩
  | cons r rest ih =>
      intro ranges
      obtain ⟨later, hlater⟩ := (s.answer_told ranges r).service
      obtain ⟨last, hlast⟩ := ih later
      refine ⟨last, ?_⟩
      rw [after, List.foldl_cons, hlater]
      exact hlast

end Service

end Limn
