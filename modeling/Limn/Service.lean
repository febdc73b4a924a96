import Limn.Service.Order
import Limn.Service.Request
import Limn.Session

/-! # The service

A session as a service for other programs: requests in, answers out, both as plain data. The service
has two addresses to look at (`/health`, `/features`), two that take a document (`/highlight`,
`/outline`), and pages of documentation.

If the service has a token, the four addresses answer only to requests that carry it as bearer
credentials. The empty token counts as none for requests, but only a service without any token shows
its documentation.
-/

namespace Limn

open Limn.Text (Symbol)

def version : String := "0.1.0"

/-! ## Responses -/

/-- An answer: its status, its value if it has one, and the origin that it is open to. -/
structure Response where
  status : Nat
  body : Option Value := none
  allowOrigin : Option String := none
deriving Inhabited

/-! ## Services -/

structure Service where
  session : Session
  token : Option String := none
  cors : Bool := false

inductive Endpoint where
  | health
  | features
  | highlight
  | outline
  | page
deriving DecidableEq, Repr

namespace Endpoint

def methods : Endpoint → List String
  | .health | .features => ["GET"]
  | .highlight | .outline => ["POST"]
  | .page => ["GET", "HEAD"]

end Endpoint

namespace Service

/-! ### Addresses -/

/-- The address of the documentation, if it is shown. -/
def docs (s : Service) : Option String :=
  if s.token.isNone then some "/docs" else none

/-- The address of the other form of the documentation, if it is shown. -/
def redoc (s : Service) : Option String :=
  if s.token.isNone then some "/redoc" else none

def withoutLineFeed (path : String) : String :=
  if path.toList.getLast? == some '\n' then String.ofList path.toList.dropLast else path

/-- What stands at an address. One line feed at its end does not count. -/
def endpoint? (s : Service) (path : String) : Option Endpoint :=
  let path := withoutLineFeed path
  match path with
  | "/health" => some .health
  | "/features" => some .features
  | "/highlight" => some .highlight
  | "/outline" => some .outline
  | "/openapi.json" => some .page
  | _ =>
    if s.docs == some path || s.redoc == some path ||
        s.docs.map (· ++ "/oauth2-redirect") == some path then
      some .page
    else none

/-- An address that does not exist is tried again with its trailing slashes removed. -/
def find? (s : Service) (path : String) : Option Endpoint :=
  match s.endpoint? path with
  | some e => some e
  | none =>
    let cs := path.toList.reverse.dropWhile (· == '/') |>.reverse
    if path.toList.getLast? == some '/' then s.endpoint? (String.ofList cs) else none

/-! ### Access -/

/-- A request is admitted if the service has no token or the request carries it. -/
def admits (s : Service) (r : Request) : Bool :=
  match s.token with
  | none => true
  | some "" => true
  | some token => r.bearer? == some token

def detail (status : Nat) (text : String) : Response :=
  { status, body := some (.map [(.text "detail", .text text)]) }

def refusal : Response :=
  detail 401 "Invalid or missing token"

def unusable : Response :=
  { status := 422 }

/-- Members with such keys are not quoted in reports. -/
def isPrivate (key : List Symbol) : Bool :=
  (Symbol.ofText "_sa").isPrefixOf key

/-- The answer to a body that is no order, which quotes the parts at fault. Only finite numbers and
texts of characters can be quoted. -/
def report (faulty : List Json) : Except Error Response :=
  let atoms := faulty.flatMap (·.atoms fun key => !isPrivate key)
  if atoms.any (·.isUnbounded) then .error .unwritableNumber
  else if atoms.any (·.isBroken) then .error .unencodableText
  else .ok unusable

def unreadable : Response :=
  detail 400 "There was an error parsing the body"

/-! ### Answers -/

def success (members : List (String × Value)) : Response :=
  { status := 200, body := some (.map (members.map fun (k, v) => (.text k, v))) }

def runValue (r : Run) : Value :=
  .map [(.text "start", .int r.span.start), (.text "end", .int r.span.stop),
    (.text "category", .text r.category), (.text "feature", .text r.feature)]

def entryValue (e : OutlineEntry) : Value :=
  .map [(.text "name", .ofWording e.name), (.text "start", .int e.span.start),
    (.text "end", .int e.span.stop), (.text "depth", .int e.depth)]

def featureList (s : Service) : Response :=
  success [("features", .list (Feature.markdown.map fun f =>
    .map [(.text "name", .text f.name), (.text "override", .bool f.override),
      (.text "enabled", .bool (s.session.highlighter.enabled.contains f.name))]))]

/-- The answer to an error: unknown features are the request's fault, missing grammars the
service's. Nothing else is answered, and the error goes on. -/
def failure (e : Error) : Except Error Response :=
  match e with
  | .unknownFeatures .. => .ok (detail 400 e.message)
  | .grammarsMissing _ => .ok (detail 503 ("Feature unavailable: " ++ e.message))
  | _ => .error e

/-- An answer, provided that its integers can be written. -/
def sent (response : Response) : Except Error Response :=
  if response.body.all (·.isWritable) then .ok response else .error .unwritableNumber

def settled {α : Type} (result : Except Error α) (f : α → Except Error Response) :
    Except Error Response :=
  match result with
  | .ok a => f a
  | .error e => failure e

/-- What one request gives: the service afterwards, what the grammars were asked for, the notices,
and the answer. -/
structure Exchange where
  service : Service
  requests : List GrammarRequest := []
  notices : List Notice := []
  response : Except Error Response

/-- An answer that needs nothing of the session. -/
def reply (s : Service) (response : Response) : Exchange :=
  { service := s, response := .ok response }

def worked {α : Type} (s : Service) (a : Session.Answer α) (f : α → Except Error Response) :
    Exchange :=
  { service := { s with session := a.session }
    requests := a.requests
    notices := a.outcome.notices
    response := settled a.outcome.result f }

/-- Work on a document, which must be a text of characters. That is found out when the parser asks
for its octets, so missing grammars come first. -/
def withText (s : Service) (symbols : List Symbol) (work : Bytes → Exchange) : Exchange :=
  match Symbol.text? symbols with
  | some text => work (Bytes.ofText text)
  | none =>
    { service := s
      response := settled s.session.parser.grammarPair fun _ => .error .unencodableText }

/-- Highlight the document of an order. There is no feature whose name is not a text of characters,
but the answer that would say so cannot be encoded. -/
def highlightOrder (s : Service) (o : Order) : Exchange :=
  s.withText o.text fun source =>
    match (o.features.getD []).mapM Symbol.text? with
    | none => s.worked (s.session.parse source) fun _ => .error .unencodableText
    | some names =>
      s.worked (s.session.highlight source (o.features.map fun _ => names)) fun runs =>
        sent (success [("highlights", .list (runs.map runValue))])

/-- Outline the document of an order. Titles that are no texts cannot be encoded. -/
def outlineOrder (s : Service) (o : Order) : Exchange :=
  s.withText o.text fun source =>
    s.worked (s.session.outline source) fun outline => do
      let response ← sent (success [("group", .text outline.group),
        ("entries", .list (outline.entries.map entryValue))])
      if outline.names.all (·.text?.isSome) then .ok response else .error .unencodableText

/-- Answer a request that takes a document. A body that is announced as JSON and is none is refused
at once; everything else about the request comes after the question whether it is admitted. -/
def answerOrder (s : Service) (r : Request) (withFeatures : Bool) (work : Order → Exchange) :
    Exchange :=
  match r.content with
  | .malformed => s.reply unusable
  | .unreadable => s.reply unreadable
  | .other => s.reply (if s.admits r then unusable else refusal)
  | .json v =>
    if !s.admits r then s.reply refusal
    else
      match Order.ofJson withFeatures v with
      | .error faulty => { service := s, response := report faulty }
      | .ok o => work o

def answerAt (s : Service) (r : Request) : Endpoint → Exchange
  | .page => s.reply { status := 200 }
  | .health =>
    s.reply <| if s.admits r then success [("status", .text "ok"), ("version", .text version)]
      else refusal
  | .features => s.reply <| if s.admits r then s.featureList else refusal
  | .highlight => s.answerOrder r true s.highlightOrder
  | .outline => s.answerOrder r false s.outlineOrder

/-- Answer a request, apart from what concerns its origin. -/
def route (s : Service) (r : Request) : Exchange :=
  match s.find? r.path with
  | none => s.reply { status := 404 }
  | some e => if e.methods.contains r.method then s.answerAt r e else s.reply { status := 405 }

/-! ### Origins -/

/-- The methods that a page of another origin may use. -/
def crossOriginMethods : List String :=
  ["DELETE", "GET", "HEAD", "OPTIONS", "PATCH", "POST", "PUT"]

/-- A service open to other origins answers the question in advance whether a method may be used. -/
def preflight? (s : Service) (r : Request) : Option Response := do
  if !s.cors || r.method != "OPTIONS" then none
  let origin ← r.header? "origin"
  let method ← r.header? "access-control-request-method"
  return {
    status := if crossOriginMethods.contains method then 200 else 400
    allowOrigin := some origin }

/-- Answer a request. An open service tells every origin that asks that it is allowed. -/
def answer (s : Service) (r : Request) : Exchange :=
  match s.preflight? r with
  | some response => s.reply response
  | none =>
    let x := s.route r
    if s.cors then
      { x with response := x.response.map fun a => { a with allowOrigin := r.header? "origin" } }
    else x

end Service

end Limn
