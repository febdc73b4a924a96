import Limn.Json.Reader
import Limn.Text.Blank
import Limn.Text.Encoding
import Limn.Value.Text

/-! # Requests

A request as it reaches the service: a method, a path, headers and a body. What it announces about
its body decides whether the body is read at all.
-/

namespace Limn

structure Request where
  method : String
  path : String
  headers : List (String × String) := []
  body : Bytes := []
deriving DecidableEq, Repr

namespace Request

/-! ## Headers -/

/-- A text in lower case, as far as it is ASCII. -/
def lower (s : String) : String :=
  String.ofList (s.toList.map Char.toLower)

/-- The value of a header. Names of headers are the same in either case. -/
def header? (r : Request) (name : String) : Option String :=
  (r.headers.find? fun (n, _) => lower n == lower name).map (·.2)

/-- The scheme and the credentials of the request's authorization. -/
def authorization? (r : Request) : Option (String × String) := do
  let value ← r.header? "authorization"
  match value.toList.span (· != ' ') with
  | (scheme, _ :: rest) =>
    let credentials := Text.trim (String.ofList rest)
    if scheme.isEmpty || credentials.isEmpty then none
    else some (lower (String.ofList scheme), credentials)
  | (_, []) => none

def bearer? (r : Request) : Option String :=
  match r.authorization? with
  | some ("bearer", credentials) => some credentials
  | _ => none

/-- The kind of content that a request announces, without parameters; empty if it announces none. -/
def contentType (r : Request) : String :=
  match r.header? "content-type" with
  | none => ""
  | some value => lower (Text.trim (String.ofList (value.toList.takeWhile (· != ';'))))

/-- A kind of content is JSON or in a format based on it. -/
def isJson (contentType : String) : Bool :=
  match contentType.toList.span (· != '/') with
  | (main, _ :: kind) =>
    main == "application".toList && !kind.contains '/' &&
      (kind == "json".toList || "+json".toList.isSuffixOf kind)
  | _ => false

/-! ## Bodies -/

/-- What the body of a request turns out to be. -/
inductive Content where
  | json (v : Json)
  /-- Announced as JSON, but it is none. -/
  | malformed
  /-- Announced as JSON, but no text, or its numbers are too long. -/
  | unreadable
  /-- Missing, or not announced as JSON. -/
  | other

def readJson (bs : Bytes) : Content :=
  match (Text.Encoding.detect bs).decode bs with
  | none => .unreadable
  | some symbols =>
    match Json.read (some Text.mostDigits) symbols with
    | .ok v => .json v
    | .error .malformed => .malformed
    | .error .oversized => .unreadable

def content (r : Request) : Content :=
  if r.body.isEmpty || !isJson r.contentType then .other else readJson r.body

end Request

end Limn
