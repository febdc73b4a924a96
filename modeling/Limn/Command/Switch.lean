import Limn.Value.Integer

/-! # Switches on a command line

A command line is a row of words. A word that starts with a dash may be a switch: it is looked up
among the switches in force, long names also by any beginning that fits a single one of them. The
value of a switch is attached with `=` or is the next word, and switches of one letter that take no
value may share a word. After the word `--` no word is a switch.

All words are looked at before any of them takes effect, so an ambiguous word is misuse wherever it
stands; apart from that, effects happen in order.
-/

namespace Limn.Command

/-! ## Switches -/

inductive Effect where
  /-- Show a text and stop. -/
  | display
  /-- Be on. -/
  | turnOn
  /-- Take a text. -/
  | takeText
  /-- Take an integer. -/
  | takeInteger
deriving DecidableEq, Repr, Inhabited

/-- A switch: its names, the first of which stands for it, and what it does. -/
structure Switch where
  names : List String
  effect : Effect
deriving DecidableEq, Repr, Inhabited

def Switch.key (s : Switch) : String :=
  s.names.head?.getD ""

def Switch.takesValue (s : Switch) : Bool :=
  s.effect == .takeText || s.effect == .takeInteger

/-- Every command has this switch. -/
def Switch.help : Switch := ⟨["--help", "-h"], .display⟩

/-- Why reading a command line ends without a command: a text was asked for, or it is misuse. -/
inductive Stop where
  | shown
  | misuse
deriving DecidableEq, Repr

def Stop.code : Stop → Nat
  | .shown => 0
  | .misuse => 2

/-! ## Looking words up -/

inductive Word where
  | plain (text : String)
  /-- The word after which no word is a switch. -/
  | dashes
  /-- A switch, with the text attached to it if there is any: what follows `=`, or the letters right
  after its own. -/
  | switch (text : String) (found : Switch) (long : Bool) (attached : Option (List Char))
  | unknownSwitch (text : String)
deriving Repr

def Word.text : Word → String
  | .plain text => text
  | .dashes => "--"
  | .switch text .. => text
  | .unknownSwitch text => text

def named (switches : List Switch) : List (List Char × Switch) :=
  switches.flatMap fun s => s.names.map fun n => (n.toList, s)

/-- Long names start with two dashes. -/
def isLong (name : List Char) : Bool :=
  ['-', '-'].isPrefixOf name

def splitValue (cs : List Char) : List Char × Option (List Char) :=
  match cs.span (· != '=') with
  | (name, _ :: text) => (name, some text)
  | (name, []) => (name, none)

/-- The switches that a word may mean when no name fits it exactly. -/
def candidates (switches : List Switch) (cs : List Char) :
    List (Switch × Bool × Option (List Char)) :=
  if isLong cs then
    let (start, text) := splitValue cs
    (named switches).filterMap fun (name, s) =>
      if start.isPrefixOf name then some (s, true, text) else none
  else
    (named switches).filterMap fun (name, s) =>
      if name == cs.take 2 then some (s, isLong name, some (cs.drop 2))
      else if cs.isPrefixOf name then some (s, isLong name, none)
      else none

/-- Digits, then perhaps a line feed. -/
def isDigits (cs : List Char) : Bool :=
  let cs := if cs.getLast? == some '\n' then cs.dropLast else cs
  !cs.isEmpty && cs.all fun c => (Text.digitValue? c).isSome

/-- A negative number is a plain word, with or without a point in it. -/
def isNegativeNumber (cs : List Char) : Bool :=
  match cs with
  | '-' :: rest =>
    isDigits rest ||
      match rest.span fun c => (Text.digitValue? c).isSome with
      | (_, '.' :: places) => isDigits places
      | _ => false
  | _ => false

def lookUp (switches : List Switch) (text : String) : Except Stop Word :=
  let cs := text.toList
  if cs.head? != some '-' then .ok (.plain text)
  else
    let (name, value) := splitValue cs
    match (named switches).lookup cs, (named switches).lookup name, value with
    | some s, _, _ => .ok (.switch text s (isLong cs) none)
    | none, some s, some value => .ok (.switch text s (isLong name) (some value))
    | none, _, _ =>
      if cs.length == 1 then .ok (.plain text)
      else
        match candidates switches cs with
        | [(s, long, attached)] => .ok (.switch text s long attached)
        | _ :: _ => .error .misuse
        | [] =>
          if isNegativeNumber cs || cs.contains ' ' then .ok (.plain text)
          else .ok (.unknownSwitch text)

def lookUpAll (switches : List Switch) : List String → Except Stop (List Word)
  | [] => .ok []
  | text :: rest =>
    if text == "--" then .ok (.dashes :: rest.map .plain)
    else do
      let word ← lookUp switches text
      return word :: (← lookUpAll switches rest)

/-! ## Switches in one word -/

/-- The switches of one word: those that take effect with their values, and the one that still waits
for its value. -/
structure Cluster where
  ready : List (Switch × String) := []
  waiting : Option Switch := none
deriving Repr

def bare (s : Switch) : Cluster :=
  if s.takesValue then { waiting := some s } else { ready := [(s, "")] }

/-- A switch with a text attached. It is the value of a switch that takes one; to a switch of one
letter that takes none, more such switches may be attached. -/
def lettered (switches : List Switch) (s : Switch) (long : Bool) :
    List Char → Except Stop Cluster
  | [] => if s.takesValue then .ok { ready := [(s, "")] } else .error .misuse
  | c :: rest =>
    if s.takesValue then .ok { ready := [(s, String.ofList (c :: rest))] }
    else if long then .error .misuse
    else
      match (named switches).lookup ['-', c] with
      | none => .error .misuse
      | some next => do
        let more ← if rest.isEmpty then .ok (bare next) else lettered switches next false rest
        return { more with ready := (s, "") :: more.ready }

def cluster (switches : List Switch) (s : Switch) (long : Bool) :
    Option (List Char) → Except Stop Cluster
  | none => .ok (bare s)
  | some text => lettered switches s long text

/-! ## Effects -/

/-- A switch that took effect, by the name that stands for it, with its value. -/
structure Given where
  key : String
  value : String
deriving DecidableEq, Repr

/-- Let switches take effect in order. -/
def take : List (Switch × String) → Except Stop (List Given)
  | [] => .ok []
  | (s, value) :: rest =>
    if s.effect == .display then .error .shown
    else if s.effect == .takeInteger && (Text.integer? value).isNone then .error .misuse
    else do return ⟨s.key, value⟩ :: (← take rest)

def isGiven (given : List Given) (key : String) : Bool :=
  given.any (·.key == key)

def valuesOf (given : List Given) (key : String) : List String :=
  (given.filter (·.key == key)).map (·.value)

def lastValue? (given : List Given) (key : String) : Option String :=
  (valuesOf given key).getLast?

end Limn.Command
