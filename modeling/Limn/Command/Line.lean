import Limn.Command.Switch

/-! # The command line

`limn [switches] command [arguments]`. The switches of the program come before the command's name;
everything after it belongs to the command, whose switches may stand anywhere among its arguments.
Words that nothing claims are misuse, but only after everything else has been read, so that asking
for help still shows it.
-/

namespace Limn.Command

/-! ## Commands -/

inductive Task where
  | highlight (file : String) (features : List Wording) (snapshot json : Bool)
  | outline (file : String) (snapshot json : Bool)
  | features
  | dump (file : String) (inline both : Bool)
  | serve (host : String) (port : Int) (token : String) (cors : Bool)
deriving DecidableEq, Repr

/-- A command line that has been read: the settings file it names, whether debug notices are shown,
and what to do. -/
structure Invocation where
  config : Option String := none
  verbose : Bool := false
  task : Task
deriving DecidableEq, Repr

/-- The shape of a command: its name, its own switches and whether it needs a file. -/
structure Form where
  name : String
  switches : List Switch := []
  needsFile : Bool := true

def forms : List Form := [
  { name := "highlight"
    switches := [⟨["--feature"], .takeText⟩, ⟨["--snapshot"], .turnOn⟩, ⟨["--json"], .turnOn⟩] },
  { name := "outline"
    switches := [⟨["--snapshot"], .turnOn⟩, ⟨["--json"], .turnOn⟩] },
  { name := "features"
    needsFile := false },
  { name := "dump"
    switches := [⟨["--inline"], .turnOn⟩, ⟨["--both"], .turnOn⟩] },
  { name := "serve"
    switches := [⟨["--host"], .takeText⟩, ⟨["--port"], .takeInteger⟩, ⟨["--token"], .takeText⟩,
      ⟨["--cors"], .turnOn⟩]
    needsFile := false }]

/-- The switches before the command's name. -/
def programSwitches : List Switch := [
  .help, ⟨["--version"], .display⟩, ⟨["--config"], .takeText⟩, ⟨["--verbose", "-v"], .turnOn⟩]

/-! ## Reading words -/

/-- What has been read: switches that took effect, arguments, and whether some word was left over.
-/
structure Taken where
  given : List Given := []
  arguments : List String := []
  leftOver : Bool := false
deriving Repr

namespace Taken

def add (t : Taken) (ready : List (Switch × String)) : Except Stop Taken := do
  return { t with given := t.given ++ (← take ready) }

def spill (t : Taken) : Taken :=
  { t with leftOver := true }

end Taken

/-- Read the words of a command, which takes so many more arguments. The word `--` right before or
after an argument goes with it. -/
def readWords (switches : List Switch) : Nat → Taken → List Word → Except Stop Taken
  | _, t, [] => .ok t
  | slots, t, .switch _ s long attached :: rest => do
    let c ← cluster switches s long attached
    match c.waiting with
    | none => readWords switches slots (← t.add c.ready) rest
    | some w =>
      match rest with
      | .plain value :: rest => readWords switches slots (← t.add (c.ready ++ [(w, value)])) rest
      | _ => .error .misuse
  | slots, t, .unknownSwitch _ :: rest => readWords switches slots t.spill rest
  | 0, t, _ :: rest => readWords switches 0 t.spill rest
  | slots + 1, t, .plain value :: .dashes :: rest =>
    readWords switches slots { t with arguments := t.arguments ++ [value] } rest
  | slots + 1, t, .plain value :: rest =>
    readWords switches slots { t with arguments := t.arguments ++ [value] } rest
  | slots + 1, t, .dashes :: .plain value :: rest =>
    readWords switches slots { t with arguments := t.arguments ++ [value] } rest
  | slots + 1, t, .dashes :: rest => readWords switches slots t.spill rest

def taskOf (name : String) (file : String) (given : List Given) : Option Task :=
  let on := isGiven given
  match name with
  | "highlight" =>
    some (.highlight file ((valuesOf given "--feature").map .text) (on "--snapshot") (on "--json"))
  | "outline" => some (.outline file (on "--snapshot") (on "--json"))
  | "features" => some .features
  | "dump" => some (.dump file (on "--inline") (on "--both"))
  | "serve" =>
    let port := (lastValue? given "--port").bind Text.integer?
    some (.serve ((lastValue? given "--host").getD "127.0.0.1") (port.getD 8766)
      ((lastValue? given "--token").getD "auto") (on "--cors"))
  | _ => none

/-- Read what follows a command's name: its task, and whether some word was left over. -/
def readTask (form : Form) (args : List String) : Except Stop (Task × Bool) := do
  let switches := .help :: form.switches
  let words ← lookUpAll switches args
  let t ← readWords switches (if form.needsFile then 1 else 0) {} words
  if form.needsFile && t.arguments.isEmpty then .error .misuse
  match taskOf form.name (t.arguments.head?.getD "") t.given with
  | none => .error .misuse
  | some task => .ok (task, t.leftOver)

/-- Read the words of the program up to the command's name, and then the command. -/
def readProgram : Taken → List Word → Except Stop Invocation
  | _, [] => .error .misuse
  | _, .dashes :: _ => .error .misuse
  | t, .switch _ s long attached :: rest => do
    let c ← cluster programSwitches s long attached
    match c.waiting with
    | none => readProgram (← t.add c.ready) rest
    | some w =>
      match rest with
      | .plain value :: rest => readProgram (← t.add (c.ready ++ [(w, value)])) rest
      | _ => .error .misuse
  | t, .unknownSwitch _ :: rest => readProgram t.spill rest
  | t, .plain name :: rest =>
    match forms.find? (·.name == name) with
    | none => .error .misuse
    | some form => do
      let (task, leftOver) ← readTask form (rest.map Word.text)
      if t.leftOver || leftOver then .error .misuse
      .ok ⟨lastValue? t.given "--config", isGiven t.given "--verbose", task⟩

def readLine (args : List String) : Except Stop Invocation := do
  readProgram {} (← lookUpAll programSwitches args)

end Limn.Command
