import Limn.Error
import Limn.Text.Bytes

/-! # Files

A program sees the file system as a function from paths to what stands there. A path is kept in a
normal form: repeated separators, separators at the end and names `.` do not count, while `..` does,
because the name before it has to exist.
-/

namespace Limn

/-! ## Paths -/

/-- A path: its root, which is empty for a path from the current folder, and its names. -/
structure Path where
  root : String := ""
  names : List String
deriving DecidableEq, Repr, Inhabited

namespace Path

/-- The root of a path. Exactly two leading separators are a root of their own. -/
def rootOf : List Char → String
  | '/' :: '/' :: '/' :: _ => "/"
  | '/' :: '/' :: _ => "//"
  | '/' :: _ => "/"
  | _ => ""

def splitAt (c : Char) : List Char → List (List Char)
  | [] => [[]]
  | d :: rest =>
    match splitAt c rest with
    | [] => [[d]]
    | part :: parts => if d == c then [] :: part :: parts else (d :: part) :: parts

def ofText (s : String) : Path :=
  let names := (splitAt '/' s.toList).filter fun n => !n.isEmpty && n != ['.']
  ⟨rootOf s.toList, names.map String.ofList⟩

/-- The text of a path; the current folder is `.`. -/
def text (p : Path) : String :=
  if p.root.isEmpty && p.names.isEmpty then "." else p.root ++ "/".intercalate p.names

def name (p : Path) : String :=
  p.names.getLast?.getD ""

/-- No file has a NUL in its path. -/
def isUsable (p : Path) : Bool :=
  p.names.all fun n => !n.toList.contains '\x00'

end Path

/-! ## File systems -/

inductive FileEntry where
  | file (content : Bytes)
  | folder
  | missing (fault : FileFault)
deriving Repr, Inhabited

/-- A file system as its readers see it. -/
abbrev Files := Path → FileEntry

namespace Files

def read (files : Files) (p : Path) : Except Error Bytes :=
  if !p.isUsable then .error .badPath
  else
    match files p with
    | .file content => .ok content
    | .folder => .error (.file .isDirectory p.text)
    | .missing fault => .error (.file fault p.text)

/-- Whether something stands at a path. A name that is too long is an error even here; every other
path at which nothing can stand is just free. -/
def has (files : Files) (p : Path) : Except Error Bool :=
  if !p.isUsable then .ok false
  else
    match files p with
    | .file _ => .ok true
    | .folder => .ok true
    | .missing .nameTooLong => .error (.file .nameTooLong p.text)
    | .missing _ => .ok false

end Files

end Limn
