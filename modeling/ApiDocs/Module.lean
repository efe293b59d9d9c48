import ApiDocs.File.Script
import ApiDocs.Settings
import ApiDocs.Text.Slice

/-! Modules of a library: which files are modules, their dotted names, and the functions and classes
that their texts define. -/

set_option autoImplicit false

namespace ApiDocs.Module

def excludedNames : List Text := ["exceptions", "library_getter", "setup", "__init__"]

def excludedDirectories : List Text := [".pytest_cache", "docs", "tests", "__pycache__"]

def isModule (path : Text) : Bool :=
  Text.since path (-3) == ".py" && !excludedNames.contains (Text.upTo (Path.base path) (-3))

def directories (paths : List Text) : Script (List Text) :=
  paths.filterM fun path => do
    return (← Script.isDirectory path) && !excludedDirectories.contains (Path.base path)

def skippedDirectories (settings : Settings) : List Text :=
  settings.skipped.map (Path.join settings.library)

/-- Where the library stands in the path of a directory, and what comes before a path below it. -/
structure Location where
  start : Int
  length : Int

def locate (settings : Settings) (directory : Text) : Location :=
  let name := Path.base settings.library
  ⟨Text.index name directory, name.length + 1⟩

def Location.relative (location : Location) (path : Text) : Text :=
  Text.since path (location.start + location.length)

def Location.dotted (location : Location) (count : Nat) (path : Text) : Text :=
  Text.join "." ((Text.split "/" (Text.slice path location.start (-3))).take count)

def Location.depth (location : Location) (path : Text) : Nat := (location.relative path).count (.char '/') + 1

/-- The names that follow a word at the start of a line, up to a parenthesis, below a namespace. -/
def defined (word dotted text : Text) : List Text :=
  (Text.split ("\n" ++ word) text).tail.map fun item => dotted ++ "." ++ Text.beforeFirst '(' item

/-- Whether a dotted name is for everyone: its last part does not start with an underscore. -/
def isPublic (name : Text) : Except Fault Bool :=
  match Text.afterLast '.' name with
  | [] => .error .functionUnnamed
  | c :: _ => .ok (c != '_')

def contents (text dotted : Text) : Except Fault (List Text × List Text) := do
  let functions ← (defined "def " dotted text).filterM isPublic
  return (functions, defined "class " dotted text)

def read (path dotted : Text) : Script (List Text × List Text) := do
  Script.ofExcept id (contents (← Script.readLenient path) dotted)

end ApiDocs.Module
