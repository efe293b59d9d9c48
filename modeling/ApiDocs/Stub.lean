import ApiDocs.Module

/-! Stubs of methods. The signatures and docstrings of the methods in a module are written, one level
less indented, to a file of stubs beside it, in a section under the module's dotted name. -/

set_option autoImplicit false

namespace ApiDocs.Stub

inductive Phase where
  /-- Looking for a method. -/
  | seeking
  /-- In a signature of several lines. -/
  | signature
  /-- After a signature. -/
  | signed
  /-- In a docstring. -/
  | docstring
  deriving DecidableEq, Repr

structure State where
  phase : Phase
  /-- Whether a function outside a class has come by since the last method. -/
  nested : Bool
  deriving DecidableEq, Repr

def State.start : State := ⟨.seeking, false⟩

def endsSignature (line : Text) : Bool :=
  Text.mentions "):" line || Text.mentions "ivy.Array:" line || Text.mentions "ivy.Container:" line

def hasTripleQuote (line : Text) : Bool := Text.mentions "'''" line || Text.mentions "\"\"\"" line

def outdent (line : Text) : Text := line.drop 4 ++ "\n"

def body : Text := "    pass\n\n\n"

def State.afterSignature (state : State) (line : Text) : State :=
  { state with phase := if endsSignature line then .signed else .signature }

def State.next (state : State) (line : Text) : Text × State :=
  match state.phase with
  | .seeking =>
    if ("    def " : Text).isPrefixOf line && !state.nested then
      (outdent line, state.afterSignature line)
    else if ("def " : Text).isPrefixOf line then ([], { state with nested := true })
    else ([], state)
  | .signature => (outdent line, state.afterSignature line)
  | .signed =>
    if hasTripleQuote line then (outdent line, { state with phase := .docstring })
    else (body, { state with phase := .seeking })
  | .docstring =>
    if hasTripleQuote line then
      (outdent line ++ (if state.nested then [] else body), .start)
    else (outdent line, state)

def stubsFrom (state : State) : List Text → List Text
  | [] => []
  | line :: lines => (state.next line).1 :: stubsFrom (state.next line).2 lines

def setup (lines : List Text) : List Text := lines.takeWhile (!("class " : Text).isPrefixOf ·)

/-- A section of stubs, piece by piece: the dotted name of a module, the lines of its setup and the stubs of
its methods. -/
def extract (dotted text : Text) : List Text :=
  let lines := Text.split "\n" text
  ("#" ++ dotted ++ "\n") :: (setup lines).map (· ++ ("\n" : Text)) ++ stubsFrom .start lines

def fileName? (dotted : Text) : Option Text :=
  if Text.mentions ".array." dotted then some "array_methods.py"
  else if Text.mentions ".container." dotted then some "container_methods.py"
  else none

def append (text path dotted : Text) : Script Unit :=
  match fileName? dotted with
  | some name =>
    Script.appendPieces (Path.join (Text.upTo path (Text.lastIndex "/" path)) name)
      (extract dotted text)
  | none => pure ()

/-- Appends the section of every module in a directory that has an indented definition. -/
def appendModules (location : Module.Location) (modules : List Text) : Script Unit :=
  modules.forM fun path => do
    let text ← Script.readLenient path
    if Text.mentions "\n    def " text then
      append text path (location.dotted (location.depth path + 2) path)

def gatherUpTo (settings : Settings) : Nat → Text → Script Unit
  | 0, _ => throw .tooDeep
  | depth + 1, directory => do
    let paths := (Text.sort (← Script.names directory)).map (Path.join directory)
    let directories ← Module.directories paths
    directories.forM fun inner => do
      if !(Module.skippedDirectories settings).contains inner then gatherUpTo settings depth inner
    appendModules (Module.locate settings directory) (paths.filter Module.isModule)

def gather (settings : Settings) (directory : Text) : Script Unit := do
  gatherUpTo settings ((← get).height + 2) directory

end ApiDocs.Stub
