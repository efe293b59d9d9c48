import ApiDocs.Pages

/-! Methods of the data classes, shown with the functions of the same name. The page of a method is filed
under the function's page, whose text gets the method's directive. Which module a method belongs to is
read off the stubs: the section in which its first definition stands. -/

set_option autoImplicit false

namespace ApiDocs.Instance

def unmergedModules : List Text := ["container", "wrapping"]

def isDirective (line : Text) : Bool := Text.mentions ".. autofunction::" line

def directiveName (line : Text) : Except Fault Text :=
  match (Text.split " " (Text.trim '\n' line))[2]? with
  | some word => .ok (Text.afterLast '.' word)
  | none => .error .directiveUnnamed

/-- The module of a method: the last part of the nearest section name above its first definition. Without
a definition or a section the stubs' last character stands in. -/
def moduleOf (stubs name : Text) : Text :=
  let definition := Text.index ("def " ++ name ++ "(") stubs
  let heading := Text.lastIndex "#ivy." (Text.upTo stubs (definition + 1))
  Text.afterLast '.' (Text.beforeFirst '\n' (Text.since stubs heading))

/-- The function that a method belongs to: a static variant drops its first word. -/
def baseName (name : Text) : Text :=
  match Text.split "_" name with
  | first :: rest => if first = "static" then Text.join "_" rest else name
  | [] => name

def retitle (logos title : Text) (lines : List Text) : Except Fault (List Text) :=
  match lines.map (Text.replace "/logos" logos) with
  | _ :: _ :: rest => .ok ((title ++ "\n") :: Text.rule (Text.trim '\n' (title ++ "\n")).length :: rest)
  | _ => .error .pageTooShort

def insertDirective (line : Text) (lines : List Text) : Except Fault (List Text) :=
  match lines.findIdx? isDirective with
  | some place => .ok (lines.take (place + 1) ++ [("\n" : Text) ++ line] ++ lines.drop (place + 1))
  | none => .error .directiveMissing

/-- Empties a file and then writes to it, if there is something to write. -/
def refill (path : Text) (lines : Except Fault (List Text)) : Script Unit := do
  Script.writeText path []
  Script.writeText path (← Script.ofExcept id lines).flatten

/-- Files one page of a method of a data class under the function it belongs to, and gives the function's
page; none if there is no such function. -/
def mergePage (type path stubs functional file : Text) : Script (Option Text) := do
  let lines ← Script.readLines (Path.join path file)
  match lines.find? isDirective with
  | none => return none
  | some directive =>
    let raw ← Script.ofExcept id (directiveName directive)
    let module := moduleOf stubs raw
    let name := baseName raw
    if unmergedModules.contains module then return none
    let modulePath := Path.join functional module
    if !(← Script.present modulePath) then return none
    if !(← Script.names modulePath).contains (name ++ ".rst") then return none
    let page := Path.join modulePath (name ++ ".rst")
    let folder := Path.join modulePath name
    Script.makeDirectories folder true
    let pageLines ← Script.readLines page
    let merged ← Script.ofExcept id (insertDirective directive pageLines)
    refill (Path.join folder (Text.upTo file (-4) ++ "_" ++ type ++ ".rst"))
      (retitle "/../../logos" ("ivy." ++ Text.capitalize type ++ "." ++ raw) lines)
    let copy := Path.join folder (name ++ "_functional.rst")
    if !(← Script.present copy) then
      refill copy (retitle "/../logos" ("ivy." ++ name) pageLines)
    Script.writeText page merged.flatten
    return some page

def merge (type path : Text) (files : List Text) (stubs functional : Text) : Script (List Text) := do
  return Text.sortDistinct (← files.filterMapM (mergePage type path stubs functional))

/-- The files of a function's folder with the functional page first and the others ascending. -/
def functionalFirst (files : List Text) : Except Fault (List Text) :=
  match files.findIdx? (Text.mentions "functional") with
  | some place => .ok (files[place]?.getD [] :: Text.sort (files.eraseIdx place))
  | none => .error .functionalMissing

def listFolder (page : Text) : Script Unit := do
  let folder := Text.upTo page (-4)
  let files ← Script.ofExcept id (functionalFirst (← Script.names folder))
  Toctree.append [(Path.base folder, files)] page (some (Path.base folder)) true

def mergeAll (settings : Settings) : Script Unit := do
  let pages := Path.join settings.here Pages.folder
  let functional := Path.join (Path.join pages "functional") "ivy"
  let arrayPath := Path.join (Path.join pages "array") "array_methods"
  let containerPath := Path.join (Path.join pages "container") "container_methods"
  let arrayStubs ← Script.readText (Path.join (Path.join settings.library "array") "array_methods.py")
  let containerStubs ←
    Script.readText (Path.join (Path.join settings.library "container") "container_methods.py")
  let arrayFiles ← Script.names arrayPath
  let containerFiles ← Script.names containerPath
  let fromContainer ← merge "container" containerPath containerFiles containerStubs functional
  let fromArray ← merge "array" arrayPath arrayFiles arrayStubs functional
  (Text.sortDistinct (fromContainer ++ fromArray)).forM listFolder

end ApiDocs.Instance
