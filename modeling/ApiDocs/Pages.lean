import ApiDocs.Module
import ApiDocs.Readme
import ApiDocs.Toctree

/-! Pages of a library: one for each module, function and class, one for each directory that has a readme,
and the index. -/

set_option autoImplicit false

namespace ApiDocs.Pages

def folder : Text := "autogenerated_source"

def moduleDirective (dotted : Text) : Text :=
  ".. automodule:: " ++ dotted ++ "\n    :members:\n    :special-members: __init__\n" ++
    "    :undoc-members:\n    :show-inheritance:\n"

def header (title dotted : Text) : Text :=
  Text.capitalize title ++ "\n" ++ Text.rule title.length ++ "\n\n" ++ moduleDirective dotted

def functionPage (title dotted frameworks : Text) : Text :=
  title ++ "\n" ++ Text.rule title.length ++ "\n\n.. autofunction:: " ++ dotted ++ "\n" ++ frameworks

def classPage (title dotted frameworks : Text) : Text :=
  title ++ "\n" ++ Text.rule title.length ++ "\n\n.. autoclass:: " ++ dotted ++ "\n" ++
    "   :members:\n   :special-members: __init__\n   :undoc-members:\n   :show-inheritance:\n" ++
    frameworks

def functionTitle (path name : Text) : Text :=
  if Text.mentions "array_methods" path then name ++ " array"
  else if Text.mentions "container_methods" path then name ++ " container"
  else name

/-- The frameworks as the pages of a directory show them: logos lie as many levels up as the directory's
path has slashes. -/
def frameworksFor (settings : Settings) (directory : Text) : Text :=
  Text.replace "logos" (Text.times (directory.count (.char '/')) "../" ++ "logos") settings.frameworks

structure Target where
  page : Text
  folder : Text
  dotted : Text
  deriving DecidableEq, Repr

def Target.name (target : Target) : Text := Text.afterLast '.' target.dotted

/-- The pages on the way to a module, outermost first: one for each path of two or more names that leads
to it, and the module's own at least once. -/
def targets (settings : Settings) (location : Module.Location) (path : Text) : List Target :=
  let relative := location.relative path
  (List.range (location.depth path)).filterMap fun i =>
    let part := Text.join "/" ((Text.split "/" relative).take (i + 2))
    if settings.stepped.contains part then none
    else
      let folder := Text.replace ".py" "" (Path.join Pages.folder part)
      some ⟨folder ++ ".rst", folder, location.dotted (i + 3) path⟩

def Target.begin (target : Target) : Script Unit := do
  Script.makeDirectories target.folder true
  Script.writeText target.page (header (Text.replace "_" " " target.name) target.dotted)

def writeFunction (target : Target) (frameworks dotted : Text) : Script Unit :=
  let name := Text.afterLast '.' dotted
  let path := Path.join target.folder name ++ ".rst"
  Script.writeText path (functionPage (functionTitle path name) dotted frameworks)

def writeClass (target : Target) (frameworks dotted : Text) : Script Unit :=
  let name := Text.afterLast '.' dotted
  Script.writeText (Path.join target.folder name ++ ".rst") (classPage name dotted frameworks)

def Target.toctree (target : Target) (functions classes : List Text) : Toctree :=
  [(target.name, (functions ++ classes).map fun dotted => Text.afterLast '.' dotted ++ ".rst")]

/-- Writes the pages of a module. A module all of whose paths are stepped over goes to the target of the
module before it, which the result hands on. -/
def writeModule (settings : Settings) (location : Module.Location) (frameworks : Text)
    (previous : Option Target) (path : Text) : Script (Option Target) := do
  let own := targets settings location path
  own.forM Target.begin
  match own.getLast? <|> previous with
  | none => throw .namespaceUndetermined
  | some target =>
    let (functions, classes) ← Module.read path target.dotted
    (target.toctree functions classes).append target.page none true
    functions.forM (writeFunction target frameworks)
    classes.forM (writeClass target frameworks)
    return some target

/-- The pages that a directory's page lists: its directories, then its modules, unless an order is set for
these names. -/
def directoryPages (settings : Settings) (directories modules : List Text) : List Text :=
  let pages := directories.map (fun path => Path.base path ++ ".rst") ++
    modules.map (fun path => Text.upTo (Path.base path) (-3) ++ ".rst")
  match settings.orders.get? (pages.map (Text.replace ".rst" "")) with
  | some order => order.map fun name => name ++ (".rst" : Text)
  | none => pages

def writeDirectory (settings : Settings) (directory save : Text) (contents directories modules : List Text) :
    Script Unit := do
  if contents.contains "README.rst" ||
      (settings.stepped.map (Path.join settings.library)).contains directory then
    let names := Text.split "/" save
    let name := names.getLastD []
    let page := Path.join (Text.join "/" names.dropLast) (name ++ ".rst")
    if contents.contains "README.rst" then Readme.copy (Path.join directory "README.rst") page
    Toctree.append [(name, directoryPages settings directories modules)] page none true

def indexHead (before readme after : Text) : Text := before ++ "\n" ++ readme ++ "\n" ++ after

def sections (folders : Toctree) : Toctree :=
  Table.ofList (folders.map fun (folder, items) =>
    (Path.base folder, items.map fun item => Text.replace ".py" "" (Path.base item) ++ ".rst"))

def writeRelated (page : Text) : Script Unit :=
  let title := Text.capitalize (Text.replace "_" " " (Text.upTo page (-4)))
  Script.writeText (folder ++ "/docs/" ++ page) (title ++ "\n" ++ Text.rule title.length)

def writeIndex (settings : Settings) (folders : Toctree) : Script Unit := do
  let before ← Script.readText "partial_source/index_prepend.rst"
  let readme ← Script.ofExcept id (Readme.indexText (← Script.readText "../README.rst"))
  let after ← if ← Script.present "partial_source/index_append.rst" then
      Script.readText "partial_source/index_append.rst"
    else pure []
  let index := folder ++ "/index.rst"
  Script.writeText index (indexHead before readme after)
  let toctree ← match settings.heading with
    | .byDirectory => pure (sections folders)
    | .common title => do
      Toctree.append (sections folders) index (some title) true
      pure []
    | .untitled => throw .titleMissing
  let related := (← Script.readLines (Path.join settings.here "ivy_modules.txt")).map fun line =>
    Text.replace "\n" "" line ++ ".rst"
  Script.makeDirectories (folder ++ "/docs") true
  related.forM writeRelated
  Toctree.append (Table.put "docs" related toctree) index none true

def writeUpTo (settings : Settings) : Nat → Text → Script (List Text × List Text)
  | 0, _ => throw .tooDeep
  | depth + 1, directory => do
    let contents := Text.sort (← Script.names directory)
    let paths := contents.map (Path.join directory)
    let location := Module.locate settings directory
    let save := Path.join folder (location.relative directory)
    Script.makeDirectories (Path.directory save) true
    let directories ← Module.directories paths
    let kept := directories.filter (!(Module.skippedDirectories settings).contains ·)
    let folders ← kept.mapM fun inner => do
      let (innerDirectories, innerModules) ← writeUpTo settings depth inner
      return (inner, innerDirectories ++ innerModules)
    let modules := paths.filter Module.isModule
    let _ ← modules.foldlM (writeModule settings location (frameworksFor settings directory)) none
    writeDirectory settings directory save contents directories modules
    if directory = settings.library then
      writeIndex settings (if settings.heading = .byDirectory then folders else [([], modules)])
    return (directories, modules)

def write (settings : Settings) (directory : Text) : Script (List Text × List Text) := do
  writeUpTo settings (2 * ((← get).height + 4)) directory

end ApiDocs.Pages
