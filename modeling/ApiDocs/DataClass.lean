import ApiDocs.Index
import ApiDocs.Pages

/-! The section of data classes: the folders of array and container move into it, and the index is
rearranged accordingly. -/

set_option autoImplicit false

namespace ApiDocs.DataClass

def writeHeader (page title dotted : Text) : Script Unit :=
  Script.writeText page (Pages.header title dotted)

def dropTitle (page : Text) : Script Unit := do
  let lines ← Script.readLines page
  Script.writeText page (lines.drop 3).flatten

def moveEntry (directory submodule line : Text) : Script Text := do
  if line.contains '/' then
    dropTitle (directory ++ "/" ++ Text.trim '\n' (Text.trim ' ' line))
    return Text.replace submodule (submodule ++ "/" ++ submodule) line
  else return line

/-- The lines in place of one line: a hidden table of contents gets a second option after it. -/
def moveLine (directory submodule line : Text) : Script (List Text) := do
  if Text.mentions ":hidden:" line then
    return [line, ← moveEntry directory submodule (Text.replace "hidden" "titlesonly" line)]
  else return [← moveEntry directory submodule line]

def liftPage (page source submodule : Text) : Script Unit := do
  let directory := Text.join "/" (Text.split "/" source).dropLast
  let moved ← (← Script.readLines source).mapM (moveLine directory submodule)
  Script.writeText page moved.flatten.flatten

/-- Writes the page of a folder: its header, or what is lifted from a page in it, and a table of
contents of the pages in the folder. -/
def writePage (folder page title dotted submodule : Text) : Script Unit := do
  if Text.mentions "data_classes/array.rst" page then
    liftPage page (Text.replace "data_classes/array.rst" "data_classes/array/array.rst" page) submodule
  else if Text.mentions "data_classes/container.rst" page then
    liftPage page
      (Text.replace "data_classes/container.rst" "data_classes/container/container.rst" page) submodule
  else writeHeader page title dotted
  let files := (← Script.names folder).filter fun file =>
    Text.mentions ".rst" file && !(["array.rst", "container.rst"] : List Text).contains file
  Toctree.append [(submodule, Text.sort files)] page (some title) true

def updateImagesUpTo (old new : Text) : Nat → Text → Script Unit
  | 0, _ => throw .tooDeep
  | depth + 1, folder => do
    let folders := (← Script.names folder).filter (!Text.mentions ".rst" ·)
    if folders.isEmpty then
      let files := (← Script.names folder).filter (Text.mentions ".rst")
      files.forM fun file => do
        let path := Path.join folder file
        Script.writeText path (Text.replace old new (← Script.readText path))
    folders.forM fun inner => updateImagesUpTo old new depth (Path.join folder inner)

def updateImages (folder old new : Text) : Script Unit := do
  updateImagesUpTo old new ((← get).height + 2) folder

def listInIndex (pages name title : Text) : Script Unit := do
  let files := (← Script.names (Path.join pages name)).filter (Text.mentions ".rst")
  Toctree.append [(name, files)] (Path.join pages "index.rst") (some title) false

/-- Takes the sections that move out of the index, and puts the data classes and the framework classes
after the functions. -/
def rearrangeIndex (pages : Text) : Script Unit := do
  let path := Path.join pages "index.rst"
  let index := Index.ofLines (← Script.readLines path)
  let (before, after) ← Script.ofExcept id index.cut
  Script.writeText path (index.head ++ before.flatten)
  listInIndex pages "data_classes" "Data Classes"
  listInIndex pages "stateful" "Framework Classes"
  Script.appendText path after.flatten

def relocate (settings : Settings) : Script Unit := do
  let pages := Path.join settings.here Pages.folder
  let classes := Path.join pages "data_classes"
  Script.makeDirectories classes true
  Script.moveInto (Path.join pages "array") classes
  Script.moveInto (Path.join pages "container") classes
  writePage (Path.join pages "stateful") (Path.join pages "stateful.rst") "Framework Classes"
    "ivy.stateful" "stateful"
  writePage (Path.join classes "array") (Path.join classes "array.rst") "Array" "ivy.Array" "array"
  writePage (Path.join classes "container") (Path.join classes "container.rst") "Container"
    "ivy.Container" "container"
  writePage classes (Path.join pages "data_classes.rst") "Data Classes" "ivy.data_classes"
    "data_classes"
  rearrangeIndex pages

end ApiDocs.DataClass
