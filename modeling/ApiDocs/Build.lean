import ApiDocs.DataClass
import ApiDocs.Discussion
import ApiDocs.Instance
import ApiDocs.Stub

/-! A whole run: the settings are read, the folder of pages is made anew and every page is written. The
settings that were made before a failure stay. -/

set_option autoImplicit false

namespace ApiDocs

structure Session where
  settings : Settings
  tree : Tree
  deriving DecidableEq, Repr

abbrev Build (α : Type) := ReaderT Site (ExceptT Fault (StateM Session)) α

namespace Build

def withSettings {α : Type} (script : Settings → Script α) : Build α := fun site session =>
  let (outcome, tree) := (script session.settings).runOn site session.tree
  (outcome, { session with tree })

def files {α : Type} (script : Script α) : Build α := withSettings fun _ => script

def runOn {α : Type} (build : Build α) (site : Site) (session : Session) : Except Fault α × Session :=
  (ReaderT.run build site).run.run session

def set (change : Settings → Settings) : Build Unit :=
  modify fun session => { session with settings := change session.settings }

/-- The lines of a settings file after its first one, if the file is there. -/
def settingLines? (name : Text) : Build (Option (List Text)) :=
  withSettings fun settings => do
    let path := Path.join settings.here name
    if ← Script.present path then return some (← Script.readLines path).tail else return none

/-- The orders that lines ask for, each under its names in ascending order. -/
def ordersOf (lines : List Text) : Table (List Text) (List Text) :=
  Table.ofList ((lines.map Settings.orderOfLine).map fun order => (Text.sort order, order))

def projectTitle (library : Text) : Text :=
  Text.capitalizeWords (Text.replace "_" " " (Path.base library))

def readSettings : Build Unit := do
  if let some lines ← settingLines? "submods_to_skip.txt" then
    set fun settings => { settings with skipped := lines.map (Text.replace "\n" "") }
  if let some lines ← settingLines? "submods_to_step.txt" then
    set fun settings => { settings with stepped := lines.map (Text.replace "\n" "") }
  if let some lines ← settingLines? "submod_orders.txt" then
    set fun settings => { settings with orders := ordersOf lines }

def configure (library : Text) (heading : Heading) : Build Unit := do
  let here := (← read).here
  set fun settings => { settings with here, library, heading }
  readSettings
  if Text.lower (projectTitle library) = "ivy" then
    set fun settings => { settings with merges := true }

def writeConfiguration (title : Text) : Script Unit := do
  let text ← Script.readText "partial_source/conf.py"
  Script.writeText "partial_source/conf.py"
    (Text.replace "project = 'Ivy'" ("project = '" ++ title ++ "'") text)

def prepareFolder : Script Unit := do
  if ← Script.present Pages.folder then Script.removeDirectory Pages.folder
  Script.copyDirectory "partial_source/images" "build/_images"
  Script.copyDirectory "partial_source" Pages.folder

def removeStubPages : Script Unit := do
  Script.removeDirectory (Pages.folder ++ "/container/container_methods")
  Script.removeFile (Pages.folder ++ "/container/container_methods.rst")
  Script.removeDirectory (Pages.folder ++ "/array/array_methods")
  Script.removeFile (Pages.folder ++ "/array/array_methods.rst")

def writePages (settings : Settings) : Script Unit := do
  prepareFolder
  if settings.merges then Stub.gather settings settings.library
  let _ ← Pages.write settings settings.library
  if settings.merges then
    Instance.mergeAll settings
    removeStubPages
    DataClass.relocate settings
    Discussion.append

/-- A run that is given no library ends when the settings have been read. -/
def performNothing : Build Unit := do
  let here := (← read).here
  set fun settings => { settings with here }
  readSettings
  throw .libraryMissing

def perform (library : Text) (heading : Heading) : Build Unit := do
  configure library heading
  files (writeConfiguration (projectTitle library))
  withSettings writePages

end Build
end ApiDocs
