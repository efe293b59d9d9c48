import ApiDocs.CommandLine
import ApiDocs.Html.Page

/-! The program. The directory above the working directory is the workspace: its files are loaded, a
run is made on them, and what has changed is saved, also after a failure. A program that is started under
the name `correct` corrects the pages of a build; any other writes the pages of a library. -/

set_option autoImplicit false

namespace ApiDocs.Main

/-- The entries below a directory of the disk. -/
partial def load (path : String) (place : Place) : IO (List (Place × Entry)) := do
  let mut entries := []
  for item in ← (← IO.FS.realPath path).readDir do
    let inner := path ++ "/" ++ item.fileName
    let innerPlace := place ++ [(item.fileName : Text)]
    if ← (← IO.FS.realPath inner).isDir then
      entries := entries ++ [(innerPlace, Entry.directory)] ++ (← load inner innerPlace)
    else
      entries := entries ++ [(innerPlace, Entry.file (← IO.FS.readBinFile inner).toList)]
  return entries

def onDisk (root : Text) (place : Place) : String := String.ofList (Text.toChars (Text.join "/" (root :: place)))

/-- Removes what is gone, then writes what is new or has changed. -/
def save (root : Text) (before after : Tree) : IO Unit := do
  for (place, entry) in before.entries do
    if (after.get? place).isNone && (place.length ≤ 1 || (after.get? place.dropLast).isSome) then
      match entry with
      | .directory => IO.FS.removeDirAll (onDisk root place)
      | .file _ => IO.FS.removeFile (onDisk root place)
  for (place, entry) in after.entries do
    if entry = .directory then IO.FS.createDirAll (onDisk root place)
  for (place, entry) in after.entries do
    match entry with
    | .file bytes =>
      if before.get? place ≠ some entry then
        IO.FS.writeBinFile (onDisk root place) (ByteArray.mk bytes.toArray)
    | .directory => pure ()

def command (words : List Text) : Script CommandLine.Exit := do
  if words.head?.map Path.base = some "correct" then
    return ⟨0, ← Html.correctBuild, []⟩
  else CommandLine.run words

end ApiDocs.Main

def main (arguments : List String) : IO UInt32 := do
  let program := (← IO.appPath).toString
  let here := ApiDocs.Text.ofChars (← IO.currentDir).toString.toList
  let root := ApiDocs.Path.directory here
  let tree : ApiDocs.Tree := ⟨← ApiDocs.Main.load (ApiDocs.Main.onDisk root []) []⟩
  let site : ApiDocs.Site := .ascending root [ApiDocs.Path.base here]
  let words := (program :: arguments).map fun word => ApiDocs.Text.ofChars word.toList
  let (outcome, after) := (ApiDocs.Main.command words).runOn site tree
  ApiDocs.Main.save root tree after
  match outcome with
  | .ok exit =>
    (← IO.getStdout).putStr (String.ofList exit.output.toChars)
    (← IO.getStderr).putStr (String.ofList exit.errors.toChars)
    return exit.code.toUInt32
  | .error fault =>
    (← IO.getStderr).putStrLn (String.ofList fault.message.toChars)
    return 1
