import ApiDocs.Fault
import ApiDocs.File.Tree

/-! Steps that read and change the files of a workspace. A step that fails keeps what it has written
until then. Text files hold UTF-8; on reading, every kind of line end becomes a newline. -/

set_option autoImplicit false

namespace ApiDocs

abbrev Script (α : Type) := ReaderT Site (ExceptT Fault (StateM Tree)) α

def Refusal.fault (path : Text) : Refusal → Fault
  | .absent => .absent path
  | .isDirectory => .isDirectory path
  | .notDirectory => .notDirectory path
  | .alreadyExists => .alreadyExists path
  | .tooLong => .tooLong path
  | .nullByte => .nullByte
  | .unencodable run => .unencodable run

namespace Script

def runOn {α : Type} (script : Script α) (site : Site) (tree : Tree) : Except Fault α × Tree :=
  (script.run site).run.run tree

def inspect {α : Type} (path : Text) (look : Site → Tree → Except Refusal α) : Script α := do
  match look (← read) (← get) with
  | .ok value => return value
  | .error refusal => throw (refusal.fault path)

def ofExcept {ε α : Type} (fault : ε → Fault) : Except ε α → Script α
  | .ok value => pure value
  | .error error => throw (fault error)

def readBytes (path : Text) : Script Bytes :=
  inspect path fun site tree => do
    match ← site.find tree path with
    | (_, .file bytes) => .ok bytes
    | (_, .directory) => .error .isDirectory

def readText (path : Text) : Script Text := do
  return Text.unifyNewlines (← ofExcept .undecodable (Utf8.decode (← readBytes path)))

def readLenient (path : Text) : Script Text := do
  return Text.unifyNewlines (Utf8.decodeLenient (← readBytes path))

def readLines (path : Text) : Script (List Text) := do
  return Text.lines (Text.unifyNewlines (← ofExcept .undecodable (Utf8.decodeLines (← readBytes path))))

/-- The place of a file that is to be written, and the bytes that it holds by now. A path that ends with a
slash is refused without a look at its last name. -/
def writable (path : Text) (site : Site) (tree : Tree) : Except Refusal (Place × Bytes) := do
  let path ← Path.accept path
  if path.getLast? = some (.char '/') then
    let _ ← site.locate tree (Path.join (Path.directory (Path.dropSlashes path)) ".")
    .error .isDirectory
  else
    let place ← site.locate tree path
    match tree.get? place with
    | some .directory => .error .isDirectory
    | some (.file bytes) => .ok (place, bytes)
    | none => .ok (place, [])

/-- Puts pieces of text after some bytes of a file, one after the other. If a piece cannot be encoded, the
file is there with what comes before that piece. -/
def writeAfter (bytes : Bytes) (place : Place) : List Text → Script Unit
  | [] => modify (·.put place (.file bytes))
  | piece :: pieces =>
    match Utf8.encode piece with
    | .ok added => writeAfter (bytes ++ added) place pieces
    | .error run => do
      modify (·.put place (.file bytes))
      throw (.unencodable run)

def writeText (path text : Text) : Script Unit := do
  let (place, _) ← inspect path (writable path)
  writeAfter [] place [text]

def appendPieces (path : Text) (pieces : List Text) : Script Unit := do
  let (place, bytes) ← inspect path (writable path)
  writeAfter bytes place pieces

def appendText (path text : Text) : Script Unit := appendPieces path [text]

def present (path : Text) : Script Bool := do
  return ((← read).find (← get) path).toOption.isSome

def isDirectory (path : Text) : Script Bool := do
  match (← read).find (← get) path with
  | .ok (_, .directory) => return true
  | _ => return false

def directoryPlace (path : Text) (site : Site) (tree : Tree) : Except Refusal Place := do
  match ← site.find tree path with
  | (place, .directory) => .ok place
  | (_, .file _) => .error .notDirectory

def names (path : Text) : Script (List Text) := do
  let place ← inspect path (directoryPlace path)
  return (← read).arrange place ((← get).names place)

def makeDirectory (path : Text) : Script Unit := do
  let place ← inspect path fun site tree => do
    let place ← site.locate tree (Path.dropSlashes (← Path.accept path))
    if (tree.get? place).isSome then .error .alreadyExists else .ok place
  modify (·.put place .directory)

def makeDirectoriesUpTo (existing : Bool) : Nat → Text → Script Unit
  | 0, _ => throw .tooDeep
  | depth + 1, path => do
    let inner := if (Path.base path).isEmpty then Path.directory path else path
    let head := Path.directory inner
    let name := Path.base inner
    if !head.isEmpty && !name.isEmpty && !(← present head) then
      try makeDirectoriesUpTo existing depth head
      catch
        | .alreadyExists _ => pure ()
        | fault => throw fault
      if name = "." then return
    try makeDirectory path
    catch fault => if existing && (← isDirectory path) then pure () else throw fault

/-- Makes a directory and those above it that are missing. One that exists is kept if `existing` allows
it. -/
def makeDirectories (path : Text) (existing : Bool) : Script Unit :=
  makeDirectoriesUpTo existing (path.length + 1) path

def removeDirectory (path : Text) : Script Unit := do
  let place ← inspect path (directoryPlace path)
  modify (·.erase place)

def removeFile (path : Text) : Script Unit := do
  let place ← inspect path fun site tree => do
    match ← site.find tree path with
    | (place, .file _) => .ok place
    | (_, .directory) => .error .isDirectory
  modify (·.erase place)

def copyDirectory (source target : Text) : Script Unit := do
  let origin ← inspect source (directoryPlace source)
  makeDirectories target false
  let destination ← inspect target (directoryPlace target)
  modify (·.graft origin destination)

/-- Moves a file or directory into a directory that has no entry of its name. -/
def moveInto (source directory : Text) : Script Unit := do
  let target := Path.join directory (Path.base (Path.dropSlashes source))
  if ← present target then throw (.destinationExists target)
  let (origin, _) ← inspect source fun site tree => site.find tree source
  let destination ← inspect target fun site tree => site.locate tree target
  modify fun tree => (tree.graft origin destination).erase origin

end Script
end ApiDocs
