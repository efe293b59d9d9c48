import ApiDocs.Text.Split
import ApiDocs.Text.Utf8

/-! Written names of files. A written name is a text with slashes; the place that it stands for is a list
of names from the root of the workspace. -/

set_option autoImplicit false

namespace ApiDocs

/-- The names that lead from the root of the workspace to a file or directory. -/
abbrev Place := List Text

inductive Refusal where
  | absent
  | isDirectory
  | notDirectory
  | alreadyExists
  | tooLong
  | nullByte
  | unencodable (run : Utf8.Unencodable)
  deriving DecidableEq, Repr

namespace Path

/-- A name below a directory; a name that starts with a slash stands for itself. -/
def join (directory name : Text) : Text :=
  if name.head? = some (.char '/') then name
  else if directory.isEmpty || directory.getLast? = some (.char '/') then directory ++ name
  else directory ++ "/" ++ name

def base (path : Text) : Text := Text.afterLast '/' path

def dropSlashes (path : Text) : Text := (path.reverse.dropWhile (· == .char '/')).reverse

/-- A path without its last name. The slashes in front of that name go too, unless nothing else is
left. -/
def directory (path : Text) : Text :=
  let head := path.take (path.length - (base path).length)
  if head.all (· == .char '/') then head else dropSlashes head

/-- The names of a path. A slash at its end asks for a directory, as the name `.` does. -/
def names (path : Text) : List Text :=
  (Text.split "/" path).filter (!·.isEmpty) ++
    (if path.getLast? = some (.char '/') then [("." : Text)] else [])

/-- The bytes that a code point takes in a name; a surrogate stands for one. -/
def pointSize : CodePoint → Nat
  | .char c => c.utf8Size
  | .surrogate _ => 1

def size (path : Text) : Nat := path.foldl (fun size point => size + pointSize point) 0

def nameLimit : Nat := 255

def pathLimit : Nat := 4095

/-- A path as the workspace reads it. Surrogates may stand for bytes that are no text; where such bytes
make up a character after all, the path is read with that character. -/
def accept (path : Text) : Except Refusal Text :=
  match Utf8.encodeName path with
  | .error run => .error (.unencodable run)
  | .ok bytes =>
    if path.contains '\x00' then .error .nullByte
    else if pathLimit < size path then .error .tooLong
    else .ok (if path.any CodePoint.isSurrogate then Utf8.decodeName bytes else path)

end Path
end ApiDocs
