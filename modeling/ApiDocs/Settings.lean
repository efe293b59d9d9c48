import ApiDocs.Table
import ApiDocs.Text.Split

/-! What a run is set up with. -/

set_option autoImplicit false

namespace ApiDocs

inductive Heading where
  /-- One section for each directory. -/
  | byDirectory
  /-- All modules under a common title. -/
  | common (title : Text)
  /-- All modules under a common title, of which nothing is said. -/
  | untitled
  deriving DecidableEq, Repr

structure Settings where
  /-- The directory of the files that set up a run. -/
  here : Text := []
  /-- The directory of the library that is documented. -/
  library : Text := []
  heading : Heading := .common []
  /-- Directories of the library that are left out. -/
  skipped : List Text := []
  /-- Paths of the library that get no page of their own. -/
  stepped : List Text := []
  /-- For the ascending names in a directory, the order in which they are listed. -/
  orders : Table (List Text) (List Text) := []
  /-- Whether methods of the data classes are shown with the functions. -/
  merges : Bool := false
  /-- What every page of a function or class ends with. -/
  frameworks : Text := []
  deriving DecidableEq, Repr

namespace Settings

/-- The order that a line such as `[b, a]` asks for. -/
def orderOfLine (line : Text) : List Text :=
  Text.split "," ((Text.replace " " "" (Text.replace "\n" "" line)).tail.dropLast)

end Settings
end ApiDocs
