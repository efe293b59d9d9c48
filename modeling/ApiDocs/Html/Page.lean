import ApiDocs.File.Script
import ApiDocs.Html.Breadcrumb
import ApiDocs.Html.Definitions
import ApiDocs.Html.Insertions
import ApiDocs.Html.Namespaces
import ApiDocs.Html.TensorTypes

/-! Built pages and their correction. A page is corrected from its own text, its path, the names of the
related libraries and the table of namespaces; it is written when everything else has been done. -/

set_option autoImplicit false

namespace ApiDocs.Html

def correct (namespaces : Json) (related : List Text) (path page : Text) : Except Fault Text := do
  let trimmed ← page |> insertIcon |> markFrameworks |> tidy |> relinkModules related
    |> trimNamespaces namespaces
  return trimmed |> dropUntitled |> linkMethods path |> dropTensorTypes

def readRelated : Script (List Text) := do
  return (← Script.readLines (Path.join (← read).here "ivy_modules.txt")).map (Text.replace "\n" "")

def correctFile (namespaces : Json) (path : Text) : Script Unit := do
  let page ← Script.readText path
  let related ← readRelated
  Script.writeText path (← Script.ofExcept id (correct namespaces related path page))

def isPage (path : Text) : Bool := Text.since path (-5) == ".html"

def correctUpTo (namespaces : Json) : Nat → Text → Script Unit
  | 0, _ => throw .tooDeep
  | depth + 1, directory => do
    ((← Script.names directory).map (Path.join directory)).forM fun path => do
      if isPage path then correctFile namespaces path
      else if ← Script.isDirectory path then correctUpTo namespaces depth path

def correctAll (namespaces : Json) (directory : Text) : Script Unit := do
  correctUpTo namespaces ((← get).height + 2) directory

def readNamespaces : Script Json := do
  let text ← Script.readText (Path.join (← read).here "permitted_namespaces.json")
  Script.ofExcept .malformed (Json.read text)

def correctBuild : Script Text := do
  correctAll (← readNamespaces) "build"
  return "\nParsed and corrected built html files\n\n"

end ApiDocs.Html
