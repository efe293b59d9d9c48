import ApiDocs.File.Script
import ApiDocs.Text.Case

/-! Tables of contents. A table of contents is a list of sections, each with the pages of one folder;
it is written as one block a section, under the section's caption or a common one. -/

set_option autoImplicit false

namespace ApiDocs

abbrev Toctree := Table Text (List Text)

namespace Toctree

/-- The caption of a folder's block: the common one if there is one, else the folder's name as a title.
Functional pages go under the heading of functions. -/
def caption (common : Option Text) (folder : Text) : Text :=
  let title := common.getD (Text.replace "_" " " (Text.capitalize folder))
  if title = "Functional" then "Functions" else title

def line (folder page : Text) : Text := "   " ++ Path.join folder page ++ "\n"

def block (common : Option Text) (folder : Text) (pages : List Text) : Text :=
  "\n.. toctree::\n   :hidden:\n   :maxdepth: -1\n   :caption: " ++ caption common folder ++ "\n\n" ++
    pages.flatMap (line folder) ++ "\n"

def render (common : Option Text) (toctree : Toctree) : Text :=
  "\n" ++ toctree.flatMap fun (folder, pages) => block common folder pages

/-- The blocks of a table of contents from the first line on, with an empty line after them. -/
def renderTight (common : Option Text) (toctree : Toctree) : Text :=
  Text.trimLeft '\n' (render common toctree) ++ "\n"

def append (toctree : Toctree) (page : Text) (common : Option Text) (spaced : Bool) : Script Unit :=
  Script.appendText page (if spaced then render common toctree else renderTight common toctree)

end Toctree
end ApiDocs
