import ApiDocs.Text.Slice
import ApiDocs.Text.Split

/-! What is put into a built page, and the spellings that are changed everywhere. -/

set_option autoImplicit false

namespace ApiDocs.Html

def iconLine : Text :=
  "      <link rel=\"icon\" type=\"image/png\" href=\"https://github.com/unifyai/unifyai.github.io/blob/master/img/externally_linked/ivy_logo_only.png?raw=true\">\n"

def insertIcon (page : Text) : Text :=
  let sheet := Text.index "    <link rel=\"stylesheet\"" page
  let close := Text.index " />" (Text.since page sheet)
  Text.insertAt page (sheet + close + 4) iconLine

def frameworksMark : Text := "<div class=\"line\"><strong>Supported Frameworks:</strong></div>"

def externalLink : Text := "reference external"

/-- Puts in the class of the link that ends at a place, where the link ends by now, and counts what has been put in. -/
def insertLogo (state : Text × Int) (stop : Nat) : Text × Int :=
  (Text.insertAt state.1 (stop + state.2) " logo", state.2 + 5)

/-- A page in which the paragraph of supported frameworks and the links in it have classes of their own. -/
def markFrameworks (page : Text) : Text :=
  match Text.index? frameworksMark page with
  | none => page
  | some mark =>
    let paragraph := Text.index "<p" (page.drop mark) + mark + 2
    let marked := Text.insertAt page paragraph " class=supported_frameworks"
    let close := Text.index "</p>" (marked.drop mark) + mark
    let links := (Text.places externalLink marked).filter fun (place : Nat) =>
      paragraph ≤ place && place < close
    ((links.map (· + externalLink.length)).foldl insertLogo (marked, 0)).1

def tidy (page : Text) : Text :=
  page |> Text.replace "3.141592653589793" "π" |> Text.replace "# noqa" ""

def relinkModule (page name : Text) : Text :=
  Text.replace ("docs/" ++ name ++ ".html") ("../" ++ Text.afterLast '_' name ++ "\"") page

def relinkModules (names : List Text) (page : Text) : Text := names.foldl relinkModule page

end ApiDocs.Html
