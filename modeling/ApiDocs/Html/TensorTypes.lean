import ApiDocs.Text.Slice
import ApiDocs.Text.Split

/-! Tensor types of single frameworks, which the lists of parameters leave out. What is left out is first
covered by a filling, which goes at the end. -/

set_option autoImplicit false

namespace ApiDocs.Html

def parametersMark : Text := "<dt class=\"field-odd\">Parameters</dt>"

def codeMark : Text :=
  "<code class=\"xref py py-class docutils literal notranslate\"><span class=\"pre\">"

def filling : Text := "<doc-builder-tensor-placeholder>"

def isTensorType (code : Text) : Bool :=
  Text.mentions "_DeviceArray" code || Text.mentions "DeviceArray" code ||
    Text.mentions "ndarray" code || Text.mentions "Tensor" code

/-- Covers the element at a place, a comma in front of it and one character after it, if it is a tensor
type. -/
def coverElement (page : Text) (place : Nat) : Text :=
  let stop := place + Text.index "</code>" (Text.since page place) + 7
  if isTensorType (Text.slice page place stop) then
    let start : Int := if Text.slice page (place - 2) place = ", " then place - 2 else place
    Text.upTo page start ++ Text.times (stop - start + 1).toNat filling ++ Text.since page (stop + 1)
  else page

def coverBetween (page : Text) (start stop : Nat) : Text :=
  ((Text.places codeMark page).filter fun place => start ≤ place && place < stop).foldl coverElement page

def coverLists (page : Text) : List Nat → Text
  | [] => page
  | [start] => coverBetween page start page.length
  | start :: next :: rest => coverLists (coverBetween page start next) (next :: rest)

def dropTensorTypes (page : Text) : Text :=
  Text.replace filling "" (coverLists page (Text.places parametersMark page))

end ApiDocs.Html
