import ApiDocs.File.Script

/-! The readme as it goes into the index page: images that it takes from the repository's address are
taken from the built pages instead. -/

set_option autoImplicit false

namespace ApiDocs.Readme

def sourceFolder : Text := "docs/partial_source"

/-- Whether a line shows an image from the source folder by an absolute address. Spaces do not count. -/
def isAbsoluteImage (line : Text) : Bool :=
  let squashed := Text.replace " " "" line
  ("..image::https://github.com/" : Text).isPrefixOf squashed && Text.mentions sourceFolder squashed

def localiseImage (line : Text) : Except Fault Text :=
  match Text.split sourceFolder line with
  | [before, after] => .ok ((Text.split "https" before).headD [] ++ sourceFolder ++ after)
  | [] | [_] => .error .imageFolderBroken
  | _ => .error .imageFolderRepeated

def localiseLine (line : Text) : Except Fault Text :=
  if isAbsoluteImage line then localiseImage line else .ok line

def localise (text : Text) : Except Fault Text := do
  return Text.join "\n" (← (Text.split "\n" text).mapM localiseLine)

def relocateImages (text : Text) : Text :=
  text
  |> Text.replace "docs/partial_source/" "../autogenerated_source/"
  |> Text.replace "../autogenerated_source/logos/supported/" "_images/"
  |> Text.replace "../autogenerated_source/logos/" "_images/"
  |> Text.replace "../autogenerated_source/images/" "_images/"

/-- A readme without its pointer to the documentation, and with more room after a row of images. -/
def prepare (text : Text) : Text :=
  text
  |> Text.replace "Check out the docs_ for more info!" ""
  |> Text.replace "</div>\n    <br clear=\"all\" />\n"
    "</div>\n    <br clear=\"all\" />\n    <br/>\n    <br/>\n"

def indexText (text : Text) : Except Fault Text := do
  return relocateImages (← localise (prepare text))

def copy (readme page : Text) : Script Unit := do
  Script.writeText page (← Script.readText readme)

end ApiDocs.Readme
