import ApiDocs.Text.Blank
import ApiDocs.Text.Case
import ApiDocs.Text.Slice

/-! Definitions of methods on the page of a function: links to their source are led to the module that
defines them, and the first paragraph of their text is linked to the function. -/

set_option autoImplicit false

namespace ApiDocs.Html

structure Definition where
  line : Text
  start : Nat
  deriving DecidableEq, Repr

def definitionMark : Text := "<dt class=\"sig sig-object py\""

/-- The line that begins at a place, without its newline. If no newline follows there is no line, except
at the start of the page, where only the last character is left out. -/
def lineAt (page : Text) (start : Nat) : Text :=
  Text.slice page start (start + Text.index "\n" (page.drop start))

def Definition.ofArray (definition : Definition) : Bool :=
  Text.mentions "array_methods" definition.line

def Definition.isMethod (definition : Definition) : Bool :=
  definition.ofArray || Text.mentions "container_methods" definition.line

def methods (page : Text) : List Definition :=
  ((Text.places definitionMark page).map fun start => ⟨lineAt page start, start⟩).filter (·.isMethod)

def functionalFolder : Text := "functional/ivy/"

def submoduleOf (path : Text) : Text :=
  let start := Text.index functionalFolder path + functionalFolder.length
  Text.slice path start (start + Text.index "/" (Text.since path start))

def Definition.identifier (definition : Definition) : Text :=
  let start := Text.index "id=\"" definition.line + 4
  Text.slice definition.line start (start + Text.index "\"" (Text.since definition.line start))

def Definition.address (submodule : Text) (definition : Definition) : Text :=
  let name := Text.afterLast '.' definition.identifier
  let owner := Text.capitalize submodule
  if definition.ofArray then
    "array/" ++ submodule ++ ".html#ArrayWith" ++ owner ++ "." ++ name
  else "container/" ++ submodule ++ ".html#ContainerWith" ++ owner ++ "." ++ name

def referenceMark : Text := "<a class=\"reference internal\" href=\""

def sourceFolder : Text := "_modules/ivy/"

/-- A page in which the source link of a definition is changed. The definition has moved by `shift`
characters since it was found; the new shift comes with the page. -/
def relinkSource (submodule : Text) (state : Text × Int) (definition : Definition) : Text × Int :=
  let (page, shift) := state
  let moved := definition.start + shift
  let start := moved + Text.index referenceMark (Text.since page moved) + referenceMark.length
  let stop := start + Text.index "\"><span" (Text.since page start)
  let old := Text.slice page start stop
  let new := Text.upTo old (Text.index sourceFolder old + sourceFolder.length) ++
    definition.address submodule
  (Text.upTo page start ++ new ++ Text.since page stop, shift + new.length - old.length)

def relinkSources (submodule : Text) (definitions : List Definition) (page : Text) : Text :=
  (definitions.foldl (relinkSource submodule) (page, 0)).1

structure Call where
  start : Nat
  text : Text
  word : Text
  deriving DecidableEq, Repr

def endsName (c : CodePoint) : Bool := c = ' ' || c = '.'

/-- The call that a text begins with: a word, the library's name, and a name that a space or a point
ends. -/
def callAt? (start : Nat) (word text : Text) : Option Call :=
  let lead := word ++ " ivy."
  if lead.isPrefixOf text then
    match (text.drop lead.length).findIdx? endsName with
    | some length => some ⟨start, text.take (lead.length + length), word⟩
    | none => none
  else none

def callsFrom (start : Nat) : Text → List Call
  | [] => []
  | c :: rest =>
    ((callAt? start "of" (c :: rest)).toList ++ (callAt? start "for" (c :: rest)).toList) ++
      callsFrom (start + 1) rest

def Call.name (call : Call) : Text := ((Text.split "." call.text)[1]?).getD []

/-- The link in place of a call, if some part of the page's path holds the function's name. -/
def Call.link? (path : Text) (call : Call) : Option Text :=
  let matching := (Text.split "/" path).filter (Text.mentions call.name)
  if matching.isEmpty then none
  else
    let dot : Text := if matching.length = 2 then "." else ""
    let shown : Text := ((Text.words call.text)[1]?).getD []
    some (call.word ++ " <a href=\"" ++ dot ++ "./" ++ call.name ++ "/" ++ call.name ++
      "_functional.html\">" ++ shown ++ "</a>")

def replaceCall (state : Text × Int) (pair : Call × Text) : Text × Int :=
  let (text, shift) := state
  let (call, link) := pair
  (Text.upTo text (call.start + shift) ++ link ++ Text.since text (call.start + call.text.length + shift),
    shift + link.length - call.text.length)

/-- A paragraph without marks of citation, and with links. The links of the calls that have one are put
in place of the first calls. -/
def linkCalls (path paragraph : Text) : Text :=
  let text := paragraph |> Text.replace "<cite>" "" |> Text.replace "</cite>" ""
  let calls := callsFrom 0 text
  ((calls.zip (calls.filterMap (Call.link? path))).foldl replaceCall (text, 0)).1

/-- A page in which the first paragraph of a definition is linked, if it has ten characters or more and
shows no code. -/
def linkDefinition (path page : Text) (definition : Definition) : Text :=
  let start := definition.start
  let stop := start + Text.index "</dl>" (page.drop start)
  let first := start + Text.index "<p>" (page.drop start) + 3
  let last := first + Text.index "</p>" (Text.slice page first stop)
  let paragraph := Text.slice page first last
  if last - first < 10 || first = 3 || !Text.mentions "functional" path ||
      Text.mentions "code" paragraph then page
  else Text.upTo page first ++ linkCalls path paragraph ++ Text.since page last

def linkMethods (path page : Text) : Text :=
  if Text.mentions functionalFolder path then
    let definitions := methods page
    definitions.foldl (linkDefinition path) (relinkSources (submoduleOf path) definitions page)
  else page

end ApiDocs.Html
