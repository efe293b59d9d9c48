import ApiDocs.Pages

/-! Links to the places where a submodule is discussed. The links stand in a JSON file; nothing but its
use says what form it has, so every value is taken for what the use needs, or refused. -/

set_option autoImplicit false

namespace ApiDocs.Discussion

def address : Text := "https://discord.com/channels/799879767196958751/"

def paragraph (submodule forum channel : Text) : Text :=
  ".. _`discord`: https://discord.gg/ZVQdvbzNQJ \n" ++
    ".. _`" ++ submodule ++ " forum`: " ++ forum ++ "\n" ++
    ".. _`" ++ submodule ++ " channel`: " ++ channel ++ "\n" ++
    "This should have hopefully given you an overview of the " ++ submodule ++ " submodule," ++
    "If you have any questions, please feel free to reach out on our " ++
    "`discord`_ in the `" ++ submodule ++ " channel`_ or in the `" ++ submodule ++ " forum`_!"

def items : Json → Except Fault (List Json)
  | .object members => .ok (members.map fun (name, _) => .text name)
  | .list items => .ok items
  | .text value => .ok (value.map fun c => .text [c])
  | value => .error (.notIterable value.kind)

def isPlace (place : Int) : Bool :=
  -9223372036854775808 ≤ place && place < 9223372036854775808

/-- An entry of a list; a place below zero counts from the end. -/
def entryAt {α : Type} (missing : Fault) (entries : List α) (place : Int) : Except Fault α :=
  let fromStart := if place < 0 then place + entries.length else place
  if !isPlace place then .error .placeTooLarge
  else match if fromStart < 0 then none else entries[fromStart.toNat]? with
    | some entry => .ok entry
    | none => .error missing

def place? : Json → Option Int
  | .int value => some value
  | .bool value => some (if value then 1 else 0)
  | _ => none

def part (value key : Json) : Except Fault Json :=
  match value with
  | .object members =>
    match key with
    | .text name => match Table.get? name members with
      | some member => .ok member
      | none => .error (.memberMissing (Text.quoted name))
    | .int place => .error (.memberMissing (Text.ofNat place.toNat))
    | _ => .error (.memberMissing key.kind)
  | .list entries => match place? key with
    | some place => entryAt .linkMissing entries place
    | none => .error (.listPlaceKind key.kind)
  | .text characters => match place? key with
    | some place => (entryAt .linkCharacterMissing characters place).map fun c => .text [c]
    | none => .error (.textPlaceKind key.kind)
  | value => .error (.notSubscriptable value.kind)

def asText : Json → Except Fault Text
  | .text value => .ok value
  | value => .error (.addressKind value.kind)

def entry (module submodules submodule : Json) : Except Fault (Text × Text) := do
  let moduleName ← asText module
  let name ← asText submodule
  let links ← part submodules submodule
  let channel ← asText (← part links (.int 0))
  let forum ← asText (← part (← part submodules submodule) (.int 1))
  return (Pages.folder ++ "/" ++ moduleName ++ "/" ++ name ++ ".rst",
    paragraph (Text.replace "_" " " name) (address ++ forum) (address ++ channel))

def appendModule (modules module : Json) : Script Unit := do
  let submodules ← Script.ofExcept id (part modules module)
  (← Script.ofExcept id (items submodules)).forM fun submodule => do
    let (page, text) ← Script.ofExcept id (entry module submodules submodule)
    Script.appendText page text

def append : Script Unit := do
  let text ← Script.readText "partial_source/discussion_links.json"
  let modules ← Script.ofExcept .malformed (Json.read text)
  (← Script.ofExcept id (items modules)).forM (appendModule modules)

end ApiDocs.Discussion
