import ApiDocs.Fault
import ApiDocs.Text.Split

/-! Dotted names as pages show them. A table says which shorter name stands for all names that contain a
key; the first such entry counts. -/

set_option autoImplicit false

namespace ApiDocs.Html

/-- The value of the first key that occurs in a name. -/
def permitted? {α : Type} (table : Table Text α) (name : Text) : Option α :=
  (table.find? fun entry => Text.mentions entry.1 name).map (·.2)

def trimNamespace (namespaces : Json) (name : Text) : Except Fault Json :=
  match namespaces with
  | .object table => .ok ((permitted? table name).getD (.text name))
  | value => .error (.namespacesKind value.kind)

def namespaceMark : Text := "<span class=\"sig-prename descclassname\">"

def shown : Json → Except Fault Text
  | .text value => .ok value
  | value => .error (.namespaceKind value.kind)

def trimPart (namespaces : Json) (part : Text) : Except Fault (Json × List Text) :=
  match Text.split "</span>" part with
  | name :: rest => do return (← trimNamespace namespaces name, rest)
  | [] => .ok (.text [], [])

def trimNamespaces (namespaces : Json) (page : Text) : Except Fault Text :=
  match Text.split namespaceMark page with
  | head :: parts => do
    let trimmed ← parts.mapM (trimPart namespaces)
    let texts ← trimmed.mapM fun (name, rest) => do return Text.join "</span>" ((← shown name) :: rest)
    return Text.join namespaceMark (head :: texts)
  | [] => .ok page

end ApiDocs.Html
