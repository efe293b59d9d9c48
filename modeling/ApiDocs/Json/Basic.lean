import ApiDocs.Table
import ApiDocs.Text.Basic

/-! Values of the JSON format. An object keeps its members in the order in which they first came. -/

set_option autoImplicit false

namespace ApiDocs

inductive Json where
  | null
  | bool (value : Bool)
  | int (value : Int)
  | real (literal : Text)
  | text (value : Text)
  | list (items : List Json)
  | object (members : List (Text × Json))

namespace Json

def kind : Json → Text
  | null => "NoneType"
  | bool _ => "bool"
  | int _ => "int"
  | real _ => "float"
  | text _ => "str"
  | list _ => "list"
  | object _ => "dict"

end Json
end ApiDocs
