import ApiDocs.Text.Split

/-! Starting the builder of the documentation: the name of the program loses the ending that a wrapper
gave it. -/

set_option autoImplicit false

namespace ApiDocs.Launcher

def endings : List Text := ["-script.pyw", ".exe"]

def dropEnding (name : Text) : Text :=
  match endings.find? (·.isSuffixOf name) with
  | some ending => name.take (name.length - ending.length)
  | none => name

/-- The name of a program without the ending of a wrapper; a newline at the very end does not count. -/
def programName (name : Text) : Text :=
  if name.getLast? = some '\n' then dropEnding name.dropLast ++ "\n" else dropEnding name

inductive Fault where
  | noProgramName
  deriving DecidableEq, Repr

def Fault.message : Fault → Text
  | .noProgramName => "list index out of range"

def arguments : List Text → Except Fault (List Text)
  | [] => .error .noProgramName
  | name :: rest => .ok (programName name :: rest)

end ApiDocs.Launcher
