import ApiDocs.Text.Split

/-! Which devices and backends a function runs on. A library answers under the backend that is set last;
for every device and backend it is asked which devices it does not run the function on. -/

set_option autoImplicit false

namespace ApiDocs.Support

/-- The answer to the question for unsupported devices: whether it holds a device, or nothing if that
cannot be told because the question or the look-up fails. -/
structure Devices where
  holds? : Text → Option Bool

def Devices.ofList (devices : List Text) : Devices := ⟨fun device => some (devices.contains device)⟩

def Devices.ofText (text : Text) : Devices := ⟨fun device => some (Text.mentions device text)⟩

/-- The answer of a question that fails, or one in which nothing can be looked up. -/
def Devices.failure : Devices := ⟨fun _ => none⟩

/-- What a library answers for a function under the backends that are set, the last one first, and the
backends that cannot be set. -/
structure Library where
  answer? : List Text → Text → Option Devices
  broken : List Text

inductive Event where
  | set (backend : Text)
  | unset
  | query (function : Text)
  deriving DecidableEq, Repr

structure State where
  stack : List Text
  events : List Event
  deriving DecidableEq, Repr

inductive Fault where
  | broken (backend : Text)
  deriving DecidableEq, Repr

def Fault.message : Fault → Text
  | .broken backend => "backend " ++ backend ++ " is broken"

abbrev Session (α : Type) := ExceptT Fault (StateM State) α

def devices : List Text := ["cpu", "gpu"]

def backends : List Text := ["jax", "numpy", "tensorflow", "torch"]

def log (event : Event) : Session Unit :=
  modify fun state => { state with events := state.events ++ [event] }

def setBackend (library : Library) (backend : Text) : Session Unit := do
  log (.set backend)
  if library.broken.contains backend then throw (.broken backend)
  modify fun state => { state with stack := backend :: state.stack }

def unsetBackend : Session Unit := do
  log .unset
  modify fun state => { state with stack := state.stack.tail }

def Devices.supports (answer : Devices) (device : Text) : Bool := answer.holds? device == some false

/-- The function that a name stands for: with `static` in it, the name without its first word. -/
def baseName (name : Text) : Text :=
  if Text.mentions "static" name then Text.join "_" (Text.split "_" name).tail else name

def flag (library : Library) (name device backend : Text) : Session Bool := do
  setBackend library backend
  let supported ← match library.answer? (← get).stack name with
    | some answer => do
      log (.query name)
      pure (answer.supports device)
    | none => pure false
  unsetBackend
  return supported

def flags? (library : Library) (name : Text) : Session (Option (List Bool)) := do
  let base := baseName name
  if (library.answer? (← get).stack base).isNone then return none
  return some (← (devices.flatMap fun device => backends.map fun backend => (device, backend)).mapM
    fun (device, backend) => flag library base device backend)

def mark (supported : Bool) : Text := if supported then "✅" else "❌"

end ApiDocs.Support
