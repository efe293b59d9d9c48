import ApiDocs.Build
import ApiDocs.Text.Decimal

/-! The command line of a run: the options, how arguments are matched to them, and what is said when
they do not fit. Options may be shortened; a value stands behind an equals sign or is the next
argument. -/

set_option autoImplicit false

namespace ApiDocs.CommandLine

inductive Switch where
  | help
  | library
  | title
  deriving DecidableEq, Repr

def spellings : List (Text × Switch) :=
  [("-h", .help), ("--help", .help), ("--root_dir", .library), ("--submodules_title", .title)]

def Switch.label : Switch → Text
  | .help => "-h/--help"
  | .library => "--root_dir"
  | .title => "--submodules_title"

inductive Complaint where
  | ambiguous (argument : Text) (candidates : List Text)
  | needsValue (option : Switch)
  | takesNoValue (option : Switch) (value : Text)
  | libraryMissing
  | unrecognized (arguments : List Text)
  deriving DecidableEq, Repr

def Complaint.message : Complaint → Text
  | .ambiguous argument candidates =>
    "ambiguous option: " ++ argument ++ " could match " ++ Text.join ", " candidates
  | .needsValue option => "argument " ++ option.label ++ ": expected one argument"
  | .takesNoValue option value =>
    "argument " ++ option.label ++ ": ignored explicit argument " ++ Text.quoted value
  | .libraryMissing => "the following arguments are required: --root_dir"
  | .unrecognized arguments => "unrecognized arguments: " ++ Text.join " " arguments

inductive Argument where
  /-- A value, or an argument that no option asks for. -/
  | plain (text : Text)
  /-- The mark after which no option comes. -/
  | ending
  /-- Something that looks like an option and is none. -/
  | unknown (text : Text)
  /-- An option, with the value that is joined to it. -/
  | option (option : Switch) (value : Option Text)
  /-- The help option in one letter, with a text that is joined to it. -/
  | letters (text : Text)
  deriving DecidableEq, Repr

def partition (argument : Text) : Text × Option Text :=
  match argument.dropWhile (· != .char '=') with
  | _ :: value => (Text.beforeFirst '=' argument, some value)
  | [] => (argument, none)

def looksUnknown (argument : Text) : Argument :=
  if Text.isNegativeNumber argument || argument.contains ' ' then .plain argument
  else .unknown argument

def classifyLong (argument : Text) : Except Complaint Argument :=
  let (name, value) := partition argument
  match spellings.filter fun (spelling, _) => name.isPrefixOf spelling with
  | [] => .ok (looksUnknown argument)
  | [(_, option)] => .ok (.option option value)
  | several => .error (.ambiguous argument (several.map (·.1)))

def classifyShort (argument : Text) : Argument :=
  match argument with
  | '-' :: 'h' :: letters => .letters letters
  | _ => looksUnknown argument

def classify (argument : Text) : Except Complaint Argument :=
  match argument with
  | '-' :: rest =>
    match spellings.lookup argument with
    | some option => .ok (.option option none)
    | none =>
      if rest.isEmpty then .ok (.plain argument)
      else match partition argument with
        | (name, some value) =>
          match spellings.lookup name with
          | some option =>
            .ok (if name = "-h" && !value.isEmpty then .letters value else .option option (some value))
          | none => split rest
        | _ => split rest
  | _ => .ok (.plain argument)
where
  split (rest : Text) : Except Complaint Argument :=
    if rest.head? = some (.char '-') then classifyLong argument else .ok (classifyShort argument)

/-- All arguments up to the ending mark are classified, those after it are plain. -/
def classifyAll : List Text → Except Complaint (List (Text × Argument))
  | [] => .ok []
  | argument :: rest =>
    if argument = "--" then .ok ((argument, .ending) :: rest.map fun text => (text, .plain text))
    else do return (argument, ← classify argument) :: (← classifyAll rest)

/-- What an option is given. The ending mark is dropped where it stands for a value, which leaves
nothing. -/
inductive Value where
  | text (value : Text)
  | nothing
  deriving DecidableEq, Repr

def Value.ofJoined (text : Text) : Value := if text = "--" then .nothing else .text text

structure Parsed where
  library : Option Value := none
  title : Option Value := none
  extras : List Text := []
  deriving DecidableEq, Repr

def Parsed.set (parsed : Parsed) (option : Switch) (value : Value) : Parsed :=
  match option with
  | .library => { parsed with library := some value }
  | .title => { parsed with title := some value }
  | .help => parsed

def Value.heading : Option Value → Heading
  | none => .byDirectory
  | some (.text title) => .common title
  | some .nothing => .untitled

inductive Outcome where
  | run (library : Value) (heading : Heading)
  | help
  | refused (complaint : Complaint)
  deriving DecidableEq, Repr

def helpLetters : Text → Outcome
  | [] => .help
  | c :: rest => if c = 'h' then helpLetters rest else .refused (.takesNoValue .help (c :: rest))

/-- Takes the arguments one after the other. Help ends the run as soon as it is met. -/
def take (parsed : Parsed) : List (Text × Argument) → Outcome
  | [] =>
    match parsed.library with
    | none => .refused .libraryMissing
    | some library =>
      if parsed.extras.isEmpty then .run library (Value.heading parsed.title)
      else .refused (.unrecognized parsed.extras)
  | (_, .option .help none) :: _ => .help
  | (_, .option .help (some value)) :: _ => .refused (.takesNoValue .help value)
  | (_, .letters letters) :: _ => helpLetters letters
  | (_, .option option (some value)) :: rest => take (parsed.set option (.ofJoined value)) rest
  | (_, .option option none) :: (_, .plain value) :: rest => take (parsed.set option (.text value)) rest
  | (_, .option option none) :: _ => .refused (.needsValue option)
  | (text, _) :: rest => take { parsed with extras := parsed.extras ++ [text] } rest

def parse (arguments : List Text) : Outcome :=
  match classifyAll arguments with
  | .ok classified => take {} classified
  | .error complaint => .refused complaint

def usageParts : List Text :=
  ["[-h]", "--root_dir", "ROOT_DIR", "[--submodules_title SUBMODULES_TITLE]"]

def width : Nat := 78

/-- Lines of pieces with single spaces between them. `line` holds the pieces of the line that is being
filled, and `length` says how far it reaches; further lines are indented. -/
def fill (indent : Nat) (line : List Text) (length : Nat) : List Text → List Text
  | [] => if line.isEmpty then [] else [Text.join " " line]
  | part :: parts =>
    if length + 1 + part.length > width && !line.isEmpty then
      Text.join " " line ::
        fill indent [List.replicate indent (.char ' ') ++ part] (indent + part.length) parts
    else fill indent (line ++ [part]) (length + part.length + 1) parts

def squeeze : Text → Text
  | [] => []
  | c :: rest =>
    if c = '\n' && ("\n\n" : Text).isPrefixOf rest then squeeze rest else c :: squeeze rest

/-- The usage of a program: in one line if it fits, else broken; a long name has a line of its own. -/
def usage (program : Text) : Text :=
  let lead : Text := "usage: "
  let line := Text.join " " ((if program.isEmpty then [] else [program]) ++ usageParts)
  squeeze <| lead ++
    (if lead.length + line.length ≤ width then line
    else if 4 * (lead.length + program.length) ≤ 3 * width then
      Text.join "\n" (fill (lead.length + program.length + 1) [] (lead.length - 1) (program :: usageParts))
    else
      program ++ "\n" ++ Text.join "\n"
        ((fill lead.length [] (lead.length - 1) usageParts).mapIdx fun i text =>
          if i = 0 then List.replicate lead.length (.char ' ') ++ text else text)) ++
    "\n"

def optionsHelp : Text :=
  "options:\n" ++
  "  -h, --help            show this help message and exit\n" ++
  "  --root_dir ROOT_DIR   Root directory of the repository relaitve to current\n" ++
  "                        directory.\n" ++
  "  --submodules_title SUBMODULES_TITLE\n" ++
  "                        The title for the combination of submodules.Only valid\n" ++
  "                        when there are no submodule directories.\n"

def helpText (program : Text) : Text := usage program ++ "\n" ++ optionsHelp

structure Exit where
  code : Nat
  output : Text
  errors : Text
  deriving DecidableEq, Repr

def runProgram (program : Text) (arguments : List Text) (frameworks : Text) : Script Exit := do
  match parse arguments with
  | .help => return ⟨0, helpText program, []⟩
  | .refused complaint =>
    return ⟨2, [], usage program ++ program ++ ": error: " ++ complaint.message ++ "\n"⟩
  | .run library heading =>
    let build := match library with
      | .text library => Build.perform library heading
      | .nothing => Build.performNothing
    let (outcome, session) := build.runOn (← read) ⟨{ frameworks }, ← get⟩
    set session.tree
    let _ ← Script.ofExcept id outcome
    return ⟨0, "RST files created\n", []⟩

def readFrameworks : Script Text := Script.readText "partial_source/supported_frameworks.rst"

def run (words : List Text) : Script Exit := do
  let frameworks ← readFrameworks
  match words with
  | program :: arguments => runProgram (Path.base program) arguments frameworks
  | [] => throw .programUnnamed

end ApiDocs.CommandLine
