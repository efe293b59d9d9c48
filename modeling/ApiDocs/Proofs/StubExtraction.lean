import ApiDocs.Proofs.StubSections

/-! Stubs of a module with one class. Its lines are laid out in parts: what comes before the class, the class and the
lines up to its first method, and the methods, each with a signature, perhaps a docstring, and other lines. The stubs
are what comes before the class and, method by method, the signature and the docstring: the phases of reading a module
change where its parts do. -/

set_option autoImplicit false

namespace ApiDocs.Stub

def IsOther (line : Text) : Prop := ¬("def " : Text) <+: line ∧ ¬("    def " : Text) <+: line

instance (line : Text) : Decidable (IsOther line) := inferInstanceAs (Decidable (_ ∧ _))

/-- A line that holds one of the marks at the end of a signature. -/
def EndsSignature (line : Text) : Prop :=
  ("):" : Text) <:+: line ∨ ("ivy.Array:" : Text) <:+: line ∨ ("ivy.Container:" : Text) <:+: line

def HasQuotes (line : Text) : Prop := ("'''" : Text) <:+: line ∨ ("\"\"\"" : Text) <:+: line

instance (line : Text) : Decidable (EndsSignature line) := inferInstanceAs (Decidable (_ ∨ _ ∨ _))

instance (line : Text) : Decidable (HasQuotes line) := inferInstanceAs (Decidable (_ ∨ _))

theorem endsSignature_iff {line : Text} : endsSignature line = true ↔ EndsSignature line := by
  simp only [endsSignature, Bool.or_eq_true, Text.mentions_iff, EndsSignature, or_assoc]

theorem hasTripleQuote_iff {line : Text} : hasTripleQuote line = true ↔ HasQuotes line := by
  simp only [hasTripleQuote, Bool.or_eq_true, Text.mentions_iff, HasQuotes]

theorem endsSignature_eq_false_iff {line : Text} : endsSignature line = false ↔ ¬EndsSignature line := by
  rw [← endsSignature_iff, Bool.not_eq_true]

theorem hasTripleQuote_eq_false_iff {line : Text} : hasTripleQuote line = false ↔ ¬HasQuotes line := by
  rw [← hasTripleQuote_iff, Bool.not_eq_true]

/-- The lines of a signature: the first begins a method, and none but the last ends a signature. -/
structure Signature where
  lead : List Text
  last : Text
  begins : ∀ line ∈ (lead ++ [last]).head?, ("    def " : Text) <+: line
  unended : ∀ line ∈ lead, ¬EndsSignature line
  ended : EndsSignature last

def Signature.lines (signature : Signature) : List Text := signature.lead ++ [signature.last]

/-- The lines of a docstring, two or more: the first and the last have a triple quote, and those between have none. -/
structure Docstring where
  first : Text
  between : List Text
  last : Text
  opened : HasQuotes first
  unquoted : ∀ line ∈ between, ¬HasQuotes line
  closed : HasQuotes last

def Docstring.lines (docstring : Docstring) : List Text := docstring.first :: (docstring.between ++ [docstring.last])

/-- A method of a class. After a signature without a docstring comes a line that does not look like one. -/
structure Method where
  signature : Signature
  docstring : Option Docstring
  rest : List Text
  others : ∀ line ∈ rest, IsOther line
  bare : docstring = none → ∃ line ∈ rest.head?, ¬HasQuotes line

namespace Method

def shown (method : Method) : List Text := method.signature.lines ++ (method.docstring.map Docstring.lines).getD []

def lines (method : Method) : List Text := method.shown ++ method.rest

/-- The stub of a method: what it shows, each line without its first four characters, and a body. -/
def stub (method : Method) : Text :=
  method.shown.flatMap (fun line => line.drop 4 ++ ("\n" : Text)) ++ ("    pass\n\n\n" : Text)

theorem stub_eq (method : Method) : method.stub = method.shown.flatMap outdent ++ body := rfl

end Method

structure Layout where
  setup : List Text
  heading : Text
  lead : List Text
  methods : List Method
  before : ∀ line ∈ setup, IsOther line ∧ ¬("class " : Text) <+: line
  opens : ("class " : Text) <+: heading
  others : ∀ line ∈ lead, IsOther line

namespace Layout

def lines (layout : Layout) : List Text :=
  layout.setup ++ layout.heading :: (layout.lead ++ layout.methods.flatMap Method.lines)

/-- The section of a module: its dotted name, what comes before its class, and the stubs of its methods. -/
def written (layout : Layout) (dotted : Text) : Text :=
  "#" ++ dotted ++ "\n" ++ layout.setup.flatMap (· ++ ("\n" : Text)) ++ layout.methods.flatMap Method.stub

end Layout

/-- From one state to another, lines add a text to the stubs. -/
inductive Scans : State → List Text → Text → State → Prop where
  | done (state : State) : Scans state [] [] state
  | step {state final : State} {line added : Text} {lines : List Text}
      (later : Scans (state.next line).2 lines added final) :
      Scans state (line :: lines) ((state.next line).1 ++ added) final

namespace Scans

variable {state between final : State} {lines more : List Text} {added further : Text}

theorem append (first : Scans state lines added between) (second : Scans between more further final) :
    Scans state (lines ++ more) (added ++ further) final := by
  induction first with
  | done => exact second
  | step later ih =>
    rw [List.cons_append, List.append_assoc]
    exact .step (ih second)

theorem flatten_stubsFrom (scans : Scans state lines added final) : (stubsFrom state lines).flatten = added := by
  induction scans with
  | done => rfl
  | step later ih => rw [stubsFrom, List.flatten_cons, ih]

theorem line {line : Text} (next : state.next line = (added, final)) : Scans state [line] added final := by
  have scan : Scans state [line] ((state.next line).1 ++ []) (state.next line).2 := .step (.done _)
  rwa [next, List.append_nil] at scan

end Scans

theorem isPrefixOf_eq_false {part line : Text} (differs : ¬part <+: line) : part.isPrefixOf line = false :=
  Bool.eq_false_iff.mpr fun starts => differs (List.isPrefixOf_iff_prefix.mp starts)

theorem next_other {line : Text} (other : IsOther line) : State.start.next line = ([], .start) := by
  simp only [State.next, State.start, isPrefixOf_eq_false other.1, isPrefixOf_eq_false other.2, Bool.false_and,
    Bool.false_eq_true, if_false]

theorem next_method {line : Text} (method : ("    def " : Text) <+: line) :
    State.start.next line = (outdent line, State.start.afterSignature line) := by
  simp only [State.next, State.start, List.isPrefixOf_iff_prefix.mpr method, Bool.not_false, Bool.and_true, if_true]

theorem scans_others {lines : List Text} (others : ∀ line ∈ lines, IsOther line) : Scans .start lines [] .start := by
  induction lines with
  | nil => exact .done _
  | cons line lines ih =>
    have first := Scans.line (next_other (others line List.mem_cons_self))
    exact first.append (ih fun other member => others other (List.mem_cons_of_mem _ member))

theorem scans_shown {state : State} {lines : List Text}
    (each : ∀ line ∈ lines, state.next line = (outdent line, state)) :
    Scans state lines (lines.flatMap outdent) state := by
  induction lines with
  | nil => exact .done _
  | cons line lines ih =>
    have first := Scans.line (each line List.mem_cons_self)
    exact first.append (ih fun other member => each other (List.mem_cons_of_mem _ member))

theorem next_unended {line : Text} (unended : endsSignature line = false) :
    State.next ⟨.signature, false⟩ line = (outdent line, ⟨.signature, false⟩) := by
  simp [State.next, State.afterSignature, unended]

theorem next_unquoted {line : Text} (unquoted : hasTripleQuote line = false) :
    State.next ⟨.docstring, false⟩ line = (outdent line, ⟨.docstring, false⟩) := by
  simp [State.next, unquoted]

theorem next_closed {line : Text} (closed : hasTripleQuote line = true) :
    State.next ⟨.docstring, false⟩ line = (outdent line ++ body, .start) := by
  simp [State.next, closed]

theorem scans_signature {lead : List Text} {last : Text} (unended : ∀ line ∈ lead, endsSignature line = false)
    (ended : endsSignature last = true) :
    Scans ⟨.signature, false⟩ (lead ++ [last]) ((lead ++ [last]).flatMap outdent) ⟨.signed, false⟩ := by
  have next : State.next ⟨.signature, false⟩ last = (outdent last, ⟨.signed, false⟩) := by
    simp [State.next, State.afterSignature, ended]
  have inside := scans_shown fun line member => next_unended (unended line member)
  simpa using inside.append (Scans.line next)

theorem Signature.scans (signature : Signature) :
    Scans .start signature.lines (signature.lines.flatMap outdent) ⟨.signed, false⟩ := by
  obtain ⟨lead, last, begins, unended, ended⟩ := signature
  rw [← endsSignature_iff] at ended
  simp only [← endsSignature_eq_false_iff] at unended
  cases lead with
  | nil =>
    have method : ("    def " : Text) <+: last := begins last rfl
    have next : State.start.next last = (outdent last, ⟨.signed, false⟩) := by
      rw [next_method method, State.afterSignature, ended]
      rfl
    simpa [Signature.lines] using Scans.line next
  | cons line lead =>
    have method : ("    def " : Text) <+: line := begins line rfl
    have next : State.start.next line = (outdent line, ⟨.signature, false⟩) := by
      rw [next_method method, State.afterSignature, unended line List.mem_cons_self]
      rfl
    have later : ∀ other ∈ lead, endsSignature other = false :=
      fun other member => unended other (List.mem_cons_of_mem _ member)
    exact (Scans.line next).append (scans_signature later ended)

theorem scans_docstring {between : List Text} {last : Text} (unquoted : ∀ line ∈ between, hasTripleQuote line = false)
    (closed : hasTripleQuote last = true) :
    Scans ⟨.docstring, false⟩ (between ++ [last]) ((between ++ [last]).flatMap outdent ++ body) .start := by
  have inside := scans_shown fun line member => next_unquoted (unquoted line member)
  simpa [List.append_assoc] using inside.append (Scans.line (next_closed closed))

theorem Docstring.scans (docstring : Docstring) :
    Scans ⟨.signed, false⟩ docstring.lines (docstring.lines.flatMap outdent ++ body) .start := by
  have next : State.next ⟨.signed, false⟩ docstring.first = (outdent docstring.first, ⟨.docstring, false⟩) := by
    simp [State.next, hasTripleQuote_iff.mpr docstring.opened]
  have unquoted : ∀ line ∈ docstring.between, hasTripleQuote line = false :=
    fun line member => hasTripleQuote_eq_false_iff.mpr (docstring.unquoted line member)
  have later := (Scans.line next).append (scans_docstring unquoted (hasTripleQuote_iff.mpr docstring.closed))
  simpa [Docstring.lines] using later

theorem scans_bare {line : Text} {rest : List Text} (unquoted : hasTripleQuote line = false)
    (others : ∀ other ∈ rest, IsOther other) : Scans ⟨.signed, false⟩ (line :: rest) body .start := by
  have next : State.next ⟨.signed, false⟩ line = (body, .start) := by
    simp [State.next, unquoted, State.start]
  have later := (Scans.line next).append (scans_others others)
  rwa [List.append_nil] at later

/-- A method is read from the state in which a method may begin to the same state, and adds its stub. -/
theorem Method.scans (method : Method) : Scans .start method.lines method.stub .start := by
  obtain ⟨signature, docstring, rest, others, bare⟩ := method
  rw [stub_eq]
  unfold lines shown
  cases docstring with
  | none =>
    obtain ⟨line, first, unquoted⟩ := bare rfl
    obtain ⟨rest, rfl⟩ : ∃ more, rest = line :: more := List.head?_eq_some_iff.mp first
    have later : ∀ other ∈ rest, IsOther other := fun other member => others other (List.mem_cons_of_mem _ member)
    simpa using signature.scans.append (scans_bare (hasTripleQuote_eq_false_iff.mpr unquoted) later)
  | some docstring =>
    simpa using signature.scans.append (docstring.scans.append (scans_others others))

theorem scans_methods (methods : List Method) :
    Scans .start (methods.flatMap Method.lines) (methods.flatMap Method.stub) .start := by
  induction methods with
  | nil => exact .done _
  | cons method methods ih => exact method.scans.append ih

namespace Layout

theorem other_heading (layout : Layout) : IsOther layout.heading := by
  have apart : ∀ other : Text, other ≠ [] → ¬other.head? = some (.char 'c') → ¬other <+: layout.heading := by
    rintro (_ | ⟨c, other⟩) proper differs starts
    · exact proper rfl
    · obtain ⟨rest, eq⟩ := layout.opens
      rw [← eq] at starts
      exact differs (congrArg some (List.cons_prefix_cons.mp starts).1)
  exact ⟨apart _ (by decide) (by decide), apart _ (by decide) (by decide)⟩

theorem scans (layout : Layout) : Scans .start layout.lines (layout.methods.flatMap Method.stub) .start := by
  have before := scans_others fun line member => (layout.before line member).1
  have heading : Scans .start [layout.heading] [] .start := .line (next_other layout.other_heading)
  exact before.append (heading.append ((scans_others layout.others).append (scans_methods layout.methods)))

theorem setup_lines (layout : Layout) : Stub.setup layout.lines = layout.setup := by
  have free : ∀ line ∈ layout.setup, (!("class " : Text).isPrefixOf line) = true := by
    intro line member
    rw [isPrefixOf_eq_false (layout.before line member).2, Bool.not_false]
  have opens : ("class " : Text).isPrefixOf layout.heading = true := List.isPrefixOf_iff_prefix.mpr layout.opens
  rw [Stub.setup, lines, List.takeWhile_append_of_pos free, List.takeWhile_cons, opens]
  exact List.append_nil _

theorem flatten_extract (layout : Layout) {text : Text} (lines : Text.split "\n" text = layout.lines) (dotted : Text) :
    (extract dotted text).flatten = layout.written dotted := by
  simp only [extract, lines, layout.setup_lines, List.flatten_append, List.flatten_cons, layout.scans.flatten_stubsFrom,
    written, List.flatMap_def, List.append_assoc]

end Layout

def stubFile (dotted : Text) : Text :=
  if Text.mentions ".array." dotted then "array_methods.py" else "container_methods.py"

theorem fileName?_stubFile {dotted : Text}
    (classed : (".array." : Text) <:+: dotted ∨ (".container." : Text) <:+: dotted) :
    fileName? dotted = some (stubFile dotted) := by
  by_cases array : Text.mentions ".array." dotted = true
  · rw [fileName?_of_array array, stubFile, if_pos array]
    rfl
  · have noArray : Text.mentions ".array." dotted = false := Bool.eq_false_iff.mpr array
    have container : (".container." : Text) <:+: dotted := classed.resolve_left (mt Text.mentions_iff.mpr array)
    rw [fileName?_of_container (Text.mentions_iff.mpr container) noArray, stubFile, if_neg array]
    rfl

/-- What is appended to the file of stubs beside a module is its dotted name, what comes before its class and, method by
method, the signature and the docstring with a body. A part that cannot be written ends the run. -/
theorem perform_layout {site : Site} {tree : Tree} {addition : Addition} {layout : Layout}
    (lines : Text.split "\n" addition.text = layout.lines)
    (classed : (".array." : Text) <:+: addition.dotted ∨ (".container." : Text) <:+: addition.dotted) {place : Place}
    {bytes : Bytes} (found : Script.writable (addition.beside (stubFile addition.dotted)) site tree =
      .ok (place, bytes)) :
    ((layout.written addition.dotted).Plain →
      addition.perform.runOn site tree =
        (.ok (), tree.put place (.file (bytes ++ Utf8.bytesOf (layout.written addition.dotted))))) ∧
      (¬(layout.written addition.dotted).Plain → (addition.perform.runOn site tree).1 ≠ .ok ()) := by
  have own : addition.perform = Script.appendPieces (addition.beside (stubFile addition.dotted)) addition.pieces := by
    rw [Addition.perform, append, fileName?_stubFile classed]
    rfl
  rw [own, ← layout.flatten_extract lines addition.dotted]
  constructor
  · intro plain
    rw [Script.runOn_appendPieces site tree found]
    exact Script.runOn_writeAfter_plain site tree plain bytes place
  · intro rough success
    exact rough (Script.runOn_appendPieces_ok site tree (Prod.ext success rfl)).1

def sampleLayout : Layout where
  setup := ["import ivy", ""]
  heading := "class A:"
  lead := ["    size = 3"]
  methods := [
    { signature := ⟨["    def sum(", "        self,"], "    ) -> ivy.Array:", by decide, by decide, by decide⟩
      docstring := some ⟨"        \"\"\"", ["        Sum."], "        \"\"\"", by decide, by decide, by decide⟩
      rest := ["        return ivy.sum(self)", ""]
      others := by decide
      bare := fun absent => nomatch absent },
    { signature := ⟨[], "    def size(self):", by decide, by decide, by decide⟩
      docstring := none
      rest := ["        return 3"]
      others := by decide
      bare := fun _ => ⟨"        return 3", rfl, by decide⟩ }]
  before := by decide
  opens := by decide
  others := by decide

def sampleAddition : Addition where
  text := "import ivy\n\nclass A:\n    size = 3\n    def sum(\n        self,\n    ) -> ivy.Array:\n        \"\"\"\n" ++
    "        Sum.\n        \"\"\"\n        return ivy.sum(self)\n\n    def size(self):\n        return 3"
  path := "../ivy/array/a.py"
  dotted := "ivy.array.a"

def layoutStubs : Text :=
  "#ivy.array.a\nimport ivy\n\ndef sum(\n    self,\n) -> ivy.Array:\n    \"\"\"\n    Sum.\n    \"\"\"\n" ++
    "    pass\n\n\ndef size(self):\n    pass\n\n\n"

theorem perform_layout_sample :
    sampleAddition.perform.runOn sampleSite sampleTree =
      (.ok (), sampleTree.put ["ivy", "array", "array_methods.py"] (.file (Utf8.bytesOf layoutStubs))) := by
  have written : sampleLayout.written sampleAddition.dotted = layoutStubs := by decide +kernel
  have plain : (sampleLayout.written sampleAddition.dotted).Plain := by
    rw [written, layoutStubs]
    exact Text.plain_append.mpr ⟨Text.plain_ofChars _, Text.plain_ofChars _⟩
  have lines : Text.split "\n" sampleAddition.text = sampleLayout.lines := by decide +kernel
  have classed : (".array." : Text) <:+: sampleAddition.dotted := Text.mentions_iff.mp (by decide)
  have found : Script.writable (sampleAddition.beside (stubFile sampleAddition.dotted)) sampleSite sampleTree =
      .ok (["ivy", "array", "array_methods.py"], []) := rfl
  rw [(perform_layout lines (.inl classed) found).1 plain, written]
  rfl

end ApiDocs.Stub
