import ApiDocs.Proofs.StubExtraction

/-! What is read of a module that may hold anything. A function outside a class counts if it comes by while a method is
looked for, and then it hides all that comes after it, the methods of later classes too; in a signature or a docstring,
or right after a signature, it does not count. A line with a triple quote after a signature opens a docstring that
reaches to the next line with one, also if it is closed where it is opened. -/

set_option autoImplicit false

namespace ApiDocs.Stub

def State.after (state : State) (lines : List Text) : State := lines.foldl (fun state line => (state.next line).2) state

@[simp] theorem State.after_nil (state : State) : state.after [] = state := rfl

theorem State.after_append (state : State) (first second : List Text) :
    state.after (first ++ second) = (state.after first).after second := List.foldl_append

theorem scans_after (state : State) (lines : List Text) :
    Scans state lines (stubsFrom state lines).flatten (state.after lines) := by
  induction lines generalizing state with
  | nil => exact .done state
  | cons line lines ih => exact .step (ih (state.next line).2)

theorem flatten_stubsFrom_append (state : State) (first second : List Text) :
    (stubsFrom state (first ++ second)).flatten =
      (stubsFrom state first).flatten ++ (stubsFrom (state.after first) second).flatten :=
  ((scans_after state first).append (scans_after _ second)).flatten_stubsFrom

/-- A function that has come by counts only while a method is looked for. -/
def State.Settled (state : State) : Prop := state.phase ≠ .seeking → state.nested = false

/-- One line: from then on a function has come by if one had before, or if the line begins one and a method is looked
for. -/
theorem State.Settled.next {state : State} (settled : state.Settled) (line : Text) :
    (state.next line).2.Settled ∧
      ((state.next line).2.nested = true ↔ state.nested = true ∨ state.phase = .seeking ∧
        ("def " : Text) <+: line) := by
  obtain ⟨phase, nested⟩ := state
  cases phase with
  | seeking =>
    -- the two beginnings exclude each other, so the order in which they are asked for does not matter
    have apart : ("    def " : Text).isPrefixOf line = true → ("def " : Text).isPrefixOf line = false := by
      intro method
      refine isPrefixOf_eq_false fun function => ?_
      obtain ⟨rest, rfl⟩ := List.isPrefixOf_iff_prefix.mp method
      exact absurd (List.cons_prefix_cons.mp function).1 (by decide)
    rw [← List.isPrefixOf_iff_prefix]
    simp only [State.next, State.afterSignature]
    generalize ("    def " : Text).isPrefixOf line = method at apart
    generalize ("def " : Text).isPrefixOf line = function at apart
    cases method <;> cases function <;> cases nested <;> simp_all [Settled]
  | signature =>
    obtain rfl : nested = false := settled (by simp)
    simp [State.next, State.afterSignature, Settled]
  | signed =>
    obtain rfl : nested = false := settled (by simp)
    by_cases quoted : hasTripleQuote line = true <;> simp [State.next, Settled, quoted]
  | docstring =>
    obtain rfl : nested = false := settled (by simp)
    by_cases quoted : hasTripleQuote line = true <;> simp [State.next, Settled, State.start, quoted]

theorem settled_after (lines : List Text) : (State.start.after lines).Settled := by
  induction lines using List.reverseRecOn with
  | nil => exact fun _ => rfl
  | append_singleton lines line ih =>
    rw [State.after_append]
    exact (ih.next line).1

/-- A function outside a class comes by in some lines while a method is looked for. -/
def Noticed (lines : List Text) : Prop :=
  ∃ before line later, lines = before ++ line :: later ∧ ("def " : Text) <+: line ∧
    (State.start.after before).phase = .seeking

theorem noticed_snoc {lines : List Text} {line : Text} :
    Noticed (lines ++ [line]) ↔
      Noticed lines ∨ (State.start.after lines).phase = .seeking ∧ ("def " : Text) <+: line := by
  constructor
  · rintro ⟨before, other, later, eq, function, seeking⟩
    rcases List.eq_nil_or_concat later with rfl | ⟨inner, last, rfl⟩
    · obtain ⟨rfl, same⟩ := List.append_inj' eq rfl
      obtain rfl := List.singleton_inj.mp same
      exact .inr ⟨seeking, function⟩
    · rw [List.concat_eq_append, ← List.cons_append, ← List.append_assoc] at eq
      obtain ⟨rfl, -⟩ := List.append_inj' eq rfl
      exact .inl ⟨before, other, inner, rfl, function, seeking⟩
  · rintro (⟨before, other, later, rfl, function, seeking⟩ | ⟨seeking, function⟩)
    · exact ⟨before, other, later ++ [line], by simp, function, seeking⟩
    · exact ⟨lines, line, [], rfl, function, seeking⟩

/-- The mark of a function that has come by is never taken away. -/
theorem nested_after_iff (lines : List Text) : (State.start.after lines).nested = true ↔ Noticed lines := by
  -- from the right end: whether the last line counts depends on the state after all the others
  induction lines using List.reverseRecOn with
  | nil => simp [Noticed, State.start]
  | append_singleton lines line ih =>
    rw [State.after_append, noticed_snoc, ← ih]
    exact ((settled_after lines).next line).2

theorem scans_hidden (lines : List Text) : Scans ⟨.seeking, true⟩ lines [] ⟨.seeking, true⟩ := by
  induction lines with
  | nil => exact .done _
  | cons line lines ih =>
    have next : State.next ⟨.seeking, true⟩ line = ([], ⟨.seeking, true⟩) := by
      simp [State.next]
    exact (Scans.line next).append ih

theorem scans_unclosed {first : Text} {rest : List Text} (opened : hasTripleQuote first = true)
    (unquoted : ∀ line ∈ rest, hasTripleQuote line = false) :
    Scans ⟨.signed, false⟩ (first :: rest) ((first :: rest).flatMap outdent) ⟨.docstring, false⟩ := by
  have next : State.next ⟨.signed, false⟩ first = (outdent first, ⟨.docstring, false⟩) := by
    simp [State.next, opened]
  exact (Scans.line next).append (scans_shown fun line member => next_unquoted (unquoted line member))

section
variable {front : List Text} (seeking : (State.start.after front).phase = .seeking)
include seeking

/-- A function that counts adds nothing, and neither does anything after it. -/
theorem stubsFrom_function {line : Text} (function : ("def " : Text) <+: line) (rest : List Text) :
    (stubsFrom .start (front ++ line :: rest)).flatten = (stubsFrom .start front).flatten := by
  have method : ("    def " : Text).isPrefixOf line = false := by
    refine isPrefixOf_eq_false fun starts => ?_
    obtain ⟨tail, rfl⟩ := function
    exact absurd (List.cons_prefix_cons.mp starts).1 (by decide)
  have next : (State.start.after front).next line = ([], ⟨.seeking, true⟩) := by
    simp only [State.next, seeking, method, List.isPrefixOf_iff_prefix.mpr function, Bool.false_and, Bool.false_eq_true,
      if_false, if_true]
  have hidden : (stubsFrom (State.start.after front) (line :: rest)).flatten = [] :=
    ((Scans.line next).append (scans_hidden rest)).flatten_stubsFrom
  rw [flatten_stubsFrom_append, hidden, List.append_nil]

theorem after_unnoticed (unnoticed : ¬Noticed front) : State.start.after front = .start := by
  have free : (State.start.after front).nested = false :=
    Bool.eq_false_iff.mpr fun nested => unnoticed ((nested_after_iff front).mp nested)
  generalize State.start.after front = state at seeking free
  obtain ⟨phase, nested⟩ := state
  obtain rfl : phase = .seeking := seeking
  obtain rfl : nested = false := free
  rfl

theorem stubsFrom_unnoticed (unnoticed : ¬Noticed front) {lines : List Text} {added : Text} {final : State}
    (scans : Scans .start lines added final) (rest : List Text) :
    (stubsFrom .start (front ++ lines ++ rest)).flatten =
      (stubsFrom .start front).flatten ++ added ++ (stubsFrom final rest).flatten := by
  rw [List.append_assoc, flatten_stubsFrom_append, after_unnoticed seeking unnoticed, List.append_assoc,
    (scans.append (scans_after final rest)).flatten_stubsFrom]

end

def Addition.heading (addition : Addition) : Text :=
  "#" ++ addition.dotted ++ "\n" ++ (setup (Text.split "\n" addition.text)).flatMap (· ++ ("\n" : Text))

theorem Addition.written_heading (addition : Addition) :
    addition.written = addition.heading ++ (stubsFrom .start (Text.split "\n" addition.text)).flatten := by
  simp only [Addition.written, pieces, extract, heading, List.flatten_append, List.flatten_cons, List.flatMap_def,
    List.append_assoc]

/-- How the section of a module is written: at the end of the file of stubs beside it, or not at all. -/
structure Addition.Written (site : Site) (tree : Tree) (addition : Addition) (place : Place) (bytes : Bytes)
    (text : Text) :
    Prop where
  ends : text.Plain → addition.perform.runOn site tree = (.ok (), tree.put place (.file (bytes ++ Utf8.bytesOf text)))
  fails : ¬text.Plain → (addition.perform.runOn site tree).1 ≠ .ok ()

theorem Addition.written_of_found {site : Site} {tree : Tree} {addition : Addition} {place : Place} {bytes : Bytes}
    (classed : (".array." : Text) <:+: addition.dotted ∨ (".container." : Text) <:+: addition.dotted)
    (found : Script.writable (addition.beside (stubFile addition.dotted)) site tree = .ok (place, bytes)) :
    addition.Written site tree place bytes addition.written := by
  have own : addition.perform = Script.appendPieces (addition.beside (stubFile addition.dotted)) addition.pieces := by
    rw [Addition.perform, append, fileName?_stubFile classed]
    rfl
  constructor
  · intro plain
    rw [own, Script.runOn_appendPieces site tree found]
    exact Script.runOn_writeAfter_plain site tree plain bytes place
  · intro rough success
    rw [own] at success
    exact rough (Script.runOn_appendPieces_ok site tree (Prod.ext success rfl)).1

def sampleModule (text : Text) : Addition := ⟨text, "../ivy/array/a.py", "ivy.array.a"⟩

def sampleText (front : List Text) (line : Text) (rest : List Text) : Text := Text.join "\n" (front ++ line :: rest)

def sampleRun (text : Text) : Except Fault Unit × Tree := (sampleModule text).perform.runOn sampleSite sampleTree

def sampleStubs (text : Text) : Tree := sampleTree.put ["ivy", "array", "array_methods.py"] (.file (Utf8.bytesOf text))

theorem begins_of_single {line : Text} (begins : ("    def " : Text) <+: line) :
    ∀ other ∈ ([] ++ [line]).head?, ("    def " : Text) <+: other := by
  rintro other ⟨⟩
  exact begins

theorem unended_nil : ∀ line ∈ ([] : List Text), ¬EndsSignature line :=
  fun _ member => absurd member List.not_mem_nil

def sampleSignature (line : Text) (begins : ("    def " : Text) <+: line) (ended : EndsSignature line) :
    Signature :=
  ⟨[], line, begins_of_single begins, unended_nil, ended⟩

theorem found_sample (text : Text) :
    Script.writable ((sampleModule text).beside (stubFile (sampleModule text).dotted)) sampleSite sampleTree =
      .ok (["ivy", "array", "array_methods.py"], []) := by
  have beside : (sampleModule text).beside (stubFile (sampleModule text).dotted) = "../ivy/array/array_methods.py" :=
    (by decide +kernel : Path.join (Text.upTo "../ivy/array/a.py" (Text.lastIndex "/" "../ivy/array/a.py"))
      (stubFile "ivy.array.a") = "../ivy/array/array_methods.py")
  have found : Script.writable "../ivy/array/array_methods.py" sampleSite sampleTree =
      .ok (["ivy", "array", "array_methods.py"], []) := by decide +kernel
  rw [beside, found]

theorem classed_sample (text : Text) : (".array." : Text) <:+: (sampleModule text).dotted :=
  Text.mentions_iff.mp (by decide : Text.mentions ".array." "ivy.array.a" = true)

theorem Addition.Written.sample {text written : Text}
    (wrote : (sampleModule text).Written sampleSite sampleTree ["ivy", "array", "array_methods.py"] [] written)
    {stubs : Text} (plain : ∀ c ∈ stubs, c.isSurrogate = false) (same : written = stubs) :
    sampleRun text = (.ok (), sampleStubs stubs) := by
  subst same
  exact wrote.ends plain

section
variable {site : Site} {tree : Tree} {addition : Addition} {front : List Text} {signature : Signature} {place : Place}
  {bytes : Bytes}

/-- Which methods are shown. A method that comes by while one is looked for is shown exactly if no function outside a
class has come by in the same way before it. If one has, the section ends with what is added before that function, so
the methods of all later classes are missing; a function that comes by otherwise hides nothing, not even the functions
inside it. -/
theorem perform_function {rest : List Text} (lines : Text.split "\n" addition.text = front ++ signature.lines ++ rest)
    (seeking : (State.start.after front).phase = .seeking)
    (classed : (".array." : Text) <:+: addition.dotted ∨ (".container." : Text) <:+: addition.dotted)
    (found : Script.writable (addition.beside (stubFile addition.dotted)) site tree = .ok (place, bytes)) :
    (∀ before line later, front = before ++ line :: later → ("def " : Text) <+: line →
      (State.start.after before).phase = .seeking →
      addition.Written site tree place bytes (addition.heading ++ (stubsFrom .start before).flatten)) ∧
    (¬Noticed front →
      addition.Written site tree place bytes (addition.heading ++ ((stubsFrom .start front).flatten ++
        signature.lines.flatMap outdent ++ (stubsFrom ⟨.signed, false⟩ rest).flatten))) := by
  have written := Addition.written_of_found classed found
  rw [Addition.written_heading, lines] at written
  constructor
  · rintro before line later rfl function sought
    rwa [List.append_assoc, List.append_assoc, List.cons_append, stubsFrom_function sought function] at written
  · intro unnoticed
    rwa [stubsFrom_unnoticed seeking unnoticed signature.scans] at written

def functionFirst : List Text := ["def g(x):", "    def h():", "        pass", "", "class A:"]

def functionAfter : List Text := ["class A:", "    def f(self): return 1", "def g(x):"]

theorem perform_function_sample :
    sampleRun (sampleText functionFirst "    def f(self):" ["        return 1"]) =
        (.ok (), sampleStubs "#ivy.array.a\ndef g(x):\n    def h():\n        pass\n\n") ∧
      sampleRun (sampleText functionAfter "    def h():" ["        pass"]) =
        (.ok (), sampleStubs "#ivy.array.a\ndef f(self): return 1\n    pass\n\n\ndef h():\n    pass\n\n\n") := by
  constructor
  · have lines : Text.split "\n" (sampleModule
      (sampleText functionFirst "    def f(self):" ["        return 1"])).text =
        functionFirst ++ (sampleSignature "    def f(self):" (by decide) (by decide)).lines ++
          [("        return 1" : Text)] := by
      decide +kernel
    have wrote := (perform_function lines (by decide) (.inl (classed_sample _)) (found_sample _)).1
      [] "def g(x):" functionFirst.tail rfl (by decide) rfl
    exact wrote.sample (by decide +kernel) (by decide +kernel)
  · have lines : Text.split "\n" (sampleModule (sampleText functionAfter "    def h():" ["        pass"])).text =
        functionAfter ++ (sampleSignature "    def h():" (by decide) (by decide)).lines ++
          [("        pass" : Text)] := by
      decide +kernel
    have unnoticed : ¬Noticed functionAfter := fun noticed => absurd ((nested_after_iff _).mpr noticed) (by decide)
    have wrote := (perform_function lines (by decide) (.inl (classed_sample _)) (found_sample _)).2 unnoticed
    exact wrote.sample (by decide +kernel) (by decide +kernel)

/-- How far a docstring reaches. The line after a signature has a triple quote; then the stub shows all lines up to the
next one with a triple quote, and the body comes after that line. So it is also if the docstring is closed on its first
line: what follows in the method, and the methods up to a line with a triple quote, are shown as a part of it. If no
such line comes, the stub reaches to the end of the module and has no body. -/
theorem perform_docstring {first : Text} {rest : List Text}
    (lines : Text.split "\n" addition.text = front ++ signature.lines ++ first :: rest)
    (seeking : (State.start.after front).phase = .seeking) (unnoticed : ¬Noticed front)
    (opened : hasTripleQuote first = true)
    (classed : (".array." : Text) <:+: addition.dotted ∨ (".container." : Text) <:+: addition.dotted)
    (found : Script.writable (addition.beside (stubFile addition.dotted)) site tree = .ok (place, bytes)) :
    (∀ between last later, rest = between ++ last :: later → (∀ line ∈ between, hasTripleQuote line = false) →
      hasTripleQuote last = true →
      addition.Written site tree place bytes (addition.heading ++ ((stubsFrom .start front).flatten ++
        ((signature.lines ++ first :: (between ++ [last])).flatMap outdent ++ body) ++
          (stubsFrom .start later).flatten))) ∧
    ((∀ line ∈ rest, hasTripleQuote line = false) →
      addition.Written site tree place bytes (addition.heading ++ ((stubsFrom .start front).flatten ++
        (signature.lines ++ first :: rest).flatMap outdent))) := by
  have written := Addition.written_of_found classed found
  rw [Addition.written_heading, lines] at written
  constructor
  · rintro between last later rfl unquoted closed
    have scans : Scans .start (signature.lines ++ first :: (between ++ [last]))
        ((signature.lines ++ first :: (between ++ [last])).flatMap outdent ++ body) .start := by
      rw [List.flatMap_append, List.append_assoc]
      let docstring : Docstring := ⟨first, between, last, hasTripleQuote_iff.mp opened,
        fun line member => hasTripleQuote_eq_false_iff.mp (unquoted line member), hasTripleQuote_iff.mp closed⟩
      exact signature.scans.append docstring.scans
    -- the stub ends at the closing line, and what comes after it is read as at the start
    have cut : front ++ signature.lines ++ first :: (between ++ last :: later) =
        front ++ (signature.lines ++ first :: (between ++ [last])) ++ later := by simp
    rwa [cut, stubsFrom_unnoticed seeking unnoticed scans] at written
  · intro unquoted
    have scans := signature.scans.append (scans_unclosed opened unquoted)
    have cut : front ++ signature.lines ++ first :: rest = front ++ (signature.lines ++ first :: rest) ++ [] := by simp
    rw [cut, stubsFrom_unnoticed seeking unnoticed scans] at written
    rw [List.flatMap_append]
    simpa [stubsFrom] using written

def docstringLine : Text := "        \"\"\"One.\"\"\""

theorem perform_docstring_sample :
    sampleRun (sampleText ["class A:"] "    def f(self):"
        [docstringLine, "        return 1", "    def g(self):", docstringLine, "        return 2"]) =
        (.ok (), sampleStubs
          "#ivy.array.a\ndef f(self):\n    \"\"\"One.\"\"\"\n    return 1\ndef g(self):\n    \"\"\"One.\"\"\"\n    pass\n\n\n") ∧
      sampleRun (sampleText ["class A:"] "    def f(self):" [docstringLine, "        return 1", "    def g(self):"]) =
        (.ok (), sampleStubs "#ivy.array.a\ndef f(self):\n    \"\"\"One.\"\"\"\n    return 1\ndef g(self):\n") := by
  have unnoticed : ¬Noticed ["class A:"] := fun noticed => absurd ((nested_after_iff _).mpr noticed) (by decide)
  constructor
  · have lines : Text.split "\n" (sampleModule (sampleText ["class A:"] "    def f(self):"
        [docstringLine, "        return 1", "    def g(self):", docstringLine, "        return 2"])).text =
        [("class A:" : Text)] ++ (sampleSignature "    def f(self):" (by decide) (by decide)).lines ++
          docstringLine :: ["        return 1", "    def g(self):", docstringLine, "        return 2"] := by
      decide +kernel
    have wrote := (perform_docstring lines (by decide) unnoticed (by decide) (.inl (classed_sample _))
      (found_sample _)).1
      ["        return 1", "    def g(self):"] docstringLine ["        return 2"] rfl (by decide) (by decide)
    exact wrote.sample (by decide +kernel) (by decide +kernel)
  · have lines : Text.split "\n" (sampleModule (sampleText ["class A:"] "    def f(self):"
        [docstringLine, "        return 1", "    def g(self):"])).text =
        [("class A:" : Text)] ++ (sampleSignature "    def f(self):" (by decide) (by decide)).lines ++
          docstringLine :: ["        return 1", "    def g(self):"] := by
      decide +kernel
    have wrote := (perform_docstring lines (by decide) unnoticed (by decide) (.inl (classed_sample _))
      (found_sample _)).2 (by decide)
    exact wrote.sample (by decide +kernel) (by decide +kernel)

end

end ApiDocs.Stub
