import ApiDocs.Proofs.StubReading

/-! Reading a module in passes. A pass begins at a line and may go on over several: a signature is read in one pass, and
so is a docstring up to its last line, at which the next pass begins. What is looked for is kept in three marks that
nothing holds apart but the passes themselves. -/

set_option autoImplicit false

namespace ApiDocs.Stub

structure Control where
  /-- A method is looked for. -/
  seeking : Bool
  /-- A docstring is looked for. -/
  signed : Bool
  /-- A docstring has been shown. -/
  closed : Bool
  /-- A function outside a class has come by. -/
  nested : Bool
  /-- Where the next line is. -/
  place : Nat
  deriving DecidableEq, Repr

inductive Branch where
  | method
  | function
  | other
  | opening
  | bare
  | closing
  /-- A docstring has been shown though a function had come by. -/
  | closingNested
  /-- Nothing is looked for. -/
  | idle
  deriving DecidableEq, Repr

/-- Shows lines up to the first one that stops; none if the lines run out. The first line is at `place`. -/
def showUntil (stop : Text → Bool) : Nat → List Text → List Text × Option Nat
  | _, [] => ([], none)
  | place, line :: rest =>
    if stop line then ([outdent line], some place)
    else
      let (pieces, last) := showUntil stop (place + 1) rest
      (outdent line :: pieces, last)

namespace Control

abbrev seekingAt (nested : Bool) (place : Nat) : Control := ⟨true, false, false, nested, place⟩

abbrev signedAt (place : Nat) : Control := ⟨false, true, false, false, place⟩

abbrev closedAt (place : Nat) : Control := ⟨false, false, true, false, place⟩

def start : Control := seekingAt false 0

def branch (control : Control) (line : Text) : Branch :=
  if control.seeking then
    if ("    def " : Text).isPrefixOf line && !control.nested then .method
    else if ("def " : Text).isPrefixOf line then .function
    else .other
  else if control.signed then
    if hasTripleQuote line then .opening else .bare
  else if control.closed then
    if control.nested then .closingNested else .closing
  else .idle

/-- One pass, from a line on that has others after it: what it writes, and what is kept of it unless the lines run out
within the pass. -/
def pass (control : Control) (line : Text) (rest : List Text) : List Text × Option Control :=
  match control.branch (Text.trim '\n' line) with
  | .method =>
    let (pieces, last) := showUntil endsSignature control.place (Text.trim '\n' line :: rest)
    (pieces, last.map fun last => { control with seeking := false, signed := true, place := last + 1 })
  | .function => ([], some { control with nested := true, place := control.place + 1 })
  | .opening =>
    let (pieces, last) := showUntil hasTripleQuote (control.place + 1) rest
    -- the place stays at the line that closes the docstring
    (outdent (Text.trim '\n' line) :: pieces,
      last.map fun last => { control with signed := false, closed := true, place := last })
  | .bare =>
    ([body], some { control with seeking := true, signed := false, closed := false, place := control.place + 1 })
  | .closing => ([body], some ⟨true, false, false, false, control.place + 1⟩)
  | .closingNested => ([], some ⟨true, false, false, false, control.place + 1⟩)
  | .other | .idle => ([], some { control with place := control.place + 1 })

def state (control : Control) : State :=
  ⟨if control.seeking then .seeking else if control.signed then .signed else .docstring, control.nested⟩

/-- What holds of the lines of a module whenever a pass may begin. -/
structure Sound (lines : List Text) (control : Control) : Prop where
  /-- Exactly one thing is looked for. -/
  one : [control.seeking, control.signed, control.closed].count true = 1
  nested : control.nested = true → control.seeking = true
  bound : control.place ≤ lines.length
  /-- The line that closes a docstring has not been passed. -/
  closing : control.closed = true → ∃ line ∈ lines[control.place]?, hasTripleQuote line = true
  reads : State.start.after (lines.take control.place) = control.state

/-- What the lines from the place on add to the stubs; of a docstring that has been shown, the body. -/
def pending (control : Control) (lines : List Text) : Text :=
  if control.closed then body ++ (stubsFrom .start (lines.drop (control.place + 1))).flatten
  else (stubsFrom control.state (lines.drop control.place)).flatten

end Control

/-- Passes one after the other, as long as there are lines: what is kept whenever a pass may begin, and what is
written. -/
inductive Passes (lines : List Text) : Control → List Control → List Text → Prop where
  | done {control : Control} (read : lines.length ≤ control.place) : Passes lines control [control] []
  | left {control : Control} {line : Text} {rest pieces : List Text} (here : lines.drop control.place = line :: rest)
      (pass : control.pass line rest = (pieces, none)) : Passes lines control [control] pieces
  | next {control after : Control} {line : Text} {rest pieces more : List Text} {heads : List Control}
      (here : lines.drop control.place = line :: rest) (pass : control.pass line rest = (pieces, some after))
      (later : Passes lines after heads more) : Passes lines control (control :: heads) (pieces ++ more)

theorem showUntil_cases (stop : Text → Bool) (place : Nat) (lines : List Text) :
    (∃ front last later, lines = front ++ last :: later ∧ (∀ line ∈ front, stop line = false) ∧ stop last = true ∧
      showUntil stop place lines = ((front ++ [last]).map outdent, some (place + front.length))) ∨
    (∀ line ∈ lines, stop line = false) ∧ showUntil stop place lines = (lines.map outdent, none) := by
  induction lines generalizing place with
  | nil => exact .inr ⟨fun _ member => absurd member List.not_mem_nil, rfl⟩
  | cons line lines ih =>
    by_cases stops : stop line = true
    · refine .inl ⟨[], line, lines, rfl, fun _ member => absurd member List.not_mem_nil, stops, ?_⟩
      simp [showUntil, stops]
    · have on : stop line = false := Bool.eq_false_iff.mpr stops
      rcases ih (place + 1) with ⟨front, last, later, rfl, before, ends, shown⟩ | ⟨before, shown⟩
      · refine .inl ⟨line :: front, last, later, rfl, List.forall_mem_cons.mpr ⟨on, before⟩, ends, ?_⟩
        simp [showUntil, on, shown, Nat.add_assoc, Nat.add_comm 1]
      · exact .inr ⟨List.forall_mem_cons.mpr ⟨on, before⟩, by simp [showUntil, on, shown]⟩

theorem Scans.final_eq {state final : State} {lines : List Text} {added : Text}
    (scans : Scans state lines added final) :
    state.after lines = final := by
  induction scans with
  | done => rfl
  | step later ih => exact ih

theorem scans_unended {first : Text} {rest : List Text} (begins : ("    def " : Text) <+: first)
    (unended : ∀ line ∈ first :: rest, endsSignature line = false) :
    Scans .start (first :: rest) ((first :: rest).flatMap outdent) ⟨.signature, false⟩ := by
  obtain ⟨one, others⟩ := List.forall_mem_cons.mp unended
  have next : State.start.next first = (outdent first, ⟨.signature, false⟩) := by
    rw [next_method begins, State.afterSignature, one]
    rfl
  exact (Scans.line next).append (scans_shown fun line member => next_unended (others line member))

namespace Control

variable {lines : List Text} {control after : Control}

/-- The three controls that are sound: a function has come by only in the first. -/
theorem Sound.cases (sound : control.Sound lines) :
    (∃ nested place, control = seekingAt nested place) ∨
      (∃ place, control = signedAt place) ∨ ∃ place, control = closedAt place := by
  have one := sound.one
  have outside := sound.nested
  obtain ⟨seeking, signed, closed, nested, place⟩ := control
  cases seeking <;> cases signed <;> cases closed <;> cases nested <;> simp_all

theorem Sound.branch_ne (sound : control.Sound lines) (line : Text) :
    control.branch line ≠ .closingNested ∧ control.branch line ≠ .idle := by
  rcases sound.cases with ⟨nested, place, rfl⟩ | ⟨place, rfl⟩ | ⟨place, rfl⟩
  · simp only [branch, if_true]
    split
    · simp
    · split <;> simp
  · simp only [branch, Bool.false_eq_true, if_false, if_true]
    split <;> simp
  · simp [branch]

theorem sound_start (lines : List Text) : start.Sound lines where
  one := rfl
  nested := fun _ => rfl
  bound := Nat.zero_le _
  closing := fun closed => nomatch closed
  reads := by rw [show start.place = 0 from rfl, List.take_zero]; rfl

structure Moves (lines : List Text) (control after : Control) (added : Text) : Prop where
  further : control.place < after.place
  bound : after.place ≤ lines.length
  reads : State.start.after (lines.take after.place) = after.state
  adds : (stubsFrom control.state (lines.drop control.place)).flatten =
    added ++ (stubsFrom after.state (lines.drop after.place)).flatten

theorem Sound.moves (sound : control.Sound lines) {consumed later : List Text} {added : Text} (proper : consumed ≠ [])
    (here : lines.drop control.place = consumed ++ later) (scans : Scans control.state consumed added after.state)
    (place : after.place = control.place + consumed.length) : Moves lines control after added := by
  have size := congrArg List.length here
  rw [List.length_drop, List.length_append] at size
  have some := List.length_pos_iff.mpr proper
  have taken : lines.take after.place = lines.take control.place ++ consumed := by
    rw [place, List.take_add, here, List.take_left]
  have left : lines.drop after.place = later := by
    rw [place, ← List.drop_drop, here, List.drop_left]
  refine ⟨by omega, by have := sound.bound; omega, ?_, ?_⟩
  · rw [taken, State.after_append, sound.reads, scans.final_eq]
  · rw [here, left, flatten_stubsFrom_append, scans.final_eq, scans.flatten_stubsFrom]

theorem Moves.sound {added : Text} (moves : Moves lines control after added)
    (one : [after.seeking, after.signed, after.closed].count true = 1)
    (nested : after.nested = true → after.seeking = true)
    (closing : after.closed = true → ∃ line ∈ lines[after.place]?, hasTripleQuote line = true) : after.Sound lines :=
  ⟨one, nested, moves.bound, closing, moves.reads⟩

/-- A pass that the lines outlast goes on to a sound control further down, and what it writes is what is pending less
what is pending then; one in which the lines run out writes all that is pending. -/
def Advances (lines : List Text) (control : Control) : List Text × Option Control → Prop
  | (pieces, none) => pieces.flatten = control.pending lines
  | (pieces, some after) =>
    after.Sound lines ∧ control.place < after.place ∧ pieces.flatten ++ after.pending lines = control.pending lines

theorem Sound.advances_line (sound : control.Sound lines) {line added : Text} {rest : List Text}
    (here : lines.drop control.place = line :: rest) (next : control.state.next line = (added, after.state))
    (place : after.place = control.place + 1) (before : control.closed = false) (now : after.closed = false)
    (one : [after.seeking, after.signed].count true = 1) (nested : after.nested = true → after.seeking = true) :
    after.Sound lines ∧ control.place < after.place ∧ added ++ after.pending lines = control.pending lines := by
  have moves : Moves lines control after added := sound.moves (List.cons_ne_nil line []) here (.line next) place
  refine ⟨moves.sound ?_ nested ?_, moves.further, ?_⟩
  · rw [now, ← one]
    simp [List.count_cons]
  · rw [now]
    exact nofun
  · rw [pending, pending, before, now, if_neg nofun, if_neg nofun, moves.adds]

section
variable {line : Text} {rest : List Text} {place : Nat}

theorem advances_signature (sound : Sound lines (seekingAt false place)) (here : lines.drop place = line :: rest)
    (begins : ("    def " : Text) <+: line) :
    Advances lines (seekingAt false place)
      ((showUntil endsSignature place (line :: rest)).1,
        (showUntil endsSignature place (line :: rest)).2.map fun last => signedAt (last + 1)) := by
  rcases showUntil_cases endsSignature place (line :: rest) with
    ⟨front, last, later, eq, unended, ended, shown⟩ | ⟨unended, shown⟩
  · have first : (front ++ [last]).head? = some line := by
      have same := congrArg List.head? eq
      simpa [List.head?_append] using same.symm
    have method : ∀ other ∈ (front ++ [last]).head?, ("    def " : Text) <+: other := by
      intro other found
      obtain rfl := Option.some.inj (first.symm.trans found)
      exact begins
    have cut : lines.drop place = (front ++ [last]) ++ later := by
      rw [here, eq, List.append_assoc]
      rfl
    let signature : Signature := ⟨front, last, method,
      fun other member => endsSignature_eq_false_iff.mp (unended other member), endsSignature_iff.mp ended⟩
    have moves : Moves lines (seekingAt false place) (signedAt (place + front.length + 1))
        ((front ++ [last]).flatMap outdent) :=
      sound.moves (by simp) cut signature.scans (by simp [Nat.add_assoc])
    rw [shown]
    exact ⟨moves.sound rfl nofun nofun, moves.further, moves.adds.symm⟩
  · rw [shown]
    show _ = (stubsFrom .start (lines.drop place)).flatten
    rw [here, (scans_unended begins unended).flatten_stubsFrom, List.flatMap_def]

theorem advances_docstring (sound : Sound lines (signedAt place)) (here : lines.drop place = line :: rest)
    (opened : hasTripleQuote line = true) :
    Advances lines (signedAt place)
      (outdent line :: (showUntil hasTripleQuote (place + 1) rest).1,
        (showUntil hasTripleQuote (place + 1) rest).2.map fun last => closedAt last) := by
  rcases showUntil_cases hasTripleQuote (place + 1) rest with
    ⟨front, last, later, rfl, unquoted, closed, shown⟩ | ⟨unquoted, shown⟩
  · have moves : Moves lines (signedAt place) (closedAt (place + 1 + front.length))
        ((line :: front).flatMap outdent) :=
      sound.moves (List.cons_ne_nil line front) here (scans_unclosed opened unquoted)
        (by rw [List.length_cons, Nat.add_assoc, Nat.add_comm 1])
    have left : lines.drop (place + 1 + front.length) = last :: later := by
      rw [Nat.add_assoc, ← List.drop_drop, here, Nat.add_comm, List.drop_succ_cons, List.drop_left]
    have held : lines[place + 1 + front.length]? = some last := by
      rw [← List.head?_drop, left]
      rfl
    rw [shown]
    refine ⟨moves.sound rfl nofun fun _ => ⟨last, held, closed⟩, moves.further, ?_⟩
    -- the line that closes the docstring is written here, and the body is still pending
    have closing : (stubsFrom ⟨.docstring, false⟩ (last :: later)).flatten =
        outdent last ++ body ++ (stubsFrom .start later).flatten := by
      rw [stubsFrom, next_closed closed, List.flatten_cons]
    have adds := moves.adds
    rw [left] at adds
    show _ ++ (body ++ (stubsFrom .start (lines.drop (place + 1 + front.length + 1))).flatten) =
      (stubsFrom ⟨.signed, false⟩ (lines.drop place)).flatten
    rw [← List.drop_drop, left, List.drop_succ_cons, List.drop_zero]
    refine Eq.trans ?_ (adds.trans (congrArg _ closing)).symm
    simp [List.flatMap_def]
  · rw [shown]
    show _ = (stubsFrom ⟨.signed, false⟩ (lines.drop place)).flatten
    rw [here, (scans_unclosed opened unquoted).flatten_stubsFrom, List.flatMap_def]
    rfl

theorem advances_closing (sound : Sound lines (closedAt place)) (here : lines.drop place = line :: rest) :
    Advances lines (closedAt place) ([body], some (seekingAt false (place + 1))) := by
  have held : lines[place]? = some line := by
    rw [← List.head?_drop, here]
    rfl
  obtain ⟨other, found, closed⟩ := sound.closing rfl
  obtain rfl : line = other := Option.some.inj (held.symm.trans found)
  have moves : Moves lines (closedAt place) (seekingAt false (place + 1)) (outdent line ++ body) :=
    sound.moves (List.cons_ne_nil line []) here (.line (next_closed closed)) rfl
  refine ⟨moves.sound rfl nofun nofun, moves.further, ?_⟩
  show [body].flatten ++ (stubsFrom .start (lines.drop (place + 1))).flatten =
    body ++ (stubsFrom .start (lines.drop (place + 1))).flatten
  rw [List.flatten_singleton]

end

theorem seeking_cases (nested : Bool) (place : Nat) (line : Text) :
    (nested = false ∧ ("    def " : Text) <+: line ∧ branch (seekingAt nested place) line = .method) ∨
      (branch (seekingAt nested place) line = .function ∧
        State.next ⟨.seeking, nested⟩ line = ([], ⟨.seeking, true⟩)) ∨
      (branch (seekingAt nested place) line = .other ∧
        State.next ⟨.seeking, nested⟩ line = ([], ⟨.seeking, nested⟩)) := by
  simp only [branch, State.next, if_true]
  by_cases method : (("    def " : Text).isPrefixOf line && !nested) = true
  · obtain ⟨begins, unnested⟩ := Bool.and_eq_true_iff.mp method
    exact .inl ⟨(Bool.not_eq_true' nested).mp unnested, List.isPrefixOf_iff_prefix.mp begins, if_pos method⟩
  · rw [if_neg method, if_neg method]
    by_cases function : ("def " : Text).isPrefixOf line = true
    · exact .inr (.inl ⟨if_pos function, if_pos function⟩)
    · exact .inr (.inr ⟨if_neg function, if_neg function⟩)

theorem Sound.advances (free : ∀ line ∈ lines, .char '\n' ∉ line) (sound : control.Sound lines) {line : Text}
    {rest : List Text} (here : lines.drop control.place = line :: rest) :
    Advances lines control (control.pass line rest) := by
  -- a line of a module ends before its newline, so there is nothing to trim
  have member : line ∈ lines := List.mem_of_mem_drop (here ▸ List.mem_cons_self)
  have whole : Text.trim '\n' line = line := Text.trim_free (free line member)
  rw [pass, whole]
  rcases sound.cases with ⟨nested, place, rfl⟩ | ⟨place, rfl⟩ | ⟨place, rfl⟩
  · rcases seeking_cases nested place line with ⟨rfl, begins, taken⟩ | ⟨taken, next⟩ | ⟨taken, next⟩
    · rw [taken]
      exact advances_signature sound here begins
    · rw [taken]
      exact sound.advances_line here next rfl rfl rfl rfl fun _ => rfl
    · rw [taken]
      exact sound.advances_line here next rfl rfl rfl rfl fun _ => rfl
  · by_cases opened : hasTripleQuote line = true
    · have taken : branch (signedAt place) line = .opening := by simp [branch, opened]
      rw [taken]
      exact advances_docstring sound here opened
    · have taken : branch (signedAt place) line = .bare := by simp [branch, opened]
      have next : State.next ⟨.signed, false⟩ line = (body, ⟨.seeking, false⟩) := by simp [State.next, opened]
      rw [taken, Advances, List.flatten_singleton]
      exact sound.advances_line here next rfl rfl rfl rfl fun _ => rfl
  · exact advances_closing sound here

end Control

section
variable {lines : List Text} (free : ∀ line ∈ lines, .char '\n' ∉ line)
include free

/-- From a sound control on there are passes to the end. -/
theorem exists_passes {control : Control} (sound : control.Sound lines) :
    ∃ heads pieces, Passes lines control heads pieces := by
  -- every pass leaves fewer lines
  induction left : lines.length - control.place using Nat.strongRecOn generalizing control with
  | ind count ih =>
    cases here : lines.drop control.place with
    | nil => exact ⟨_, _, .done (List.drop_eq_nil_iff.mp here)⟩
    | cons line rest =>
      have advances := sound.advances free here
      rcases pass : control.pass line rest with ⟨pieces, _ | after⟩
      · exact ⟨_, _, .left here pass⟩
      · rw [pass] at advances
        obtain ⟨next, further, _⟩ := advances
        have bound := next.bound
        obtain ⟨heads, more, later⟩ := ih _ (by omega) next rfl
        exact ⟨_, _, .next here pass later⟩

/-- All passes: each begins with a sound control, further down than the one before, and together they write what is
pending. -/
theorem Passes.sound {control : Control} {heads : List Control} {pieces : List Text}
    (passes : Passes lines control heads pieces) (sound : control.Sound lines) :
    (∀ head ∈ heads, head.Sound lines ∧ control.place ≤ head.place) ∧ heads.Pairwise (·.place < ·.place) ∧
      heads.length ≤ lines.length - control.place + 1 ∧ pieces.flatten = control.pending lines := by
  induction passes with
  | @done control read =>
    refine ⟨by simp [sound], List.pairwise_singleton .., by simp, ?_⟩
    -- a closing line lies before the end, so no docstring is closed there
    have closed : control.closed = false := by
      by_contra closed
      obtain ⟨line, held, _⟩ := sound.closing (by simpa using closed)
      exact absurd (List.getElem?_eq_some_iff.mp held).1 (by omega)
    rw [Control.pending, closed, if_neg nofun, List.drop_eq_nil_iff.mpr read]
    rfl
  | left here pass =>
    have advances := sound.advances free here
    rw [pass] at advances
    exact ⟨by simp [sound], List.pairwise_singleton .., by simp, advances⟩
  | next here pass later ih =>
    have advances := sound.advances free here
    rw [pass] at advances
    obtain ⟨next, further, adds⟩ := advances
    obtain ⟨each, ordered, count, rest⟩ := ih next
    have bound := next.bound
    refine ⟨List.forall_mem_cons.mpr ⟨⟨sound, Nat.le_refl _⟩, fun head member => ?_⟩,
      List.pairwise_cons.mpr ⟨fun head member => ?_, ordered⟩, ?_, ?_⟩
    · exact ⟨(each head member).1, further.le.trans (each head member).2⟩
    · exact Nat.lt_of_lt_of_le further (each head member).2
    · rw [List.length_cons]
      omega
    · rw [List.flatten_append, rest, adds]

end

/-- Reading a module in passes comes to an end, and writes its stubs. Whenever a pass may begin, exactly one of a
method, a docstring and the end of one is looked for, a function has come by only while it is a method, and the place is
within the lines; so a pass never finds nothing to look for, nor the end of a docstring with a function before it. Every
pass begins further down, also the one after a docstring, which begins at the line that closes it. -/
theorem passes_controlled (addition : Addition) :
    (∃ heads pieces, Passes (Text.split "\n" addition.text) .start heads pieces) ∧
      ∀ heads pieces, Passes (Text.split "\n" addition.text) .start heads pieces →
        addition.written = addition.heading ++ pieces.flatten ∧
        heads.length ≤ (Text.split "\n" addition.text).length + 1 ∧ heads.Pairwise (·.place < ·.place) ∧
        ∀ head ∈ heads, head.Sound (Text.split "\n" addition.text) ∧
          ∀ line, head.branch line ≠ .closingNested ∧ head.branch line ≠ .idle := by
  have free : ∀ line ∈ Text.split "\n" addition.text, .char '\n' ∉ line := fun line member => Text.split_noMark member
  have start := Control.sound_start (Text.split "\n" addition.text)
  refine ⟨exists_passes free start, fun heads pieces passes => ?_⟩
  obtain ⟨each, ordered, count, written⟩ := passes.sound free start
  refine ⟨?_, count, ordered, fun head member => ⟨(each head member).1, (each head member).1.branch_ne⟩⟩
  rw [addition.written_heading, written]
  rfl

def passedModule : Addition := sampleModule "class A:\n    def f(self):\n        \"\"\"\n        \"\"\"\ndef g():"

def passedLines : List Text := ["class A:", "    def f(self):", "        \"\"\"", "        \"\"\"", "def g():"]

def passedHeads : List Control := [
  .seekingAt false 0, .seekingAt false 1, .signedAt 2, .closedAt 3, .seekingAt false 4, .seekingAt true 5]

theorem passes_controlled_sample :
    ∃ pieces, Passes (Text.split "\n" passedModule.text) .start passedHeads pieces ∧
      passedModule.written = passedModule.heading ++ pieces.flatten ∧
      pieces.flatten = "def f(self):\n    \"\"\"\n    \"\"\"\n    pass\n\n\n" ∧
      ∀ head ∈ passedHeads, head.Sound (Text.split "\n" passedModule.text) := by
  have lines : Text.split "\n" passedModule.text = passedLines := by decide +kernel
  have passes : Passes (Text.split "\n" passedModule.text) .start passedHeads
      ([] ++ ([("def f(self):\n" : Text)] ++
        ([("    \"\"\"\n" : Text), "    \"\"\"\n"] ++ ([body] ++ ([] ++ []))))) := by
    rw [lines]
    exact .next rfl (by decide +kernel) (.next rfl (by decide +kernel) (.next rfl (by decide +kernel)
      (.next rfl (by decide +kernel) (.next rfl (by decide +kernel) (.done (Nat.le_refl 5))))))
  obtain ⟨written, _, _, each⟩ := (passes_controlled passedModule).2 _ _ passes
  exact ⟨_, passes, written, by decide +kernel, fun head member => (each head member).1⟩

end ApiDocs.Stub
