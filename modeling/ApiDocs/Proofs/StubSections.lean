import ApiDocs.Instance
import ApiDocs.Proofs.File.Resolution
import ApiDocs.Proofs.Text.Pieces
import ApiDocs.Proofs.Text.Search
import ApiDocs.Stub
import Mathlib.Data.List.TakeWhile

/-! Sections of a file of stubs, and finding the one that a method is in. The heading of a section is the
only place in it where a section name begins, so the nearest name above a definition is that of its own
section, whatever the modules hold. -/

set_option autoImplicit false

namespace ApiDocs

namespace Text

def Ended (text : Text) : Prop := text = [] ∨ ∃ body : Text, text = body ++ [.char '\n']

theorem Ended.append {first second : Text} (left : Ended first) (right : Ended second) :
    Ended (first ++ second) := by
  rcases right with rfl | ⟨body, rfl⟩
  · rwa [List.append_nil]
  · exact .inr ⟨first ++ body, by simp⟩

theorem ended_flatten {pieces : List Text} (ended : ∀ piece ∈ pieces, Ended piece) :
    Ended pieces.flatten := by
  induction pieces with
  | nil => exact .inl rfl
  | cons piece pieces ih =>
    exact (ended piece (by simp)).append (ih fun other member => ended other (by simp [member]))

theorem infix_flatten {part : Text} (line : .char '\n' ∉ part) (proper : part ≠ []) {pieces : List Text}
    (ended : ∀ piece ∈ pieces, Ended piece) (found : part <:+: pieces.flatten) :
    ∃ piece ∈ pieces, part <:+: piece := by
  induction pieces with
  | nil => exact absurd (List.infix_nil.mp found) proper
  | cons piece pieces ih =>
    have rest : part <:+: pieces.flatten → ∃ other ∈ piece :: pieces, part <:+: other := by
      intro inside
      obtain ⟨other, member, holds⟩ := ih (fun other member => ended other (by simp [member])) inside
      exact ⟨other, by simp [member], holds⟩
    rcases ended piece (by simp) with rfl | ⟨body, rfl⟩
    · exact rest (by simpa using found)
    · rw [List.flatten_cons, List.append_assoc, List.singleton_append] at found
      rcases infix_across line found with inside | inside
      · exact ⟨_, List.mem_cons_self, List.infix_append_of_infix_left inside⟩
      · exact rest inside

theorem afterLast_cons {mark : CodePoint} {text : Text} (member : mark ∈ text) (c : CodePoint) :
    afterLast mark (c :: text) = afterLast mark text := by
  unfold afterLast
  rw [List.reverse_cons, List.takeWhile_append, if_neg]
  intro whole
  have all := List.takeWhile_eq_self_iff.mp ((List.takeWhile_prefix _).eq_of_length whole)
  simpa using all mark (List.mem_reverse.mpr member)

end Text

namespace Stub

def sectionMark : Text := "#ivy."

/-- Pieces of a section: texts that end with a line and in which no section name begins. -/
structure Piece (text : Text) : Prop where
  ended : text.Ended
  free : ¬sectionMark <:+: text

theorem Piece.append {first second : Text} (left : Piece first) (right : Piece second) :
    Piece (first ++ second) := by
  refine ⟨left.ended.append right.ended, fun found => ?_⟩
  have row : sectionMark <:+: [first, second].flatten := by simpa using found
  obtain ⟨piece, member, holds⟩ :=
    Text.infix_flatten (by decide) (by decide) (by simp [left.ended, right.ended]) row
  simp only [List.mem_cons, List.not_mem_nil, or_false] at member
  rcases member with rfl | rfl
  · exact left.free holds
  · exact right.free holds

theorem piece_line {line : Text} (free : ¬sectionMark <:+: line) : Piece (line ++ [.char '\n']) := by
  refine ⟨.inr ⟨line, rfl⟩, fun found => ?_⟩
  have line : .char '\n' ∉ sectionMark := by decide
  rcases Text.infix_across line found with inside | inside
  · exact free inside
  · exact absurd (List.infix_nil.mp inside) (by decide)

theorem piece_outdent {line : Text} (free : ¬sectionMark <:+: line) : Piece (outdent line) :=
  piece_line fun found => free (found.trans (List.drop_suffix 4 line).isInfix)

theorem piece_body : Piece body :=
  ⟨.inr ⟨"    pass\n\n", rfl⟩, by rw [← Text.mentions_iff]; decide⟩

theorem piece_nil : Piece [] := ⟨.inl rfl, fun found => absurd (List.infix_nil.mp found) (by decide)⟩

theorem next_cases (state : State) (line : Text) :
    (state.next line).1 = [] ∨ (state.next line).1 = body ∨ (state.next line).1 = outdent line ∨
      (state.next line).1 = outdent line ++ body := by
  unfold State.next
  split
  · split
    · exact .inr (.inr (.inl rfl))
    split <;> exact .inl rfl
  · exact .inr (.inr (.inl rfl))
  · split
    · exact .inr (.inr (.inl rfl))
    · exact .inr (.inl rfl)
  · split
    · cases state.nested
      · exact .inr (.inr (.inr rfl))
      · exact .inr (.inr (.inl (List.append_nil _)))
    · exact .inr (.inr (.inl rfl))

theorem piece_next (state : State) {line : Text} (free : ¬sectionMark <:+: line) :
    Piece (state.next line).1 := by
  rcases next_cases state line with eq | eq | eq | eq
  · rw [eq]; exact piece_nil
  · rw [eq]; exact piece_body
  · rw [eq]; exact piece_outdent free
  · rw [eq]; exact (piece_outdent free).append piece_body

theorem ended_stubsFrom (state : State) (lines : List Text) : ∀ piece ∈ stubsFrom state lines, Text.Ended piece := by
  induction lines generalizing state with
  | nil => simp [stubsFrom]
  | cons line lines ih =>
    have outdented : Text.Ended (outdent line) := .inr ⟨line.drop 4, rfl⟩
    simp only [stubsFrom, List.mem_cons, forall_eq_or_imp]
    refine ⟨?_, ih _⟩
    rcases next_cases state line with eq | eq | eq | eq
    · exact .inl eq
    · rw [eq]; exact piece_body.ended
    · rw [eq]; exact outdented
    · rw [eq]; exact outdented.append piece_body.ended

theorem piece_stubsFrom (state : State) {lines : List Text} (free : ∀ line ∈ lines, ¬sectionMark <:+: line) :
    ∀ piece ∈ stubsFrom state lines, Piece piece := by
  induction lines generalizing state with
  | nil => simp [stubsFrom]
  | cons line lines ih =>
    simp only [stubsFrom, List.mem_cons, forall_eq_or_imp]
    exact ⟨piece_next state (free line (by simp)),
      ih (state.next line).2 fun other member => free other (by simp [member])⟩

def contents (text : Text) : List Text :=
  let lines := Text.split "\n" text
  (setup lines).map (· ++ ("\n" : Text)) ++ stubsFrom .start lines

theorem piece_contents {text : Text} (free : ∀ line ∈ Text.split "\n" text, ¬sectionMark <:+: line) :
    ∀ piece ∈ contents text, Piece piece := by
  intro piece member
  rcases List.mem_append.mp member with inSetup | inStubs
  · obtain ⟨line, inside, rfl⟩ := List.mem_map.mp inSetup
    exact piece_line (free line ((List.takeWhile_prefix _).subset inside))
  · exact piece_stubsFrom _ free piece inStubs

def definition (name : Text) : Text := "def " ++ name ++ "("

theorem definition_ne_nil (name : Text) : definition name ≠ [] := by simp [definition, Text.ofChars]

theorem space_mem_definition (name : Text) : .char ' ' ∈ definition name := by
  simp [definition, Text.ofChars]

theorem line_definition {name : Text} (line : .char '\n' ∉ name) : .char '\n' ∉ definition name := by
  simp [definition, Text.ofChars, line]

/-- A module that is added to a file of stubs: its text, its path and its dotted name. -/
structure Addition where
  text : Text
  path : Text
  dotted : Text

namespace Addition

def perform (addition : Addition) : Script Unit := append addition.text addition.path addition.dotted

def pieces (addition : Addition) : List Text := extract addition.dotted addition.text

def written (addition : Addition) : Text := addition.pieces.flatten

def beside (addition : Addition) (name : Text) : Text :=
  Path.join (Text.upTo addition.path (Text.lastIndex "/" addition.path)) name

/-- A dotted name of the library that fits in a heading, and a text without section names. -/
structure Proper (addition : Addition) : Prop where
  library : ("ivy." : Text) <+: addition.dotted
  line : .char '\n' ∉ addition.dotted
  word : .char ' ' ∉ addition.dotted
  unmarked : .char '#' ∉ addition.dotted
  free : ∀ line ∈ Text.split "\n" addition.text, ¬sectionMark <:+: line

theorem written_eq (addition : Addition) :
    addition.written = .char '#' :: addition.dotted ++ .char '\n' :: (contents addition.text).flatten := by
  simp [Addition.written, pieces, extract, contents, Text.ofChars]

variable {addition : Addition} (proper : addition.Proper)
include proper

theorem Proper.written_ended : ∃ body : Text, addition.written = body ++ [.char '\n'] := by
  have ended : (addition.written).Ended := by
    rw [written_eq, show ∀ rest, (.char '#' :: addition.dotted ++ .char '\n' :: rest : Text) =
      (.char '#' :: addition.dotted ++ [.char '\n']) ++ rest from fun rest => by simp]
    exact Text.Ended.append (.inr ⟨_, rfl⟩)
      (Text.ended_flatten fun piece member => (piece_contents proper.free piece member).ended)
  rcases ended with empty | ended
  · rw [written_eq] at empty
    cases empty
  · exact ended

theorem Proper.contents_free : ¬sectionMark <:+: (contents addition.text).flatten := by
  intro found
  obtain ⟨piece, member, holds⟩ := Text.infix_flatten (by decide) (by decide)
    (fun piece member => (piece_contents proper.free piece member).ended) found
  exact (piece_contents proper.free piece member).free holds

omit proper in
theorem exists_section {additions : List Addition} {place : Nat}
    (inside : place < (additions.flatMap written).length) :
    ∃ before addition later, additions = before ++ addition :: later ∧
      (before.flatMap written).length ≤ place ∧
      place < (before.flatMap written).length + addition.written.length := by
  induction additions generalizing place with
  | nil => simp at inside
  | cons first additions ih =>
    by_cases here : place < first.written.length
    · exact ⟨[], first, additions, rfl, by simp, by simpa using here⟩
    · rw [List.flatMap_cons, List.length_append] at inside
      have rest : place - first.written.length < (additions.flatMap written).length := by omega
      obtain ⟨before, addition, later, rfl, least, most⟩ := ih rest
      refine ⟨first :: before, addition, later, rfl, ?_, ?_⟩ <;>
        rw [List.flatMap_cons, List.length_append] <;> omega

theorem Proper.definition_inside {name rest : Text} (line : .char '\n' ∉ name) {place : Nat}
    (inside : place < addition.written.length)
    (stands : Text.StandsAt (definition name) (addition.written ++ rest) place) :
    addition.dotted.length + 2 ≤ place ∧
      place + (definition name).length ≤ addition.written.length := by
  have oneLine := line_definition line
  have nonempty := definition_ne_nil name
  constructor
  · by_contra early
    have heading : addition.written ++ rest =
        (.char '#' :: addition.dotted) ++ .char '\n' :: ((contents addition.text).flatten ++ rest) := by
      simp [written_eq]
    rw [heading] at stands
    have above := stands.before_mark oneLine nonempty (by simp; omega)
    have space : .char ' ' ∈ addition.dotted := by
      simpa using above.isInfix.subset (space_mem_definition name)
    exact proper.word space
  · obtain ⟨body, ended⟩ := proper.written_ended
    rw [ended, List.append_assoc, List.singleton_append] at stands
    rw [ended, List.length_append, List.length_singleton] at inside ⊢
    have within := (stands.before_mark oneLine nonempty (by omega)).bound nonempty
    omega

/-- Above a place below the heading, the nearest section name is that of the section. -/
theorem Proper.lastIndex?_heading {place : Nat} (below : addition.dotted.length + 2 ≤ place)
    (before : Text) :
    Text.lastIndex? sectionMark (before ++ addition.written.take place) = some before.length := by
  obtain ⟨more, rfl⟩ := Nat.exists_eq_add_of_le below
  have cut : addition.written.take (addition.dotted.length + 2 + more) =
      .char '#' :: (addition.dotted ++ .char '\n' :: (contents addition.text).flatten.take more) := by
    rw [written_eq, List.cons_append, show addition.dotted.length + 2 + more =
      (addition.dotted.length + (more + 1)) + 1 by omega, List.take_succ_cons, List.take_length_add_append,
      List.take_succ_cons]
  rw [cut]
  refine Text.lastIndex?_append (by decide) ?_ ?_ before
  · obtain ⟨tail, eq⟩ := proper.library
    exact ⟨tail ++ .char '\n' :: (contents addition.text).flatten.take more, by
      rw [← eq]; simp [sectionMark, Text.ofChars]⟩
  · intro again
    have line : .char '\n' ∉ sectionMark := by decide
    rcases Text.infix_across line again with inside | inside
    · exact proper.unmarked (inside.subset (by decide))
    · exact proper.contents_free (inside.trans (List.take_prefix _ _).isInfix)

theorem Proper.last_of_heading {text : Text}
    (starts : .char '#' :: addition.dotted ++ [.char '\n'] <+: text) :
    Text.afterLast '.' (Text.beforeFirst '\n' text) = Text.afterLast '.' addition.dotted := by
  obtain ⟨rest, rfl⟩ := starts
  have point : .char '.' ∈ addition.dotted := proper.library.subset (by decide)
  rw [List.append_assoc, List.singleton_append, Text.beforeFirst_append (by simpa using proper.line),
    Text.afterLast_cons point]

end Addition

/-- The module that is found for a name is that of the section in which the name is first defined. The
file may break off anywhere. -/
theorem moduleOf_section {additions : List Addition} (proper : ∀ addition ∈ additions, addition.Proper)
    {stubs name : Text} (line : .char '\n' ∉ name) (start : stubs <+: additions.flatMap Addition.written)
    {place : Nat} (first : Text.index? (definition name) stubs = some place) :
    ∃ before addition later, additions = before ++ addition :: later ∧
      (before.flatMap Addition.written).length ≤ place ∧
      place + (definition name).length ≤
        (before.flatMap Addition.written).length + addition.written.length ∧
      Instance.moduleOf stubs name = Text.afterLast '.' addition.dotted := by
  obtain ⟨stands, _, _⟩ := Text.index?_eq_some_iff.mp first
  have bound := stands.bound (definition_ne_nil name)
  have positive := List.length_pos_iff.mpr (definition_ne_nil name)
  obtain ⟨tail, whole⟩ := start
  have inside : place < (additions.flatMap Addition.written).length := by
    rw [← whole, List.length_append]; omega
  obtain ⟨before, addition, later, rfl, least, most⟩ := Addition.exists_section inside
  have own := proper addition (by simp)
  generalize earlier : before.flatMap Addition.written = above at least most
  have layout : stubs ++ tail = above ++ (addition.written ++ later.flatMap Addition.written) := by
    rw [whole, List.flatMap_append, List.flatMap_cons, earlier]
  -- The place, counted from the heading of its section.
  obtain ⟨below, rfl⟩ := Nat.exists_eq_add_of_le least
  have here : Text.StandsAt (definition name) (addition.written ++ later.flatMap Addition.written) below := by
    have far := stands.append tail (by omega)
    rwa [layout, Text.StandsAt, List.drop_append, List.drop_eq_nil_of_le (by omega), List.nil_append,
      Nat.add_sub_cancel_left] at far
  obtain ⟨deep, within⟩ := own.definition_inside line (by omega) here
  refine ⟨before, addition, later, rfl, by rw [earlier]; omega, by rw [earlier]; omega, ?_⟩
  have head : stubs.take (above.length + below + 1) = above ++ addition.written.take (below + 1) := by
    rw [← List.take_append_of_le_length (show _ ≤ stubs.length by omega), layout, List.take_append,
      List.take_of_length_le (by omega), List.take_append_of_le_length (by omega)]
    congr 2
    omega
  have heading : .char '#' :: addition.dotted ++ [.char '\n'] <+: stubs.drop above.length := by
    have ofWhole : .char '#' :: addition.dotted ++ [.char '\n'] <+: (stubs ++ tail).drop above.length := by
      rw [layout, List.drop_left, Addition.written_eq]
      exact ⟨(contents addition.text).flatten ++ later.flatMap Addition.written, by simp⟩
    have toWhole : stubs.drop above.length <+: (stubs ++ tail).drop above.length := by
      rw [List.drop_append_of_le_length (by omega)]
      exact List.prefix_append _ _
    refine List.prefix_of_prefix_length_le ofWhole toWhole ?_
    simp
    omega
  have found : Text.index (definition name) stubs = ((above.length + below : Nat) : Int) := by
    rw [Text.index, first, Text.signed]
  show Text.afterLast '.' (Text.beforeFirst '\n' (Text.since stubs
    (Text.lastIndex sectionMark (Text.upTo stubs (Text.index (definition name) stubs + 1))))) = _
  have cut : Text.upTo stubs (Text.index (definition name) stubs + 1) =
      stubs.take (above.length + below + 1) := by
    rw [found, ← Int.natCast_succ, Text.upTo, Text.bound_ofNat, Nat.min_eq_left (by omega)]
  rw [cut, head, Text.lastIndex, own.lastIndex?_heading (by omega), Text.signed, Text.since, Text.bound_ofNat,
    Nat.min_eq_left (by omega)]
  exact own.last_of_heading heading

/-- A series of additions to one file writes sections in their order, perhaps not to the end. -/
theorem runOn_additions {site : Site} {additions : List Addition} {file name : Text}
    (named : ∀ addition ∈ additions, fileName? addition.dotted = some name)
    (beside : ∀ addition ∈ additions, addition.beside name = file) {tree : Tree} {place : Place}
    {bytes : Bytes} (found : Script.writable file site tree = .ok (place, bytes)) :
    ∃ outcome after stubs, (additions.forM Addition.perform).runOn site tree = (outcome, after) ∧
      Script.writable file site after = .ok (place, bytes ++ Utf8.bytesOf stubs) ∧
      stubs <+: additions.flatMap Addition.written ∧ stubs.Plain ∧
      (outcome = .ok () → stubs = additions.flatMap Addition.written) := by
  induction additions generalizing tree bytes with
  | nil => exact ⟨.ok (), tree, [], rfl, by simpa [Utf8.bytesOf] using found, List.prefix_rfl, .nil, fun _ => rfl⟩
  | cons addition additions ih =>
    have own : addition.perform = Script.appendPieces file addition.pieces := by
      rw [← beside addition (by simp), Addition.perform, append, named addition (by simp)]
      rfl
    obtain ⟨outcome, written, run, reached, plain, complete⟩ :=
      Script.runOn_writeAfter site tree bytes place addition.pieces
    rw [← Script.runOn_appendPieces site tree found, ← own] at run
    have again := Script.writable_put found (bytes ++ Utf8.bytesOf written.flatten)
    have part : written.flatten <+: addition.written := by
      obtain ⟨rest, eq⟩ := reached
      exact ⟨rest.flatten, by rw [Addition.written, ← eq, List.flatten_append]⟩
    rw [Script.runOn_forM_cons, run]
    cases outcome with
    -- a failure leaves the pieces that were written before it
    | error fault =>
      refine ⟨_, _, written.flatten, rfl, again, ?_, plain, fun fails => by cases fails⟩
      exact part.trans (List.prefix_append _ _)
    | ok value =>
      obtain rfl := complete.mp rfl
      obtain ⟨outcome, after, stubs, run, held, start, rest, full⟩ :=
        ih (fun other member => named other (by simp [member]))
          (fun other member => beside other (by simp [member])) again
      refine ⟨outcome, after, addition.written ++ stubs, run, ?_, ?_, Text.plain_append.mpr ⟨plain, rest⟩, ?_⟩
      · rw [held, Addition.written, Utf8.bytesOf_append, List.append_assoc]
      · rw [List.flatMap_cons]
        exact (List.prefix_append_right_inj _).mpr start
      · intro success
        rw [full success, List.flatMap_cons]

theorem fileName?_of_array {dotted : Text} (array : Text.mentions ".array." dotted = true) :
    fileName? dotted = some "array_methods.py" := by
  rw [fileName?, if_pos array]
  rfl

theorem fileName?_of_container {dotted : Text} (container : Text.mentions ".container." dotted = true)
    (noArray : Text.mentions ".array." dotted = false) : fileName? dotted = some "container_methods.py" := by
  rw [fileName?, if_neg (Bool.eq_false_iff.mp noArray), if_pos container]
  rfl

/-- The lookup inverts the writer. Modules of one data class are added to a file of stubs that holds nothing
yet; in what the file holds then, every name that is defined is found to belong to the module of the section
in which it is first defined. -/
theorem moduleOf_gathered {site : Site} {tree after : Tree} {outcome : Except Fault Unit}
    {additions : List Addition} {file kind stubs name : Text} {place : Place} {bytes : Bytes}
    (oneClass :
      (kind = "array_methods.py" ∧
        ∀ addition ∈ additions, Text.mentions ".array." addition.dotted = true) ∨
      (kind = "container_methods.py" ∧
        ∀ addition ∈ additions, Text.mentions ".container." addition.dotted = true ∧
          Text.mentions ".array." addition.dotted = false))
    (proper : ∀ addition ∈ additions, addition.Proper)
    (beside : ∀ addition ∈ additions, addition.beside kind = file)
    (start : Script.writable file site tree = .ok (place, []))
    (run : (additions.forM Addition.perform).runOn site tree = (outcome, after))
    (held : after.get? place = some (.file bytes)) (decoded : Utf8.decode bytes = .ok stubs)
    (line : .char '\n' ∉ name) (defined : Text.mentions (definition name) stubs = true) :
    (outcome = .ok () → stubs = additions.flatMap Addition.written) ∧
      ∃ before addition later found, additions = before ++ addition :: later ∧
        Text.index? (definition name) stubs = some found ∧
        (before.flatMap Addition.written).length ≤ found ∧
        found + (definition name).length ≤
          (before.flatMap Addition.written).length + addition.written.length ∧
        Instance.moduleOf stubs name = Text.afterLast '.' addition.dotted := by
  have named : ∀ addition ∈ additions, fileName? addition.dotted = some kind := by
    intro addition member
    rcases oneClass with ⟨rfl, array⟩ | ⟨rfl, container⟩
    · exact fileName?_of_array (array addition member)
    · exact fileName?_of_container (container addition member).1 (container addition member).2
  obtain ⟨_, _, known, same, writable, part, plain, full⟩ := runOn_additions named beside start
  rw [run] at same
  cases same
  have contents : known = stubs := by
    rcases Script.writable_spec writable with known' | ⟨vacant, _⟩
    · rw [held] at known'
      obtain rfl := Entry.file.inj (Option.some.inj known')
      rw [List.nil_append, Utf8.decode_bytesOf plain] at decoded
      exact Except.ok.inj decoded
    · rw [held] at vacant; cases vacant
  subst contents
  refine ⟨full, ?_⟩
  obtain ⟨found, first⟩ := Option.isSome_iff_exists.mp (Text.isSome_index?.trans defined)
  obtain ⟨before, addition, later, split, least, most, lookup⟩ := moduleOf_section proper line part first
  exact ⟨before, addition, later, found, split, first, least, most, lookup⟩

def sampleAdditions : List Addition := [
  ⟨"class A:\n    def f(self):\n", "../ivy/array/a.py", "ivy.array.a"⟩,
  ⟨"class B:\n    def f(self):\n\n    def g(self):\n", "../ivy/array/b.py", "ivy.array.b"⟩]

def sampleTree : Tree := ⟨[(["docs"], .directory), (["ivy"], .directory), (["ivy", "array"], .directory)]⟩

def sampleSite : Site := .ascending "/workspace" ["docs"]

theorem sampleAdditions_proper : ∀ addition ∈ sampleAdditions, addition.Proper := by
  intro addition member
  simp only [sampleAdditions, List.mem_cons, List.not_mem_nil, or_false] at member
  rcases member with rfl | rfl
  all_goals exact ⟨by decide, by decide, by decide, by decide, by
    intro line inside
    rw [← Text.mentions_iff]
    revert line
    decide⟩

theorem moduleOf_gathered_sample :
    ∃ before addition later, sampleAdditions = before ++ addition :: later ∧
      Instance.moduleOf (sampleAdditions.flatMap Addition.written) "g" =
        Text.afterLast '.' addition.dotted := by
  have start : Script.writable "../ivy/array/array_methods.py" sampleSite sampleTree =
      .ok (["ivy", "array", "array_methods.py"], []) := rfl
  have held : ((sampleAdditions.forM Addition.perform).runOn sampleSite sampleTree).2.get?
      ["ivy", "array", "array_methods.py"] =
        some (.file (Utf8.bytesOf (sampleAdditions.flatMap Addition.written))) := by decide +kernel
  have plain : Text.Plain (sampleAdditions.flatMap Addition.written) := by
    unfold Text.Plain
    decide +kernel
  obtain ⟨_, before, addition, later, _, split, _, _, _, lookup⟩ :=
    moduleOf_gathered (.inl ⟨rfl, by decide⟩) sampleAdditions_proper (by decide) start (Prod.eta _).symm held
      (Utf8.decode_bytesOf plain) (by decide : .char '\n' ∉ ("g" : Text)) (by decide +kernel)
  exact ⟨before, addition, later, split, lookup⟩

end Stub
end ApiDocs
