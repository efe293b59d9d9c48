import ApiDocs.Proofs.StubSections
import ApiDocs.Proofs.Text.Pieces

/-! Stubs that are gathered once more. The sections come again after what the file holds; every definition in
them has been in the file before, so the file defines the same names and finds the same modules. -/

set_option autoImplicit false

namespace ApiDocs

namespace Text

/-- The pieces of two texts in a row that are cut between separators: the last of the first and the first of
the second make one. -/
def glue : List Text → List Text → List Text
  | [], more => more
  | [piece], [] => [piece]
  | [piece], next :: more => (piece ++ next) :: more
  | piece :: pieces, more => piece :: glue pieces more

theorem glue_cons {piece : Text} {pieces : List Text} (proper : pieces ≠ []) (more : List Text) :
    glue (piece :: pieces) more = piece :: glue pieces more := by
  cases pieces with
  | nil => exact absurd rfl proper
  | cons next pieces => cases more <;> rfl

theorem tail_subset_glue {pieces : List Text} (proper : pieces ≠ []) (more : List Text) :
    more.tail ⊆ (glue pieces more).tail := by
  induction pieces with
  | nil => exact absurd rfl proper
  | cons piece pieces ih =>
    by_cases last : pieces = []
    · subst last
      cases more <;> simp [glue]
    · rw [glue_cons last]
      exact fun item member => List.mem_of_mem_tail (ih last member)

theorem consFirst_glue {c : CodePoint} {pieces : List Text} (proper : pieces ≠ []) {more : List Text}
    (rest : more ≠ []) : consFirst c (glue pieces more) = glue (consFirst c pieces) more := by
  cases pieces with
  | nil => exact absurd rfl proper
  | cons piece pieces =>
    cases pieces with
    | nil =>
      cases more with
      | nil => exact absurd rfl rest
      | cons next more => rfl
    | cons next pieces =>
      have further : next :: pieces ≠ [] := List.cons_ne_nil _ _
      rw [glue_cons further]
      exact (glue_cons further more).symm

theorem splitSkipping_mark {separator : Text} {mark : CodePoint} (free : mark ∉ separator) (skip : Nat)
    (first second : Text) (inside : skip ≤ first.length) :
    splitSkipping separator skip (first ++ mark :: second) =
      glue (splitSkipping separator skip first) (split separator (mark :: second)) := by
  have rest : split separator (mark :: second) ≠ [] := splitSkipping_ne_nil _ _ _
  induction first generalizing skip with
  | nil =>
    obtain rfl := Nat.le_zero.mp inside
    cases eq : split separator (mark :: second) with
    | nil => exact absurd eq rest
    | cons next more => exact eq
  | cons c first ih =>
    cases skip with
    | succ skip => exact ih skip (Nat.le_of_succ_le_succ inside)
    | zero =>
      -- whether the separator stands here does not depend on what comes after the mark
      have here : separator.isPrefixOf (c :: (first ++ mark :: second)) = separator.isPrefixOf (c :: first) := by
        rw [Bool.eq_iff_iff, List.isPrefixOf_iff_prefix, List.isPrefixOf_iff_prefix]
        by_cases proper : separator = []
        · simp [proper]
        · constructor
          · intro starts
            have stands := StandsAt.before_mark free proper (Nat.zero_le (c :: first).length)
              (standsAt_zero.mpr starts)
            exact standsAt_zero.mp stands
          · exact fun starts => starts.trans (List.prefix_append _ _)
      rw [List.cons_append, splitSkipping, splitSkipping, here]
      split
      · rename_i starts
        have length := (List.isPrefixOf_iff_prefix.mp starts).length_le
        rw [List.length_cons] at length
        rw [ih _ (by omega), glue_cons (splitSkipping_ne_nil _ _ _)]
      · rw [ih 0 (Nat.zero_le _), consFirst_glue (splitSkipping_ne_nil _ _ _) rest]

theorem beforeFirst_marked {mark : CodePoint} {text : Text} (inside : mark ∈ text) (more : Text) :
    beforeFirst mark (text ++ more) = beforeFirst mark text := by
  obtain ⟨first, second, rfl, free⟩ := List.eq_append_cons_of_mem inside
  rw [List.append_assoc, List.cons_append, beforeFirst_append free, beforeFirst_append free]

end Text

namespace Module

def Closed (word text : Text) : Prop :=
  ∀ item ∈ (Text.split ("\n" ++ word) text).tail, .char '(' ∈ item

theorem defined_mark {word : Text} {mark : CodePoint} (free : mark ∉ ("\n" : Text) ++ word) (dotted : Text)
    {first : Text} (closed : Closed word first) (second : Text) :
    defined word dotted (first ++ mark :: second) =
      defined word dotted first ++ defined word dotted (mark :: second) := by
  have cut := Text.splitSkipping_mark free 0 first second (Nat.zero_le _)
  have names : ∀ pieces more : List Text, (∀ item ∈ pieces, .char '(' ∈ item) → pieces ≠ [] →
      (Text.glue pieces more).map (fun item => dotted ++ "." ++ Text.beforeFirst '(' item) =
        pieces.map (fun item => dotted ++ "." ++ Text.beforeFirst '(' item) ++
          more.tail.map (fun item => dotted ++ "." ++ Text.beforeFirst '(' item) := by
    intro pieces more all proper
    induction pieces with
    | nil => exact absurd rfl proper
    | cons piece pieces ih =>
      by_cases last : pieces = []
      · subst last
        cases more with
        | nil => simp [Text.glue]
        | cons next more => simp [Text.glue, Text.beforeFirst_marked (all piece List.mem_cons_self)]
      · rw [Text.glue_cons last, List.map_cons, ih (fun item member => all item (List.mem_cons_of_mem _ member)) last]
        simp
  unfold defined Text.split
  rw [cut]
  unfold Closed Text.split at closed
  cases pieces : Text.splitSkipping ("\n" ++ word) 0 first with
  | nil => exact absurd pieces (Text.splitSkipping_ne_nil _ _ _)
  | cons piece pieces' =>
    rw [pieces] at closed
    by_cases last : pieces' = []
    · subst last
      cases more : Text.split ("\n" ++ word) (mark :: second) with
      | nil => exact absurd more (Text.splitSkipping_ne_nil _ _ _)
      | cons next more' =>
        unfold Text.split at more
        rw [more]
        rfl
    · rw [Text.glue_cons last]
      exact names pieces' _ closed last

end Module

namespace Stub

/-- What gathering adds to a file of stubs: nothing, or sections, which start with a mark of their own and end
with a line. -/
structure Added (text : Text) : Prop where
  marked : text ≠ [] → ∃ rest, text = .char '#' :: rest
  ended : text.Ended

theorem added_nil : Added [] := ⟨fun proper => absurd rfl proper, .inl rfl⟩

theorem Added.append {first second : Text} (left : Added first) (right : Added second) : Added (first ++ second) := by
  refine ⟨fun proper => ?_, left.ended.append right.ended⟩
  by_cases empty : first = []
  · subst empty
    exact right.marked proper
  · obtain ⟨rest, rfl⟩ := left.marked empty
    exact ⟨rest ++ second, rfl⟩

theorem added_extract (dotted text : Text) : Added (extract dotted text).flatten := by
  refine ⟨fun _ => ⟨_, rfl⟩, Text.ended_flatten fun piece member => ?_⟩
  rcases List.mem_cons.mp member with rfl | below
  · exact .inr ⟨("#" : Text) ++ dotted, rfl⟩
  · rcases List.mem_append.mp below with inSetup | inStubs
    · obtain ⟨line, _, rfl⟩ := List.mem_map.mp inSetup
      exact .inr ⟨line, rfl⟩
    · exact ended_stubsFrom _ _ piece inStubs

section
variable {text more : Text} (added : Added more)
include added

theorem Added.infix_append {part : Text} (free : .char '#' ∉ part) (found : part <:+: text ++ more) :
    part <:+: text ∨ part <:+: more := by
  by_cases empty : more = []
  · rw [empty, List.append_nil] at found
    exact .inl found
  · obtain ⟨rest, rfl⟩ := added.marked empty
    exact (Text.infix_across free found).imp_right fun inside => inside.trans (List.suffix_cons _ _).isInfix

variable (again : more <:+ text)
include again

theorem Added.defined_again {word : Text} (free : .char '#' ∉ ("\n" : Text) ++ word) (dotted : Text)
    (closed : Module.Closed word text) :
    ∃ others, Module.defined word dotted (text ++ more) = Module.defined word dotted text ++ others ∧
      others ⊆ Module.defined word dotted text := by
  by_cases empty : more = []
  · exact ⟨[], by simp [empty], by simp⟩
  · obtain ⟨rest, rfl⟩ := added.marked empty
    obtain ⟨before, rfl⟩ := again
    refine ⟨_, Module.defined_mark free dotted closed rest, ?_⟩
    unfold Module.defined
    apply List.map_subset
    rw [show Text.split ("\n" ++ word) (before ++ .char '#' :: rest) = _ from
      Text.splitSkipping_mark free 0 before rest (Nat.zero_le _)]
    exact Text.tail_subset_glue (Text.splitSkipping_ne_nil _ _ _) _

/-- A method is found in the same module after the sections have come again. -/
theorem Added.moduleOf_again {name : Text} (line : .char '\n' ∉ name) :
    Instance.moduleOf (text ++ more) name = Instance.moduleOf text name := by
  by_cases empty : more = []
  · rw [empty, List.append_nil]
  obtain ⟨body, rfl⟩ := added.ended.resolve_left empty
  obtain ⟨before, rfl⟩ := again
  generalize lead : before ++ (body ++ [.char '\n']) = text
  have ends : text = (before ++ body) ++ [.char '\n'] := by rw [← lead, List.append_assoc]
  have within : body ++ [.char '\n'] <:+: text := ⟨before, [], by simp [← lead]⟩
  have heading : Text.lastIndex? sectionMark (Text.upTo (text ++ (body ++ [.char '\n']))
      (Text.index (definition name) (text ++ (body ++ [.char '\n'])) + 1)) =
      Text.lastIndex? sectionMark (Text.upTo text (Text.index (definition name) text + 1)) := by
    unfold Text.index
    cases found : Text.index? (definition name) text with
    | some place =>
      have bound := (Text.index?_eq_some_iff.mp found).1.bound (definition_ne_nil name)
      have positive := List.length_pos_iff.mpr (definition_ne_nil name)
      rw [Text.index?_append found (definition_ne_nil name),
        Text.upTo_append (by simp only [Text.signed]; omega) (by simp only [Text.signed]; omega)]
    | none =>
      -- the definition is neither in the sections nor across the line that ends the text
      have absent : Text.index? (definition name) (text ++ (body ++ [.char '\n'])) = none := by
        rw [Text.index?_eq_none_iff] at found ⊢
        intro inside
        rw [ends, List.append_assoc, List.singleton_append] at inside
        rcases Text.infix_across (line_definition line) inside with left | right
        · exact found (ends ▸ left.trans (List.prefix_append _ _).isInfix)
        · exact found (right.trans within)
      rw [absent]
      simp [Text.signed, Text.upTo, Text.bound]
  show Text.afterLast '.' (Text.beforeFirst '\n' (Text.since _ (Text.signed (Text.lastIndex? sectionMark _)))) =
    Text.afterLast '.' (Text.beforeFirst '\n' (Text.since _ (Text.signed (Text.lastIndex? sectionMark _))))
  rw [show ("def " : Text) ++ name ++ "(" = definition name from rfl, heading]
  cases found : Text.lastIndex? sectionMark (Text.upTo text (Text.index (definition name) text + 1)) with
  | none =>
    rw [ends, ← List.append_assoc, Text.since_last, Text.since_last]
  | some place =>
    have bound := Text.lastIndex?_bound found
    have short : (Text.upTo text (Text.index (definition name) text + 1)).length ≤ text.length := by
      rw [Text.upTo, List.length_take]
      omega
    have positive : 0 < sectionMark.length := by decide
    have inside : place ≤ text.length := by omega
    have length : text.length = (before ++ body).length + 1 := by simp [ends, Nat.add_assoc]
    have last : .char '\n' ∈ text.drop place := by
      rw [ends, List.drop_append_of_le_length (by omega)]
      simp
    rw [Text.since_place (by rw [List.length_append]; omega), Text.since_place inside,
      List.drop_append_of_le_length inside, Text.beforeFirst_marked last]

end

end Stub
end ApiDocs
