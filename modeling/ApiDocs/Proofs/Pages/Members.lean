import ApiDocs.Proofs.Pages.Touched
import ApiDocs.Proofs.Text.Lines
import ApiDocs.Proofs.Text.Search
import ApiDocs.Proofs.Text.Unmarked

/-! Pages that list their members, line by line: the head of the page, the options of its table of contents and an entry
for each member. Only the entries have slashes, and only one line hides the table. -/

set_option autoImplicit false

namespace ApiDocs

open Text

namespace Pages

def memberPage (stem dotted : Text) (names : List Text) : Text :=
  header (replace "_" " " stem) dotted ++ Toctree.render none [(stem, names.map (· ++ (".rst" : Text)))]

/-- The page of a module lists its functions and classes, each as often as it is defined. -/
theorem modulePage_eq_memberPage (settings : Settings) (names : Place) (stem text : Text) :
    modulePage settings names stem text =
    memberPage stem (dottedName settings (names ++ [stem])) (Module.functionNames text ++ Module.classNames text) := rfl

/-- Names that can be listed one by one, and read again as they are. -/
structure Members (stem dotted : Text) (names : List Text) : Prop where
  proper : stem ≠ []
  start : stem.head? ≠ some (.char ' ')
  word : Unmarked stem
  path : Unmarked dotted
  each : ∀ name ∈ names, Unmarked name

def memberFile (stem name : Text) : Text := stem ++ "/" ++ name ++ ".rst"

def memberHead (stem dotted : Text) : List Text :=
  [capitalize (replace "_" " " stem), rule (replace "_" " " stem).length, [], ".. automodule:: " ++ dotted,
    "    :members:", "    :special-members: __init__", "    :undoc-members:", "    :show-inheritance:", [], [],
      ".. toctree::"]

def memberOptions (stem : Text) : List Text := ["   :maxdepth: -1", "   :caption: " ++ Toctree.caption none stem, []]

def ended (body : Text) : Text := body ++ "\n"

def memberLines (stem dotted : Text) (names : List Text) : List Text :=
  (memberHead stem dotted).map ended ++ ended "   :hidden:" :: ((memberOptions stem).map ended ++
    (names.map fun name => ended ("   " ++ memberFile stem name)) ++ [ended []])

/-- A line that lists no page and hides no table. -/
structure Quiet (body : Text) : Prop where
  newline : .char '\n' ∉ body
  slashless : .char '/' ∉ body
  shown : ¬(":hidden:" : Text) <:+: body

instance (body : Text) : Decidable (Quiet body) :=
  decidable_of_iff (.char '\n' ∉ body ∧ .char '/' ∉ body ∧ ¬mentions ":hidden:" body = true)
    ⟨fun ⟨newline, slashless, shown⟩ => ⟨newline, slashless, mt mentions_iff.mpr shown⟩,
      fun quiet => ⟨quiet.newline, quiet.slashless, mt mentions_iff.mp quiet.shown⟩⟩

theorem not_hidden {body : Text} (colonless : .char ':' ∉ body) : ¬(":hidden:" : Text) <:+: body :=
  fun found => colonless (found.subset (by decide))

theorem quiet_of_unmarked {body : Text} (unmarked : Unmarked body) : Quiet body :=
  ⟨unmarked.newline, unmarked.slashless, not_hidden unmarked.colonless⟩

theorem Quiet.blank {lead front body : Text} (cut : lead = front ++ [.char ' ']) (quiet : Quiet front)
    (unmarked : Unmarked body) :
    Quiet (lead ++ body) := by
  rw [cut, List.append_assoc, List.singleton_append]
  refine ⟨fun member => ?_, fun member => ?_, fun found => ?_⟩
  · rcases List.mem_append.mp member with before | later
    · exact quiet.newline before
    · exact (List.mem_cons.mp later).elim (by decide) unmarked.newline
  · rcases List.mem_append.mp member with before | later
    · exact quiet.slashless before
    · exact (List.mem_cons.mp later).elim (by decide) unmarked.slashless
  · exact (infix_across (by decide) found).elim quiet.shown (not_hidden unmarked.colonless)

theorem Quiet.ended {body : Text} (quiet : Quiet body) :
    .char '/' ∉ ended body ∧ ¬(":hidden:" : Text) <:+: ended body := by
  refine ⟨fun member => ?_, fun found => ?_⟩
  · exact (List.mem_append.mp member).elim quiet.slashless (by decide)
  · exact (infix_across (by decide) found).elim quiet.shown (by decide)

theorem flatten_head (stem dotted : Text) : ((memberHead stem dotted).map ended).flatten ++ ended "   :hidden:" =
    header (replace "_" " " stem) dotted ++ "\n\n.. toctree::\n   :hidden:\n" := by
  simp [memberHead, header, moduleDirective, ended, ofChars]

theorem flatten_options (stem : Text) : ((memberOptions stem).map ended).flatten =
    "   :maxdepth: -1\n   :caption: " ++ Toctree.caption none stem ++ "\n\n" := by
  simp [memberOptions, ended, ofChars]

section
variable {stem dotted : Text} {names : List Text} (members : Members stem dotted names)
include members

theorem Members.mark_of_entry {name : Text} (member : name ∈ names) {mark : CodePoint} (inside : mark ∈ marks)
    (found : mark ∈ ("   " : Text) ++ memberFile stem name) : mark = .char '/' := by
  have blank : ∀ mark ∈ marks, mark ∉ ("   " : Text) ∧ mark ∉ (".rst" : Text) := by decide
  simp only [memberFile, List.mem_append] at found
  rcases found with start | ((stem | slash) | name) | ending
  · exact absurd start (blank mark inside).1
  · exact absurd stem (members.word mark inside)
  · exact List.mem_singleton.mp slash
  · exact absurd name (members.each _ member mark inside)
  · exact absurd ending (blank mark inside).2

theorem Members.newline {name : Text} (member : name ∈ names) : .char '\n' ∉ ("   " : Text) ++ memberFile stem name :=
  fun found => absurd (members.mark_of_entry member (by decide) found) (by decide)

theorem Members.colonless {name : Text} (member : name ∈ names) :
    .char ':' ∉ ended ("   " ++ memberFile stem name) := by
  intro found
  rcases List.mem_append.mp found with inside | newline
  · exact absurd (members.mark_of_entry member (by decide) inside) (by decide)
  · exact absurd newline (by decide)

theorem Members.caption : Unmarked (Toctree.caption none stem) := by
  unfold Toctree.caption
  dsimp only
  split
  · decide
  · exact members.word.capitalize.replace (by decide) (by decide)

theorem Members.quiet_head : ∀ body ∈ memberHead stem dotted, Quiet body := by
  have title : Unmarked (capitalize (replace "_" " " stem)) := (members.word.replace (by decide) (by decide)).capitalize
  have rules : Unmarked (rule (replace "_" " " stem).length) := by
    have other : ∀ mark ∈ marks, mark ≠ .char '=' := by decide
    exact fun mark inside member => other mark inside (List.eq_of_mem_replicate member)
  have directive : Quiet (".. automodule:: " ++ dotted) :=
    @Quiet.blank _ ".. automodule::" dotted (by decide) (by decide) members.path
  have fixed : ∀ body ∈ ([[], "    :members:", "    :special-members: __init__", "    :undoc-members:",
      "    :show-inheritance:", ".. toctree::"] : List Text), Quiet body := by decide
  intro body member
  simp only [memberHead, List.mem_cons, List.not_mem_nil, or_false] at member fixed
  rcases member with rfl | rfl | rfl | rfl | rfl | rfl | rfl | rfl | rfl | rfl | rfl
  · exact quiet_of_unmarked title
  · exact quiet_of_unmarked rules
  · exact fixed _ (by simp)
  · exact directive
  all_goals exact fixed _ (by simp)

theorem Members.quiet_options : ∀ body ∈ memberOptions stem, Quiet body := by
  intro body member
  simp only [memberOptions, List.mem_cons, List.not_mem_nil, or_false] at member
  rcases member with rfl | rfl | rfl
  · decide
  · exact @Quiet.blank _ "   :caption:" _ (by decide) (by decide) members.caption
  · decide

theorem Members.line {name : Text} (member : name ∈ names) :
    ended ("   " ++ memberFile stem name) = Toctree.line stem (name ++ ".rst") := by
  have relative : (name ++ (".rst" : Text)).head? ≠ some (.char '/') := by
    cases name with
    | nil => decide
    | cons c name => exact fun slash => (members.each _ member).slashless (List.mem_of_head? slash)
  have bare : stem.getLast? ≠ some (.char '/') := fun slash => members.word.slashless (List.mem_of_getLast? slash)
  rw [Toctree.line, Path.join_open relative members.proper bare, memberFile, ended]
  simp only [List.append_assoc, List.cons_append]
  rfl

theorem Members.flatten : (memberLines stem dotted names).flatten = memberPage stem dotted names := by
  have entries : (names.map fun name => ended ("   " ++ memberFile stem name)).flatten =
      (names.map (· ++ (".rst" : Text))).flatMap (Toctree.line stem) := by
    rw [List.flatMap_map, List.flatMap_def, List.map_congr_left fun name member => members.line member]
  have block : Toctree.render none [(stem, names.map (· ++ (".rst" : Text)))] = "\n\n.. toctree::\n   :hidden:\n" ++
      ("   :maxdepth: -1\n   :caption: " ++ Toctree.caption none stem ++ "\n\n" ++
        (names.map (· ++ (".rst" : Text))).flatMap (Toctree.line stem) ++ "\n") := by
    simp [Toctree.render, Toctree.block, ofChars]
  rw [memberPage, block, ← List.append_assoc, ← flatten_head, ← flatten_options, ← entries]
  simp [memberLines, ended, ofChars]

theorem Members.lines_eq : lines (memberPage stem dotted names) = memberLines stem dotted names := by
  rw [← members.flatten]
  refine lines_flatten fun line member => ?_
  have quiet : ∀ bodies : List Text, (∀ body ∈ bodies, Quiet body) → line ∈ bodies.map ended →
      ∃ body : Text, .char '\n' ∉ body ∧ line = body ++ [.char '\n'] := by
    intro bodies each inside
    obtain ⟨body, own, rfl⟩ := List.mem_map.mp inside
    exact ⟨body, (each body own).newline, rfl⟩
  simp only [memberLines, List.mem_append, List.mem_cons, List.not_mem_nil, or_false] at member
  rcases member with head | rfl | (options | entry) | rfl
  · exact quiet _ members.quiet_head head
  · exact ⟨"   :hidden:", by decide, rfl⟩
  · exact quiet _ members.quiet_options options
  · obtain ⟨name, own, rfl⟩ := List.mem_map.mp entry
    exact ⟨_, members.newline own, rfl⟩
  · exact ⟨[], List.not_mem_nil, rfl⟩

end
end Pages
end ApiDocs
