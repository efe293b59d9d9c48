import ApiDocs.Html.Insertions
import ApiDocs.Proofs.Text.Independent

/-! Links to the pages of related libraries. The link of a library ends with the first point after its name, and what is
put in for it has nothing of a link, so the libraries may be gone through in any order. -/

set_option autoImplicit false

namespace ApiDocs.Html

open Text

/-- The link to a related library as it is built, and as it leads to the library's own pages. -/
def libraryLink (name : Text) : Rule where
  old := "docs/" ++ name ++ ".html"
  new := "../" ++ afterLast '_' name ++ "\""
  proper := List.append_ne_nil_of_left_ne_nil (List.append_ne_nil_of_left_ne_nil (by decide) name) _

theorem relinkModules_eq (names : List Text) (page : Text) :
    relinkModules names page = replaceEach (names.map libraryLink) page := by
  induction names generalizing page with
  | nil => rfl
  | cons name names ih => exact ih _

theorem libraryLink_old (name : Text) : (libraryLink name).old = ("docs/" : Text) ++ (name ++ (".html" : Text)) :=
  List.append_assoc _ _ _

theorem libraryLink_new (name : Text) : (libraryLink name).new =
    ("../" : Text) ++ (afterLast '_' name ++ [.char '"']) :=
  List.append_assoc _ _ _

section
variable {name : Text}

theorem tail_libraryLink (name : Text) :
    (libraryLink name).old.tail = ("ocs/" : Text) ++ (name ++ (".html" : Text)) := by
  rw [libraryLink_old]
  rfl

theorem tail_avoids_folder (slash : .char '/' ∉ name) : Avoids (libraryLink name).old.tail "docs/" := by
  have last : name ++ (".html" : Text) = (name ++ (".htm" : Text)) ++ [.char 'l'] := by
    rw [List.append_assoc]
    rfl
  have ending : Avoids (name ++ (".html" : Text)) "docs/" := by
    rw [last]
    exact .of_ending '/' (by decide) (by simp [slash, ofChars]) (by decide)
  rw [tail_libraryLink]
  exact Avoids.append (by decide) ending

theorem tail_avoids_points (point : .char '.' ∉ name) : Avoids (libraryLink name).old.tail ".." := by
  rw [tail_libraryLink]
  exact Avoids.append (by decide) (Avoids.append (.of_not_mem point _) (by decide))

theorem new_avoids_folder (slash : .char '/' ∉ name) : Avoids (libraryLink name).new "docs/" := by
  have bare : .char '/' ∉ afterLast '_' name := by
    rcases (afterLast_spec '_' name).2 with same | ⟨lead, whole⟩
    · rwa [← same]
    · exact fun inside => slash (by rw [whole]; simp [inside])
  rw [libraryLink_new]
  exact Avoids.append (by decide) (.of_ending '/' (by decide) (by simp [bare]) (by decide))

/-- Different names have different links, none of which begins another. -/
theorem libraryLink_inj {other : Text} (point : .char '.' ∉ name) (bare : .char '.' ∉ other)
    (starts : (libraryLink name).old <+: (libraryLink other).old) : name = other := by
  rw [libraryLink_old, libraryLink_old, List.prefix_append_right_inj] at starts
  obtain ⟨rest, whole⟩ := starts
  rw [List.append_assoc] at whole
  exact (append_mark_inj point bare whole).1

end

theorem independent_links {names : List Text} (bare : ∀ name ∈ names, .char '/' ∉ name ∧ .char '.' ∉ name) :
    Independent (names.map libraryLink) := by
  have folder : ∀ {part : Text}, Avoids part "docs/" → ∀ name : Text, Avoids part (libraryLink name).old := by
    intro part avoids name
    rw [libraryLink_old]
    exact avoids.longer _
  have points : ∀ {part : Text}, Avoids part ".." → ∀ name : Text, Avoids part (libraryLink name).new := by
    intro part avoids name
    rw [libraryLink_new]
    exact avoids.longer (.char '/' :: (afterLast '_' name ++ [.char '"']))
  constructor <;> simp only [List.forall_mem_map] <;> intro name member other known
  · exact fun starts => congrArg libraryLink (libraryLink_inj (bare name member).2 (bare other known).2 starts)
  · exact folder (tail_avoids_folder (bare name member).1) other
  · exact folder (new_avoids_folder (bare name member).1) other
  · exact points (tail_avoids_points (bare name member).2) other

/-- The links to related libraries are replaced all at once, whatever the order of the libraries, and none is left. -/
theorem relinkModules_at_once {names : List Text} (bare : ∀ name ∈ names, .char '/' ∉ name ∧ .char '.' ∉ name)
    (page : Text) :
    (∀ others : List Text, others.Perm names → relinkModules others page = relinkModules names page) ∧
      (∃ edits, relinkModules names page = patch page edits ∧ Apart page 0 edits ∧
        ∀ edit, edit ∈ edits ↔ ∃ name ∈ names, StandsAt ("docs/" ++ name ++ ".html") page edit.start ∧
          edit.stop = edit.start + ("docs/" ++ name ++ ".html" : Text).length ∧
          edit.new = "../" ++ afterLast '_' name ++ "\"") ∧
      ∀ name ∈ names, ¬("docs/" ++ name ++ ".html" : Text) <:+: relinkModules names page := by
  have independent := independent_links bare
  have pass : relinkModules names page = substitute (names.map libraryLink) page := by
    rw [relinkModules_eq, independent.replaceEach_eq]
  obtain ⟨apart, whole⟩ := independent.substitute_eq_patch page
  refine ⟨fun others perm => ?_, ⟨_, pass.trans whole, apart, fun edit => ?_⟩, fun name member => ?_⟩
  · have among := independent.of_subset fun rule member => ((perm.map libraryLink).mem_iff).mp member
    rw [pass, relinkModules_eq, among.replaceEach_eq, independent.substitute_perm (perm.map libraryLink)]
  · rw [independent.mem_occurrences]
    simp only [List.mem_map, exists_exists_and_eq_and]
    rfl
  · rw [pass]
    exact independent.not_infix_substitute (List.mem_map_of_mem member) page

def libraries : List Text := ["a", "a_b", ""]

theorem relinkModules_at_once_sample :
    relinkModules libraries "docs/a_b.html docs/docs/.html docs/a.htm" = "../b\" docs/../\" docs/a.htm" ∧
      relinkModules libraries.reverse "docs/a_b.html docs/docs/.html docs/a.htm" =
        relinkModules libraries "docs/a_b.html docs/docs/.html docs/a.htm" := by
  have bare : ∀ name ∈ libraries, .char '/' ∉ name ∧ .char '.' ∉ name := by decide
  obtain ⟨orders, _⟩ := relinkModules_at_once bare "docs/a_b.html docs/docs/.html docs/a.htm"
  exact ⟨by decide +kernel, orders _ libraries.reverse_perm⟩

end ApiDocs.Html
