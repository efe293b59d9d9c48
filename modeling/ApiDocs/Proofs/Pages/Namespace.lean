import ApiDocs.Proofs.Pages.Layout
import ApiDocs.Proofs.StubBeside

/-! Dotted names of modules. The name of the library is looked for in its path from the left, so a dotted name begins
with all that follows the first place where the name is found, and this is the library's name if it is found at the end
only. -/

set_option autoImplicit false

namespace ApiDocs
open Text

theorem Text.length_join_congr {first second : Text} (same : first.length = second.length) (pieces : List Text) :
    (join first pieces).length = (join second pieces).length := by
  induction pieces with
  | nil => rfl
  | cons piece pieces ih =>
    cases pieces with
    | nil => rfl
    | cons next pieces => simp only [join, List.length_append, same, ih]

namespace Module

/-- The dotted name of a module has all names from where the library's name is found first. -/
theorem dotted_from_start {settings : Settings} (proper : Path.base settings.library ≠ []) {start : Nat}
    (found : index? (Path.base settings.library) settings.library = some start) {names : Place} {stem : Text}
    (named : ∀ name ∈ names ++ [stem ++ (".py" : Text)], Path.Named name) :
    Stub.dottedName settings names (stem ++ (".py" : Text)) =
      join "." (split "/" (settings.library.drop start) ++ (names ++ [stem])) := by
  obtain ⟨nonempty, bare⟩ := Path.open_of_base proper
  obtain ⟨_, _, free⟩ := Path.base_suffix settings.library
  obtain ⟨place, here, bound, locates⟩ := locate_start proper
  cases here.symm.trans found
  have inside : ∀ name ∈ names, Path.Named name := fun name member => named name (List.mem_append_left _ member)
  have stands : StandsAt (Path.base settings.library)
      (Path.walked settings.library (names ++ [stem ++ (".py" : Text)])) start := by
    rw [Path.walked_eq nonempty bare named]
    exact (index?_eq_some_iff.mp found).1.append _ (by omega)
  have enough := Nat.add_le_add_right (count_slice stands free) 1
  rw [Stub.dottedName, ← Path.walked_snoc]
  rw [Path.walked_eq nonempty bare inside, locates, Location.dotted_all (enough.trans (Nat.le_succ _)),
    split_slice_walked proper (by omega) named]

theorem drop_start_iff {settings : Settings} (proper : Path.base settings.library ≠ []) {start : Nat}
    (found : index? (Path.base settings.library) settings.library = some start) {rest : Place} (more : rest ≠ []) :
    join "." (split "/" (settings.library.drop start) ++ rest) = join "." (Path.base settings.library :: rest) ↔
      Rooted settings := by
  obtain ⟨lead, cut, free⟩ := Path.base_suffix settings.library
  have whole : lead.length + (Path.base settings.library).length = settings.library.length := by
    rw [← List.length_append, ← cut]
  have bound := (index?_eq_some_iff.mp found).1.bound proper
  have pieces : split "/" (settings.library.drop start) ≠ [] := splitSkipping_ne_nil _ _ _
  constructor
  · intro same
    -- dots in the place of slashes leave the length as it is
    rw [join_append "." pieces more, join_cons more] at same
    have first := List.append_cancel_right (List.append_cancel_right same)
    have length : (join "." (split "/" (settings.library.drop start))).length =
        (settings.library.drop start).length := by
      rw [length_join_congr (show (("." : Text)).length = ("/" : Text).length from rfl), join_split (by decide)]
    rw [first, List.length_drop] at length
    exact ⟨proper, by rw [found, length]; congr; omega⟩
  · intro rooted
    have start' : start = lead.length := by
      have same := Option.some.inj (found.symm.trans rooted.last)
      omega
    have tail : settings.library.drop start = Path.base settings.library := by
      have dropped := congrArg (List.drop lead.length) cut
      rwa [List.drop_left, ← start'] at dropped
    rw [tail, show split "/" (Path.base settings.library) = [Path.base settings.library] from split_free free]
    rfl

end Module

namespace Pages
open ApiDocs.Module

/-- The pages of a module and the section of its stubs go by one dotted name: the names from the first place of the
library's name in the path of the library on. These are the library's name and the names that lead from the library to
the module exactly if the library's name stands in its path at the end only. -/
theorem namespace_from_leftmost {settings : Settings} (proper : Path.base settings.library ≠ []) {names : Place}
    {stem : Text} (named : ∀ name ∈ names ++ [stem ++ (".py" : Text)], Path.Named name)
    (unstepped : (locate settings (Path.walked settings.library names)).relative
      (Path.walked settings.library (names ++ [stem ++ (".py" : Text)])) ∉ settings.stepped) :
    ∃ start target, index? (Path.base settings.library) settings.library = some start ∧
      (targets settings (locate settings (Path.walked settings.library names))
        (Path.walked settings.library (names ++ [stem ++ (".py" : Text)]))).getLast? = some target ∧
      target.dotted = Stub.dottedName settings names (stem ++ (".py" : Text)) ∧
      target.dotted = join "." (split "/" (settings.library.drop start) ++ (names ++ [stem])) ∧
      (target.dotted = join "." (Path.base settings.library :: (names ++ [stem])) ↔ Rooted settings) := by
  obtain ⟨start, found, _, _⟩ := locate_start proper
  have dotted := dotted_from_start proper found named
  have same : (locate settings (Path.walked settings.library names)).dotted
      ((locate settings (Path.walked settings.library names)).depth
        (Path.walked settings.library (names ++ [stem ++ (".py" : Text)])) + 2)
      (Path.walked settings.library (names ++ [stem ++ (".py" : Text)])) =
        Stub.dottedName settings names (stem ++ (".py" : Text)) := by
    rw [Stub.dottedName, ← Path.walked_snoc]
  refine ⟨start, _, found, getLast?_targets unstepped, same, same.trans dotted, ?_⟩
  show (locate settings _).dotted _ _ = _ ↔ _
  rw [same, dotted]
  exact drop_start_iff proper found (by simp)

def nestedSettings : Settings := { library := "../ivy/ivy" }

theorem namespace_from_leftmost_sample : ∃ target,
    (targets nestedSettings (locate nestedSettings (Path.walked nestedSettings.library [("array" : Text)]))
      (Path.walked nestedSettings.library ([("array" : Text)] ++ [("a" : Text) ++ (".py" : Text)]))).getLast? =
        some target ∧
    target.dotted = "ivy.ivy.array.a" ∧ ¬Rooted nestedSettings := by
  have named : ∀ name ∈ [("array" : Text)] ++ [("a" : Text) ++ (".py" : Text)], Path.Named name :=
    Path.named_of_all (by decide +kernel)
  have proper : Path.base nestedSettings.library ≠ [] := by decide +kernel
  obtain ⟨start, target, found, last, _, dotted, rooted⟩ := namespace_from_leftmost proper named (by decide +kernel)
  have first : index? (Path.base nestedSettings.library) nestedSettings.library = some 3 := by decide +kernel
  cases first.symm.trans found
  have whole : join "." (split "/" (nestedSettings.library.drop 3) ++ ([("array" : Text)] ++ [("a" : Text)])) =
      "ivy.ivy.array.a" := by
    decide +kernel
  refine ⟨target, last, dotted.trans whole, fun holds => ?_⟩
  have same := (dotted.trans whole).symm.trans (rooted.mpr holds)
  exact absurd same (by decide +kernel)

end Pages
end ApiDocs
