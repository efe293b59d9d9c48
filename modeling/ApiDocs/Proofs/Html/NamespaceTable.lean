import ApiDocs.Html.Namespaces
import Mathlib.Data.List.Infix

/-! Which entries of a table of namespaces count. The first entry whose key occurs in a name is shown, so an entry is
never reached if an earlier key occurs in its own, and a table may be cleared of such entries. The order of a table
matters only to names that hold keys of different values. -/

set_option autoImplicit false

namespace ApiDocs.Html

open Text

section
variable {α : Type} {name : Text}

theorem permitted?_append (first second : Table Text α) :
    permitted? (first ++ second) name = (permitted? first name).or (permitted? second name) := by
  rw [permitted?, List.find?_append, Option.map_or]
  rfl

theorem permitted?_cons_of_occurs {key : Text} {value : α} {entries : Table Text α} (occurs : key <:+: name) :
    permitted? ((key, value) :: entries) name = some value := by
  simp [permitted?, mentions_iff.mpr occurs]

theorem permitted?_cons_of_absent {key : Text} {value : α} {entries : Table Text α} (absent : ¬key <:+: name) :
    permitted? ((key, value) :: entries) name = permitted? entries name := by
  simp [permitted?, mentions_iff, absent]

theorem permitted?_eq_none_iff {table : Table Text α} :
    permitted? table name = none ↔ ∀ entry ∈ table, ¬entry.1 <:+: name := by
  simp only [permitted?, Option.map_eq_none_iff, List.find?_eq_none, mentions_iff]

theorem exists_of_permitted? {table : Table Text α} {value : α} (found : permitted? table name = some value) :
    ∃ entry ∈ table, entry.1 <:+: name ∧ entry.2 = value := by
  obtain ⟨entry, first, same⟩ := Option.map_eq_some_iff.mp found
  have occurs : mentions entry.1 name = true := by simpa using List.find?_some first
  exact ⟨entry, List.mem_of_find?_eq_some first, mentions_iff.mp occurs, same⟩

end

/-- The entry of a key between others is the one that is shown for a name: its value is shown, whatever the value is. -/
def Decides (before : Table Text Json) (key : Text) (after : Table Text Json) (name : Text) : Prop :=
  ∀ value, trimNamespace (.object (before ++ (key, value) :: after)) name = .ok value

/-- An entry decides about a name exactly if its key occurs there, and no earlier one does. -/
theorem decides_iff {before after : Table Text Json} {key name : Text} :
    Decides before key after name ↔ key <:+: name ∧ ∀ earlier ∈ before, ¬earlier.1 <:+: name := by
  constructor
  · intro decides
    -- what is shown without regard to the entry is the same for any two values of it
    have varies : ∀ shown : Json, ¬∀ value, (Except.ok shown : Except Fault Json) = .ok value := by
      intro shown same
      cases (same .null).symm.trans (same (.bool true))
    simp only [Decides, trimNamespace, permitted?_append] at decides
    cases earlier : permitted? before name with
    | some shown =>
      rw [earlier] at decides
      exact absurd decides (varies shown)
    | none =>
      refine ⟨?_, permitted?_eq_none_iff.mp earlier⟩
      by_contra absent
      simp only [earlier, Option.none_or, permitted?_cons_of_absent absent] at decides
      exact varies _ decides
  · rintro ⟨occurs, unreached⟩ value
    rw [trimNamespace, permitted?_append, permitted?_eq_none_iff.mpr unreached, permitted?_cons_of_occurs occurs]
    rfl

/-- Some name is decided by an entry exactly if no earlier key occurs in the entry's own: the key is such a name
then. -/
theorem exists_decides_iff {before after : Table Text Json} {key : Text} :
    (∃ name, Decides before key after name) ↔ ∀ earlier ∈ before, ¬earlier.1 <:+: key := by
  simp only [decides_iff]
  constructor
  · rintro ⟨name, occurs, unreached⟩ earlier member inside
    exact unreached earlier member (inside.trans occurs)
  · exact fun unreached => ⟨key, List.infix_rfl, unreached⟩

/-- The entries of a table in whose keys no earlier key occurs. -/
def live {α : Type} : Table Text α → Table Text α
  | [] => []
  | entry :: entries => entry :: (live entries).filter fun later => !mentions entry.1 later.1

theorem permitted?_live {α : Type} (table : Table Text α) (name : Text) :
    permitted? (live table) name = permitted? table name := by
  induction table with
  | nil => rfl
  | cons entry entries ih =>
    obtain ⟨key, value⟩ := entry
    rw [live]
    by_cases occurs : key <:+: name
    · rw [permitted?_cons_of_occurs occurs, permitted?_cons_of_occurs occurs]
    · -- a key that holds this one does not occur in the name either
      have kept : (fun later : Text × α => decide ((!mentions key later.1) = true ∧ mentions later.1 name = true)) =
          fun later => mentions later.1 name := by
        funext later
        rw [Bool.eq_iff_iff, decide_eq_true_iff, Bool.not_eq_true', ← Bool.not_eq_true, mentions_iff, mentions_iff]
        exact and_iff_right_of_imp fun found inside => occurs (inside.trans found)
      rw [permitted?_cons_of_absent occurs, permitted?_cons_of_absent occurs, ← ih, permitted?, List.find?_filter, kept]
      rfl

theorem permitted?_perm {α : Type} {table other : Table Text α} {name : Text}
    (agree : ∀ first ∈ table, ∀ second ∈ table, first.1 <:+: name → second.1 <:+: name → first.2 = second.2)
    (perm : other.Perm table) : permitted? other name = permitted? table name := by
  cases found : permitted? table name with
  | none => exact permitted?_eq_none_iff.mpr fun entry member => permitted?_eq_none_iff.mp found entry (perm.mem_iff.mp
    member)
  | some value =>
    obtain ⟨entry, member, occurs, rfl⟩ := exists_of_permitted? found
    cases reached : permitted? other name with
    | none => exact absurd occurs (permitted?_eq_none_iff.mp reached entry (perm.mem_iff.mpr member))
    | some value =>
      obtain ⟨rival, among, inside, rfl⟩ := exists_of_permitted? reached
      rw [agree rival (perm.mem_iff.mp among) entry member inside occurs]

/-- An entry counts for some name exactly if no earlier key occurs in its own; without the other entries every name is
shown as before, and a name whose keys have one value is shown alike in every order. -/
theorem trimNamespace_live_entries (table : Table Text Json) :
    (∀ before key value after, table = before ++ (key, value) :: after →
        ((∃ name, Decides before key after name) ↔ ∀ earlier ∈ before, ¬earlier.1 <:+: key)) ∧
      (∀ name, trimNamespace (.object (live table)) name = trimNamespace (.object table) name) ∧
      ∀ name, (∀ first ∈ table, ∀ second ∈ table, first.1 <:+: name → second.1 <:+: name → first.2 = second.2) →
        ∀ other : Table Text Json, other.Perm table →
          trimNamespace (.object other) name = trimNamespace (.object table) name := by
  refine ⟨fun before key value after _ => exists_decides_iff, fun name => ?_, fun name agree other perm => ?_⟩
  · rw [trimNamespace, trimNamespace, permitted?_live]
  · rw [trimNamespace, trimNamespace, permitted?_perm agree perm]

def overlapping : Table Text Json := [("ivy", .text "i"), ("ivy.f", .text "i"), ("torch", .text "t")]

theorem trimNamespace_live_entries_sample :
    (∃ name, Decides (overlapping.take 2) "torch" [] name) ∧
      (¬∃ name, Decides (overlapping.take 1) "ivy.f" (overlapping.drop 2) name) ∧
      trimNamespace (.object overlapping.reverse) "ivy.f.g" = trimNamespace (.object overlapping) "ivy.f.g" := by
  obtain ⟨reached, _, ordered⟩ := trimNamespace_live_entries overlapping
  have agree : ∀ entry ∈ overlapping, entry.1 <:+: ("ivy.f.g" : Text) → entry.2 = .text "i" := by
    intro entry member occurs
    simp only [overlapping, List.mem_cons, List.not_mem_nil, or_false] at member
    rcases member with rfl | rfl | rfl
    · rfl
    · rfl
    · exact absurd occurs (by decide)
  refine ⟨(reached _ "torch" _ [] rfl).mpr (by decide), fun found => ?_, ?_⟩
  · exact (reached (overlapping.take 1) "ivy.f" _ _ rfl).mp found _ List.mem_cons_self (by decide)
  · refine ordered "ivy.f.g" (fun first member second among inside occurs => ?_) _ overlapping.reverse_perm
    rw [agree first member inside, agree second among occurs]

end ApiDocs.Html
