import ApiDocs.Instance
import ApiDocs.Proofs.Text.Pieces
import ApiDocs.Support
import Mathlib.Data.List.Infix

/-! Names of static variants. Filing a method's page and looking a function up both drop the first word of a variant's
name, but they tell a variant in different ways: the one by the first word, the other by letters anywhere in the name.
So they agree on every name but those that have the letters and another first word. -/

set_option autoImplicit false

namespace ApiDocs

namespace Text

/-- The part of the text after the first `mark`, or nothing. -/
def afterFirst (mark : CodePoint) (text : Text) : Text := (text.dropWhile (· != mark)).tail

theorem split_words (mark : CodePoint) (text : Text) :
    ∃ others, split [mark] text = beforeFirst mark text :: others ∧ join [mark] others = afterFirst mark text := by
  induction text with
  | nil => exact ⟨[], rfl, rfl⟩
  | cons c rest ih =>
    obtain ⟨others, cut, joined⟩ := ih
    rw [split_cons]
    by_cases same : c = mark
    · refine ⟨split [mark] rest, ?_, ?_⟩
      · simp [beforeFirst, same]
      · rw [join_split (List.cons_ne_nil mark [])]
        simp [afterFirst, same]
    · refine ⟨others, ?_, ?_⟩
      · simp [beforeFirst, same, cut, consFirst]
      · simpa [afterFirst, same] using joined

theorem length_afterFirst_lt {text : Text} (proper : text ≠ []) (mark : CodePoint) :
    (afterFirst mark text).length < text.length := by
  have shorter := (List.dropWhile_suffix (l := text) (· != mark)).length_le
  have positive := List.length_pos_iff.mpr proper
  rw [afterFirst, List.length_tail]
  omega

end Text

open Text

theorem Instance.baseName_eq (name : Text) :
    Instance.baseName name = if beforeFirst '_' name = "static" then afterFirst '_' name else name := by
  obtain ⟨others, cut, joined⟩ := split_words '_' name
  have words : split "_" name = beforeFirst '_' name :: others := cut
  rw [Instance.baseName, words, ← joined]
  rfl

theorem Support.baseName_eq (name : Text) :
    Support.baseName name = if ("static" : Text) <:+: name then afterFirst '_' name else name := by
  obtain ⟨others, cut, joined⟩ := split_words '_' name
  have words : split "_" name = beforeFirst '_' name :: others := cut
  rw [Support.baseName, words, ← joined]
  by_cases variant : ("static" : Text) <:+: name
  · rw [if_pos variant, if_pos (mentions_iff.mpr variant)]
    rfl
  · rw [if_neg variant, if_neg (mentions_iff.not.mpr variant)]

/-- Filing drops a leading `static` and leaves every other name; looking up drops the first word of any name with these
letters; so the two agree exactly on the names that lead with the word if they have the letters at all. -/
theorem Support.baseName_agrees (name : Text) :
    Instance.baseName name = (if beforeFirst '_' name = "static" then afterFirst '_' name else name) ∧
      Support.baseName name = (if ("static" : Text) <:+: name then afterFirst '_' name else name) ∧
      (Support.baseName name = Instance.baseName name ↔
        (("static" : Text) <:+: name → beforeFirst '_' name = "static")) := by
  refine ⟨Instance.baseName_eq name, Support.baseName_eq name, ?_⟩
  rw [Instance.baseName_eq, Support.baseName_eq]
  by_cases leads : beforeFirst '_' name = "static"
  · have occurs : ("static" : Text) <:+: name := by
      rw [← leads]
      exact (List.takeWhile_prefix _).isInfix
    simp only [leads, occurs, if_true, imp_self]
  · by_cases occurs : ("static" : Text) <:+: name
    · -- what is left of the name is too short to be the name
      have proper : name ≠ [] := by
        rintro rfl
        exact absurd occurs (by decide)
      have shorter := length_afterFirst_lt proper '_'
      simp only [leads, occurs, if_true, if_false, true_imp_iff, iff_false]
      exact fun same => absurd (congrArg List.length same) (Nat.ne_of_lt shorter)
    · simp only [leads, occurs, if_false, false_imp_iff]

theorem Support.baseName_agrees_sample :
    Support.baseName "nonstatic_add" = "add" ∧
      Support.baseName "nonstatic_add" ≠ Instance.baseName "nonstatic_add" := by
  have occurs : ("static" : Text) <:+: ("nonstatic_add" : Text) := mentions_iff.mp (by decide)
  have other : beforeFirst '_' ("nonstatic_add" : Text) ≠ "static" := by decide
  have agree := (Support.baseName_agrees "nonstatic_add").2.2
  exact ⟨by decide, fun same => other (agree.mp same occurs)⟩

end ApiDocs
