import ApiDocs.Proofs.Text.Replace
import ApiDocs.Proofs.Text.Search

/-! Cutting a text at a separator of several characters. A piece does not hold the separator, the first piece ends at
the separator's leftmost place, and a separator that begins with a character of its own cuts wherever it stands. -/

set_option autoImplicit false

namespace ApiDocs.Text

section
variable {separator : Text}

theorem split_start (proper : separator ≠ []) (rest : Text) :
    split separator (separator ++ rest) = [] :: split separator rest := by
  obtain ⟨c, tail, rfl⟩ := List.exists_cons_of_ne_nil proper
  have starts : (c :: tail).isPrefixOf (c :: (tail ++ rest)) = true :=
    List.isPrefixOf_iff_prefix.mpr (List.prefix_append (c :: tail) rest)
  rw [List.cons_append, split, splitSkipping, if_pos starts, splitSkipping_eq_split]
  simp

theorem split_pass {c : CodePoint} {rest : Text} (absent : ¬separator <+: c :: rest) :
    split separator (c :: rest) = consFirst c (split separator rest) := by
  have differs : ¬separator.isPrefixOf (c :: rest) = true := fun starts => absent (List.isPrefixOf_iff_prefix.mp starts)
  rw [split, splitSkipping, if_neg differs]
  rfl

theorem split_ne_nil (separator text : Text) : split separator text ≠ [] := splitSkipping_ne_nil separator 0 text

theorem split_absent {text : Text} (absent : ¬separator <:+: text) : split separator text = [text] := by
  induction text with
  | nil => rfl
  | cons c rest ih =>
    rw [split_pass fun starts => absent starts.isInfix,
      ih fun later => absent (later.trans (List.suffix_cons c rest).isInfix)]
    rfl

theorem prefix_of_split {text first : Text} {others : List Text} (proper : separator ≠ [])
    (cut : split separator text = first :: others) : first <+: text := by
  have whole := join_split proper text
  rw [cut] at whole
  cases others with
  | nil => exact ⟨[], by rw [List.append_nil]; exact whole⟩
  | cons next others => exact ⟨separator ++ join separator (next :: others), by rw [← List.append_assoc]; exact whole⟩

theorem not_infix_of_mem_split (proper : separator ≠ []) {text piece : Text} (member : piece ∈ split separator text) :
    ¬separator <:+: piece := by
  induction text using replaced_induction proper generalizing piece with
  | nil =>
    obtain rfl := List.mem_singleton.mp member
    exact fun found => proper (List.eq_nil_of_infix_nil found)
  | start rest ih =>
    rw [split_start proper] at member
    rcases List.mem_cons.mp member with rfl | later
    · exact fun found => proper (List.eq_nil_of_infix_nil found)
    · exact ih later
  | cons c rest absent ih =>
    obtain ⟨first, others, cut⟩ := List.exists_cons_of_ne_nil (split_ne_nil separator rest)
    rw [split_pass absent, cut] at member
    rw [cut] at ih
    rcases List.mem_cons.mp member with rfl | later
    · rw [List.infix_cons_iff, not_or]
      refine ⟨fun starts => absent (starts.trans ?_), ih List.mem_cons_self⟩
      exact List.cons_prefix_cons.mpr ⟨rfl, prefix_of_split proper cut⟩
    · exact ih (List.mem_cons_of_mem first later)

theorem head_split (proper : separator ≠ []) {text first : Text} {others : List Text}
    (cut : split separator text = first :: others) :
    (index? separator text = none ∧ first = text) ∨ index? separator text = some first.length := by
  induction text using replaced_induction proper generalizing first with
  | nil =>
    cases cut
    exact .inl ⟨if_neg (by simpa using proper), rfl⟩
  | start rest _ =>
    rw [split_start proper] at cut
    cases cut
    exact .inr (index?_eq_some_iff.mpr ⟨standsAt_zero.mpr (List.prefix_append _ _), Nat.zero_le _, by simp⟩)
  | cons c rest absent ih =>
    obtain ⟨later, more, rest_cut⟩ := List.exists_cons_of_ne_nil (split_ne_nil separator rest)
    rw [split_pass absent, rest_cut] at cut
    cases cut
    rw [index?, if_neg (by rwa [List.isPrefixOf_iff_prefix])]
    rcases ih rest_cut with ⟨none, rfl⟩ | found
    · exact .inl ⟨by rw [none]; rfl, rfl⟩
    · exact .inr (by rw [found]; rfl)

end

theorem split_lead {c : CodePoint} {word lead rest first : Text} {others : List Text} (free : c ∉ lead)
    (cut : split (c :: word) rest = first :: others) :
    split (c :: word) (lead ++ rest) = (lead ++ first) :: others := by
  induction lead with
  | nil => exact cut
  | cons d lead ih =>
    have differs : ¬c :: word <+: d :: (lead ++ rest) := fun starts =>
      free (List.mem_cons.mpr (.inl (List.cons_prefix_cons.mp starts).1))
    rw [List.cons_append, split_pass differs, ih fun member => free (List.mem_cons_of_mem d member)]
    rfl

section
variable {c : CodePoint} {word : Text} (fresh : c ∉ word)
include fresh

/-- A separator cuts what is before it and what is after it apart from each other. -/
theorem split_separator (first second : Text) :
    split (c :: word) (first ++ (c :: word ++ second)) = split (c :: word) first ++ split (c :: word) second := by
  induction first using replaced_induction (List.cons_ne_nil c word) with
  | nil => exact split_start (List.cons_ne_nil c word) second
  | start rest ih =>
    rw [List.append_assoc, split_start (List.cons_ne_nil c word), ih, split_start (List.cons_ne_nil c word)]
    rfl
  | cons d rest absent ih =>
    have differs : ¬c :: word <+: d :: (rest ++ (c :: word ++ second)) :=
      not_prefix_append fresh (List.cons_ne_nil d rest) absent (word ++ second)
    rw [List.cons_append, split_pass differs, ih, split_pass absent, consFirst_append (split_ne_nil _ _)]

theorem split_first {text : Text} (absent : ¬c :: word <:+: text) (rest : Text) :
    split (c :: word) (text ++ (c :: word ++ rest)) = text :: split (c :: word) rest := by
  rw [split_separator fresh, split_absent absent]
  rfl

theorem split_before {text rest piece : Text} {others : List Text} (absent : ¬c :: word <:+: text)
    (cut : split (c :: word) (c :: rest) = piece :: others) :
    split (c :: word) (text ++ c :: rest) = (text ++ piece) :: others := by
  induction text with
  | nil => exact cut
  | cons d text ih =>
    have differs : ¬c :: word <+: d :: (text ++ c :: rest) :=
      not_prefix_append fresh (List.cons_ne_nil d text) (fun starts => absent starts.isInfix) rest
    rw [List.cons_append, split_pass differs, ih fun later => absent (later.trans (List.suffix_cons d text).isInfix)]
    rfl

end

theorem replace_mark_nil (mark : CodePoint) (text : Text) : replace [mark] [] text = text.filter (· ≠ mark) := by
  induction text with
  | nil => exact replace_nil (List.cons_ne_nil mark []) []
  | cons c rest ih =>
    by_cases same : c = mark
    · rw [same, List.filter_cons_of_neg (by simp), ← ih]
      exact replace_start (List.cons_ne_nil mark []) [] rest
    · have differs : ¬[mark] <+: c :: rest := fun starts => same (List.cons_prefix_cons.mp starts).1.symm
      rw [replace_cons (List.cons_ne_nil mark []) [] differs, List.filter_cons_of_pos (by simpa using same), ih]

end ApiDocs.Text
