import ApiDocs.Proofs.Text.Pieces

/-! Lines and newlines. A newline ends what comes before it, so texts are read line by line as they are written,
whatever comes after a newline. -/

set_option autoImplicit false

namespace ApiDocs.Text

theorem infix_of_append {c : CodePoint} {part lead text : Text} (fresh : c ∉ lead)
    (found : c :: part <:+: lead ++ text) :
    c :: part <:+: text := by
  induction lead with
  | nil => exact found
  | cons d lead ih =>
    rcases List.infix_cons_iff.mp found with starts | later
    · exact absurd ((List.cons_prefix_cons.mp starts).1 ▸ List.mem_cons_self) fresh
    · exact ih (fun member => fresh (List.mem_cons_of_mem _ member)) later

theorem infix_of_mem_lines {text line : Text} (member : line ∈ lines text) : line <:+: text := by
  have inside := List.infix_of_mem_flatten member
  rwa [flatten_lines] at inside

theorem prefix_of_unifyNewlines {part text : Text} (line : .char '\n' ∉ part) (starts : part <+: unifyNewlines text) :
    part <+: text := by
  induction part generalizing text with
  | nil => exact List.nil_prefix
  | cons c part ih =>
    have differs : c ≠ .char '\n' := fun same => line (same ▸ List.mem_cons_self)
    have later := fun member => line (List.mem_cons_of_mem c member)
    unfold unifyNewlines at starts
    split at starts
    · exact starts
    · exact absurd (List.cons_prefix_cons.mp starts).1 differs
    · obtain ⟨same, rest⟩ := List.cons_prefix_cons.mp starts
      split at same
      · exact absurd same differs
      · exact List.cons_prefix_cons.mpr ⟨same, ih later rest⟩

theorem infix_of_unifyNewlines {part text : Text} (line : .char '\n' ∉ part) (found : part <:+: unifyNewlines text) :
    part <:+: text := by
  fun_induction unifyNewlines text with
  | case1 => exact found
  | case2 rest ih =>
    rcases List.infix_cons_iff.mp found with starts | later
    · cases part with
      | nil => exact List.nil_infix
      | cons c part => exact absurd ((List.cons_prefix_cons.mp starts).1 ▸ List.mem_cons_self) line
    · exact (ih later).trans ((List.suffix_cons _ _).trans (List.suffix_cons _ _)).isInfix
  | case3 c rest other ih =>
    rcases List.infix_cons_iff.mp found with starts | later
    · refine (@prefix_of_unifyNewlines part (c :: rest) line ?_).isInfix
      rw [unifyNewlines]
      · exact starts
      · exact other
    · exact (ih later).trans (List.suffix_cons _ _).isInfix

theorem mem_of_unifyNewlines {text : Text} {c : CodePoint} (line : c ≠ .char '\n') (member : c ∈ unifyNewlines text) :
    c ∈ text := by
  obtain ⟨before, after, eq⟩ := List.append_of_mem member
  have found : [c] <:+: unifyNewlines text := ⟨before, after, by rw [eq, List.append_assoc, List.singleton_append]⟩
  exact (infix_of_unifyNewlines (fun same => line (List.mem_singleton.mp same).symm) found).subset List.mem_cons_self

theorem unifyNewlines_cons {c : CodePoint} {rest : Text}
    (single : ∀ tail, c = .char '\r' → rest = .char '\n' :: tail → False) (inner : ¬(c = .char '\r' ∧ rest = []))
    (more : Text) :
    unifyNewlines (c :: (rest ++ more)) = (if c = .char '\r' then .char '\n' else c) :: unifyNewlines
      (rest ++ more) := by
  rw [unifyNewlines]
  rintro tail rfl eq
  cases rest with
  | nil => exact inner ⟨rfl, rfl⟩
  | cons d rest => exact single rest rfl (by rw [(List.cons.inj eq).1])

theorem unifyNewlines_newline (first second : Text) :
    unifyNewlines (first ++ .char '\n' :: second) = unifyNewlines (first ++ [.char '\n']) ++ unifyNewlines second := by
  fun_induction unifyNewlines first with
  | case1 => simp [unifyNewlines]
  | case2 rest ih => simp [unifyNewlines, ih]
  | case3 c rest single ih =>
    by_cases last : c = .char '\r' ∧ rest = []
    · obtain ⟨rfl, rfl⟩ := last
      simp [unifyNewlines]
    · rw [List.cons_append, List.cons_append, unifyNewlines_cons single last, unifyNewlines_cons single last, ih,
        List.cons_append]

theorem unifyNewlines_line (body : Text) : ∃ rest, unifyNewlines (body ++ [.char '\n']) = rest ++ [.char '\n'] := by
  fun_induction unifyNewlines body with
  | case1 => exact ⟨[], rfl⟩
  | case2 rest ih =>
    obtain ⟨more, eq⟩ := ih
    exact ⟨.char '\n' :: more, by simp only [List.cons_append, unifyNewlines, eq]⟩
  | case3 c rest single ih =>
    obtain ⟨more, eq⟩ := ih
    by_cases last : c = .char '\r' ∧ rest = []
    · obtain ⟨rfl, rfl⟩ := last
      exact ⟨[], rfl⟩
    · exact ⟨_ :: more, by rw [List.cons_append, unifyNewlines_cons single last, eq, List.cons_append]⟩

theorem lines_append (first second : Text) :
    lines (first ++ .char '\n' :: second) = lines (first ++ [.char '\n']) ++ lines second := by
  induction first with
  | nil => simp [lines]
  | cons c first ih =>
    by_cases newline : c = .char '\n'
    · simp [lines, newline, ih]
    · have proper : lines (first ++ [.char '\n']) ≠ [] := by
        intro none
        have whole := flatten_lines (first ++ [.char '\n'])
        simp [none] at whole
      rw [List.cons_append, lines, if_neg newline, ih, consFirst_append proper, List.cons_append, lines, if_neg newline]

theorem lines_after_newline (first second : Text) :
    lines (unifyNewlines (first ++ .char '\n' :: second)) =
      lines (unifyNewlines (first ++ [.char '\n'])) ++ lines (unifyNewlines second) := by
  obtain ⟨front, eq⟩ := unifyNewlines_line first
  rw [unifyNewlines_newline, eq, List.append_assoc, List.singleton_append, lines_append]

/-- Whole lines are read as they are, whatever comes after them. -/
theorem lines_wholeLines_append {whole : List Text} (each : ∀ line ∈ whole, WholeLine line) (rest : Text) :
    lines (unifyNewlines (whole.flatten ++ rest)) = whole ++ lines (unifyNewlines rest) := by
  induction whole with
  | nil => rfl
  | cons line whole ih =>
    have single : lines (unifyNewlines line) = [line] := by
      have alone := @lines_wholeLines [line] fun other member =>
        each other (List.mem_cons.mpr (.inl (List.mem_singleton.mp member)))
      rwa [List.flatten_singleton] at alone
    obtain ⟨body, -, -, rfl⟩ := each line List.mem_cons_self
    rw [List.flatten_cons, List.append_assoc, List.append_assoc, List.singleton_append, lines_after_newline, single,
      ih fun other member => each other (List.mem_cons_of_mem _ member), List.singleton_append, List.cons_append]

theorem lines_drop (text : Text) (count : Nat) : lines ((lines text).drop count).flatten = (lines text).drop count := by
  have tail : ∀ text, lines (lines text).tail.flatten = (lines text).tail := by
    intro text
    induction text with
    | nil => rfl
    | cons c rest ih =>
      rw [lines]
      split
      · rw [List.tail_cons, flatten_lines]
      · cases eq : lines rest with
        | nil => rfl
        | cons line others =>
          rw [eq] at ih
          exact ih
  induction count with
  | zero => rw [List.drop_zero, flatten_lines]
  | succ count ih => rw [← List.tail_drop, ← ih, tail]

end ApiDocs.Text
