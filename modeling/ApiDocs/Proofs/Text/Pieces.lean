import ApiDocs.Proofs.Text.Plain

/-! Cutting a text at a separator of one code point, and the part after the last one. -/

set_option autoImplicit false

namespace ApiDocs

namespace Text

theorem split_cons (mark c : CodePoint) (rest : Text) :
    split [mark] (c :: rest) =
      if c = mark then [] :: split [mark] rest else consFirst c (split [mark] rest) := by
  simp only [split, splitSkipping, List.length_singleton, Nat.sub_self]
  by_cases same : c = mark
  · simp [same]
  · have differs : ¬mark = c := fun eq => same eq.symm
    simp [same, differs]

theorem split_free {mark : CodePoint} {text : Text} (free : mark ∉ text) : split [mark] text = [text] := by
  induction text with
  | nil => rfl
  | cons c rest ih =>
    rw [List.mem_cons, not_or] at free
    rw [split_cons, if_neg (fun eq => free.1 eq.symm), ih free.2]
    rfl

theorem consFirst_append {c : CodePoint} {pieces more : List Text} (proper : pieces ≠ []) :
    consFirst c (pieces ++ more) = consFirst c pieces ++ more := by
  cases pieces with
  | nil => exact absurd rfl proper
  | cons piece pieces => rfl

theorem split_append (mark : CodePoint) (first second : Text) :
    split [mark] (first ++ mark :: second) = split [mark] first ++ split [mark] second := by
  induction first with
  | nil => rw [List.nil_append, split_cons, if_pos rfl]; rfl
  | cons c first ih =>
    rw [List.cons_append, split_cons, split_cons, ih]
    split
    · rfl
    · exact consFirst_append (splitSkipping_ne_nil _ _ _)

theorem split_noMark {mark : CodePoint} {text piece : Text} (member : piece ∈ split [mark] text) :
    mark ∉ piece := by
  induction text generalizing piece with
  | nil =>
    rw [List.mem_singleton.mp member]
    exact List.not_mem_nil
  | cons c rest ih =>
    rw [split_cons] at member
    split at member
    · rcases List.mem_cons.mp member with rfl | later
      · exact List.not_mem_nil
      · exact ih later
    · rename_i differs
      cases pieces : split [mark] rest with
      | nil => exact absurd pieces (splitSkipping_ne_nil _ _ _)
      | cons first others =>
        rw [pieces] at member ih
        rcases List.mem_cons.mp member with rfl | later
        · have free := ih List.mem_cons_self
          simp [free, Ne.symm differs]
        · exact ih (List.mem_cons_of_mem _ later)

theorem subset_of_mem_split {mark : CodePoint} {text piece : Text} (member : piece ∈ split [mark] text) :
    piece ⊆ text := by
  induction text generalizing piece with
  | nil =>
    rw [List.mem_singleton.mp member]
    exact List.nil_subset _
  | cons c rest ih =>
    rw [split_cons] at member
    split at member
    · rcases List.mem_cons.mp member with rfl | later
      · exact List.nil_subset _
      · exact List.Subset.trans (ih later) (List.subset_cons_self _ _)
    · cases pieces : split [mark] rest with
      | nil => exact absurd pieces (splitSkipping_ne_nil _ _ _)
      | cons first others =>
        rw [pieces] at member ih
        rcases List.mem_cons.mp member with rfl | later
        · exact List.cons_subset_cons c (ih List.mem_cons_self)
        · exact List.Subset.trans (ih (List.mem_cons_of_mem _ later)) (List.subset_cons_self _ _)

theorem line_cases {text line : Text} (member : line ∈ lines text) :
    ∃ body : Text, .char '\n' ∉ body ∧ (line = body ∨ line = body ++ [.char '\n']) := by
  induction text generalizing line with
  | nil => exact absurd member List.not_mem_nil
  | cons c rest ih =>
    rw [lines] at member
    split at member
    · rename_i newline
      rcases List.mem_cons.mp member with rfl | later
      · exact ⟨[], List.not_mem_nil, .inr (by rw [newline]; rfl)⟩
      · exact ih later
    · rename_i differs
      cases others : lines rest with
      | nil =>
        rw [others] at member
        rw [List.mem_singleton.mp member]
        exact ⟨[c], by simpa using Ne.symm differs, .inl rfl⟩
      | cons first others' =>
        rw [others] at member ih
        rcases List.mem_cons.mp member with rfl | later
        · obtain ⟨body, free, eq⟩ := ih List.mem_cons_self
          refine ⟨c :: body, by simp [free, Ne.symm differs], ?_⟩
          exact eq.imp (congrArg (List.cons c)) (congrArg (List.cons c))
        · exact ih (List.mem_cons_of_mem _ later)

theorem dropWhile_free {mark : CodePoint} {text : Text} (free : mark ∉ text) : text.dropWhile (· == mark) = text := by
  cases text with
  | nil => rfl
  | cons c text =>
    have differs : c ≠ mark := fun same => free (same ▸ List.mem_cons_self)
    exact List.dropWhile_cons_of_neg (by simpa using differs)

theorem trim_free {mark : CodePoint} {text : Text} (free : mark ∉ text) : trim mark text = text := by
  rw [trim, trimLeft, dropWhile_free free, dropWhile_free fun inside => free (List.mem_reverse.mp inside),
    List.reverse_reverse]

theorem trim_append {mark : CodePoint} {text : Text} (free : mark ∉ text) : trim mark (text ++ [mark]) = text := by
  cases text with
  | nil => simp [trim, trimLeft]
  | cons c text =>
    have differs : c ≠ mark := fun same => free (same ▸ List.mem_cons_self)
    have left : trimLeft mark ((c :: text) ++ [mark]) = (c :: text) ++ [mark] :=
      List.dropWhile_cons_of_neg (by simpa using differs)
    rw [trim, left, List.reverse_append, List.reverse_singleton, List.singleton_append, List.dropWhile_cons,
      beq_self_eq_true, if_pos rfl, dropWhile_free fun inside => free (List.mem_reverse.mp inside),
        List.reverse_reverse]

theorem trim_line {text line : Text} (member : line ∈ lines text) : .char '\n' ∉ trim '\n' line := by
  obtain ⟨body, free, rfl | rfl⟩ := line_cases member
  · rwa [trim_free free]
  · rwa [trim_append free]

theorem trim_subset (mark : CodePoint) (text : Text) : trim mark text ⊆ text := fun _ member =>
  (List.dropWhile_suffix _).subset (List.mem_reverse.mp ((List.dropWhile_suffix _).subset (List.mem_reverse.mp member)))

/-- Texts that each end with their only newline are the lines of the text that they make up. -/
theorem lines_flatten {pieces : List Text}
    (ended : ∀ piece ∈ pieces, ∃ body : Text, .char '\n' ∉ body ∧ piece = body ++ [.char '\n']) :
    lines pieces.flatten = pieces := by
  have single : ∀ body rest : Text, .char '\n' ∉ body →
      lines (body ++ .char '\n' :: rest) = (body ++ [.char '\n']) :: lines rest := by
    intro body rest free
    induction body with
    | nil => simp [lines]
    | cons c body ih =>
      have other : c ≠ .char '\n' := fun same => free (by rw [same]; exact List.mem_cons_self)
      rw [List.cons_append, lines, if_neg other, ih fun member => free (List.mem_cons_of_mem _ member)]
      rfl
  induction pieces with
  | nil => rfl
  | cons piece pieces ih =>
    obtain ⟨body, free, rfl⟩ := ended piece List.mem_cons_self
    rw [List.flatten_cons, List.append_assoc, List.singleton_append, single body _ free,
      ih fun other member => ended other (List.mem_cons_of_mem _ member)]

theorem unifyNewlines_free (text : Text) : .char '\r' ∉ unifyNewlines text := by
  fun_induction unifyNewlines text with
  | case1 => exact List.not_mem_nil
  | case2 rest ih => exact fun member => (List.mem_cons.mp member).elim (by decide) ih
  | case3 c rest other ih =>
    intro member
    rcases List.mem_cons.mp member with first | later
    · split at first
      · exact absurd first (by decide)
      · rename_i differs
        exact differs first.symm
    · exact ih later

theorem unifyNewlines_of_free {text : Text} (free : .char '\r' ∉ text) : unifyNewlines text = text := by
  fun_induction unifyNewlines text with
  | case1 => rfl
  | case2 rest ih => exact absurd List.mem_cons_self free
  | case3 c rest other ih =>
    have differs : c ≠ .char '\r' := fun same => free (by rw [same]; exact List.mem_cons_self)
    rw [if_neg differs, ih fun member => free (List.mem_cons_of_mem _ member)]

/-- A line that has come to its end, in the one form that is read. -/
def WholeLine (line : Text) : Prop := ∃ body : Text, .char '\n' ∉ body ∧ .char '\r' ∉ body ∧ line = body ++ [.char '\n']

theorem wholeLine_of_mem {text line : Text} (member : line ∈ lines (unifyNewlines text))
    (last : line.getLast? = some (.char '\n')) :
    WholeLine line := by
  have inside : line ⊆ unifyNewlines text := by
    rw [← flatten_lines (unifyNewlines text)]
    exact fun c point => List.mem_flatten.mpr ⟨line, member, point⟩
  obtain ⟨body, free, rfl | rfl⟩ := line_cases member
  · exact absurd (List.mem_of_getLast? last) free
  · refine ⟨body, free, fun carriage => unifyNewlines_free text (inside ?_), rfl⟩
    exact List.mem_append_left _ carriage

/-- Lines that have come to their ends are read back as they are. -/
theorem lines_wholeLines {pieces : List Text} (whole : ∀ piece ∈ pieces, WholeLine piece) :
    lines (unifyNewlines pieces.flatten) = pieces := by
  have free : .char '\r' ∉ pieces.flatten := by
    intro member
    obtain ⟨piece, inside, point⟩ := List.mem_flatten.mp member
    obtain ⟨body, _, bare, rfl⟩ := whole piece inside
    exact (List.mem_append.mp point).elim bare (by decide)
  rw [unifyNewlines_of_free free]
  apply lines_flatten
  intro piece inside
  obtain ⟨body, bare, _, eq⟩ := whole piece inside
  exact ⟨body, bare, eq⟩

theorem append_mark_inj {mark : CodePoint} {first second before after : Text} (left : mark ∉ first)
    (right : mark ∉ second) (same : first ++ mark :: before = second ++ mark :: after) :
    first = second ∧ before = after := by
  induction first generalizing second with
  | nil =>
    cases second with
    | nil => exact ⟨rfl, (List.cons.inj same).2⟩
    | cons c second => exact absurd ((List.cons.inj same).1 ▸ List.mem_cons_self) right
  | cons c first ih =>
    cases second with
    | nil => exact absurd ((List.cons.inj same).1 ▸ List.mem_cons_self) left
    | cons d second =>
      obtain ⟨rfl, rest⟩ := List.cons.inj same
      obtain ⟨rfl, rfl⟩ := ih (fun inside => left (List.mem_cons_of_mem _ inside))
        (fun inside => right (List.mem_cons_of_mem _ inside)) rest
      exact ⟨rfl, rfl⟩

theorem afterLast_free {mark : CodePoint} {text : Text} (free : mark ∉ text) : afterLast mark text = text := by
  have all : ∀ c ∈ text.reverse, (c != mark) = true := by
    intro c member
    have differs : c ≠ mark := fun eq => free (eq ▸ List.mem_reverse.mp member)
    simpa using differs
  rw [afterLast, ← List.append_nil text.reverse, List.takeWhile_append_of_pos all]
  simp

theorem afterLast_mark {mark : CodePoint} (lead : Text) {rest : Text} (free : mark ∉ rest) :
    afterLast mark (lead ++ mark :: rest) = rest := by
  rw [afterLast, List.reverse_append, List.reverse_cons, List.append_assoc, List.takeWhile_append_of_pos]
  · simp
  · intro c member
    have differs : c ≠ mark := fun eq => free (eq ▸ List.mem_reverse.mp member)
    simpa using differs

theorem beforeFirst_append {mark : CodePoint} {text : Text} (free : mark ∉ text) (rest : Text) :
    beforeFirst mark (text ++ mark :: rest) = text := by
  unfold beforeFirst
  rw [List.takeWhile_append_of_pos]
  · simp
  · intro c member
    simp only [bne_iff_ne]
    rintro rfl
    exact free member

theorem afterLast_spec (mark : CodePoint) (text : Text) :
    mark ∉ afterLast mark text ∧
      (text = afterLast mark text ∨ ∃ lead, text = lead ++ mark :: afterLast mark text) := by
  by_cases inside : mark ∈ text
  · obtain ⟨rest, lead, eq, free⟩ := List.eq_append_cons_of_mem (List.mem_reverse.mpr inside)
    have whole : text = lead.reverse ++ mark :: rest.reverse := by
      rw [← List.reverse_reverse text, eq]
      simp
    have bare : mark ∉ rest.reverse := fun member => free (List.mem_reverse.mp member)
    rw [whole, afterLast_mark _ bare]
    exact ⟨bare, .inr ⟨lead.reverse, rfl⟩⟩
  · rw [afterLast_free inside]
    exact ⟨inside, .inl rfl⟩

theorem suffix_afterLast {mark : CodePoint} {ending text : Text} (free : mark ∉ ending) (ends : ending <:+ text) :
    ending <:+ afterLast mark text := by
  obtain ⟨_, eq | ⟨lead, eq⟩⟩ := afterLast_spec mark text
  · rwa [← eq]
  · have whole : afterLast mark text <:+ text := ⟨lead ++ [mark], by rw [List.append_assoc]; exact eq.symm⟩
    rcases List.suffix_or_suffix_of_suffix ends whole with inner | outer
    · exact inner
    · have marked : mark :: afterLast mark text <:+ text := ⟨lead, eq.symm⟩
      have longer : ending.length ≤ (afterLast mark text).length := by
        refine Nat.le_of_not_lt fun short => ?_
        have within := List.suffix_of_suffix_length_le marked ends (by rw [List.length_cons]; exact short)
        exact free (within.subset List.mem_cons_self)
      exact List.suffix_of_suffix_length_le ends whole longer

theorem join_last (separator : Text) {pieces : List Text} (proper : pieces ≠ []) (last : Text) :
    join separator (pieces ++ [last]) = join separator pieces ++ separator ++ last := by
  induction pieces with
  | nil => exact absurd rfl proper
  | cons piece pieces ih =>
    cases pieces with
    | nil => rfl
    | cons next pieces =>
      show piece ++ separator ++ join separator (next :: pieces ++ [last]) = _
      rw [ih (List.cons_ne_nil _ _)]
      simp [join]

/-- Replacing keeps an ending that the new text has too, where no old text ends in the middle of it. -/
theorem suffix_replace {old new ending text : Text} (proper : old ≠ [])
    (fresh : ∀ c, old.getLast? = some c → c ∉ ending.dropLast) (kept : ending <:+ new) (ends : ending <:+ text) :
    ending <:+ replace old new text := by
  rw [replace, if_neg (by simpa using proper)]
  have whole := join_split proper text
  generalize split old text = pieces at whole ⊢
  rcases List.eq_nil_or_concat pieces with rfl | ⟨front, last, rfl⟩
  · rw [← whole] at ends
    exact ends
  by_cases alone : front = []
  · subst alone
    rw [← whole] at ends
    exact ends
  rw [List.concat_eq_append, join_last _ alone] at whole ⊢
  by_cases short : ending.length ≤ last.length
  · have inside := List.suffix_of_suffix_length_le ends ⟨_, whole⟩ short
    exact inside.trans (List.suffix_append _ _)
  -- the ending begins before the last piece, so an old text ends in it or at its end
  obtain ⟨lead, eq⟩ := List.suffix_of_suffix_length_le ⟨_, whole⟩ ends (Nat.le_of_not_le short)
  by_cases bare : last = []
  · subst bare
    rw [List.append_nil]
    exact kept.trans (List.suffix_append _ _)
  have nonempty : lead ≠ [] := by
    rintro rfl
    rw [← eq] at short
    exact short (Nat.le_refl _)
  have before : lead <:+ join old front ++ old := by
    obtain ⟨start, cut⟩ := ends
    refine ⟨start, ?_⟩
    rw [← whole, ← eq, ← List.append_assoc] at cut
    exact List.append_cancel_right cut
  obtain ⟨c, final⟩ := Option.isSome_iff_exists.mp (List.getLast?_isSome.mpr proper)
  have same : lead.getLast? = some c := by
    obtain ⟨start, cut⟩ := before
    have ends' := congrArg List.getLast? cut
    rw [List.getLast?_append, List.getLast?_append, final] at ends'
    cases found : lead.getLast? with
    | none => exact absurd (List.getLast?_eq_none_iff.mp found) nonempty
    | some d => rw [found] at ends'; simpa using ends'
  have member : c ∈ ending.dropLast := by
    rw [← eq, List.dropLast_append_of_ne_nil bare]
    exact List.mem_append_left _ (List.mem_of_getLast? same)
  exact absurd member (fresh c final)

theorem join_cons {separator piece : Text} {pieces : List Text} (more : pieces ≠ []) :
    join separator (piece :: pieces) = piece ++ separator ++ join separator pieces := by
  cases pieces with
  | nil => exact absurd rfl more
  | cons next pieces => rfl

theorem join_lead (separator lead rest : Text) (pieces : List Text) :
    join separator ((lead ++ rest) :: pieces) = lead ++ join separator (rest :: pieces) := by
  cases pieces with
  | nil => rfl
  | cons piece pieces => simp only [join, List.append_assoc]

theorem join_append (separator : Text) {first second : List Text} (left : first ≠ []) (right : second ≠ []) :
    join separator (first ++ second) = join separator first ++ separator ++ join separator second := by
  induction first with
  | nil => exact absurd rfl left
  | cons piece pieces ih =>
    cases pieces with
    | nil =>
      cases second with
      | nil => exact absurd rfl right
      | cons next more => rfl
    | cons next pieces =>
      have rest := ih (List.cons_ne_nil _ _)
      simp only [List.cons_append] at rest
      simp only [List.cons_append, join, rest, List.append_assoc]

theorem infix_join (separator : Text) {first second : List Text} (left : first ≠ []) (right : second ≠ [])
    (piece : Text) :
    separator ++ piece ++ separator <:+: join separator (first ++ piece :: second) := by
  refine ⟨join separator first, join separator second, ?_⟩
  rw [join_append separator left (List.cons_ne_nil _ _), show piece :: second = [piece] ++ second from rfl,
    join_append separator (List.cons_ne_nil _ _) right]
  simp [join]

theorem length_split (mark : CodePoint) (text : Text) : (split [mark] text).length = text.count mark + 1 := by
  induction text with
  | nil => rfl
  | cons c rest ih =>
    rw [split_cons]
    by_cases same : c = mark
    · rw [if_pos same, List.length_cons, ih, same, List.count_cons_self]
    · rw [if_neg same, List.count_cons_of_ne same]
      cases pieces : split [mark] rest with
      | nil => rw [pieces] at ih; cases ih
      | cons piece pieces' =>
        rw [pieces] at ih
        exact ih

theorem split_join {mark : CodePoint} {pieces : List Text} (proper : pieces ≠ [])
    (free : ∀ piece ∈ pieces, mark ∉ piece) :
    split [mark] (join [mark] pieces) = pieces := by
  induction pieces with
  | nil => exact absurd rfl proper
  | cons piece pieces ih =>
    have first := free piece List.mem_cons_self
    cases pieces with
    | nil => exact split_free first
    | cons next pieces =>
      have rest := ih (List.cons_ne_nil _ _) fun other member => free other (List.mem_cons_of_mem _ member)
      show split [mark] (piece ++ [mark] ++ join [mark] (next :: pieces)) = _
      rw [List.append_assoc, List.singleton_append, split_append, split_free first, rest]
      rfl

theorem not_prefix_append {c : CodePoint} {old text : Text} (fresh : c ∉ old) (proper : text ≠ [])
    (absent : ¬c :: old <+: text) (more : Text) : ¬c :: old <+: text ++ c :: more := by
  rintro ⟨rest, eq⟩
  rcases List.append_eq_append_iff.mp eq with ⟨between, inside, _⟩ | ⟨between, across, same⟩
  · exact absent ⟨between, inside.symm⟩
  · cases text with
    | nil => exact proper rfl
    | cons d text =>
      cases between with
      | nil => exact absent ⟨[], by rw [across, List.append_nil, List.append_nil]⟩
      | cons e between =>
        rw [(List.cons.inj across).2, (List.cons.inj same).1] at fresh
        exact fresh (List.mem_append_right _ List.mem_cons_self)

theorem replace_absent {c : CodePoint} {old text : Text} (fresh : c ∉ old) (absent : ¬c :: old <:+: text) (new : Text) :
    replace (c :: old) new text = text ∧ replace (c :: old) new (text ++ c :: old) = text ++ new := by
  have skip : ∀ rest : Text, splitSkipping (c :: old) rest.length rest = [[]] := by
    intro rest
    induction rest with
    | nil => rfl
    | cons d rest ih => exact ih
  have pieces : split (c :: old) text = [text] ∧ split (c :: old) (text ++ c :: old) = [text, []] := by
    induction text with
    | nil => simp [split, splitSkipping, skip]
    | cons d text ih =>
      obtain ⟨alone, ended⟩ := ih fun inside => absent (inside.trans (List.suffix_cons d text).isInfix)
      have first : (c :: old).isPrefixOf (d :: text) = false :=
        Bool.eq_false_iff.mpr fun starts => absent (List.isPrefixOf_iff_prefix.mp starts).isInfix
      have second : (c :: old).isPrefixOf (d :: (text ++ c :: old)) = false :=
        Bool.eq_false_iff.mpr fun starts => not_prefix_append fresh (List.cons_ne_nil d text)
          (fun inside => absent inside.isInfix) old (List.isPrefixOf_iff_prefix.mp starts)
      unfold split at alone ended ⊢
      rw [List.cons_append, splitSkipping, splitSkipping, first, second, alone, ended]
      exact ⟨rfl, rfl⟩
  simp [replace, pieces, join]

end Text

end ApiDocs
