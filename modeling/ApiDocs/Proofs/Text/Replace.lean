import ApiDocs.Proofs.Text.Pieces

/-! Replacing from left to right: what stands at the start goes first, and a text without what is replaced is passed
over. -/

set_option autoImplicit false

namespace ApiDocs.Text

theorem splitSkipping_eq_split (separator : Text) (skip : Nat) (text : Text) :
    splitSkipping separator skip text = split separator (text.drop skip) := by
  induction text generalizing skip with
  | nil => cases skip <;> rfl
  | cons c rest ih =>
    cases skip with
    | zero => rfl
    | succ skip => exact ih skip

/-- A text is gone through as it is for replacing: over what is replaced, or over one character. -/
theorem replaced_induction {old : Text} (proper : old ≠ []) {motive : Text → Prop} (nil : motive [])
    (start : ∀ rest, motive rest → motive (old ++ rest))
    (cons : ∀ c rest, ¬old <+: c :: rest → motive rest → motive (c :: rest)) (text : Text) : motive text := by
  induction size : text.length using Nat.strongRecOn generalizing text with
  | _ length ih =>
    cases text with
    | nil => exact nil
    | cons c rest =>
      by_cases starts : old <+: c :: rest
      · obtain ⟨more, whole⟩ := starts
        have shorter : more.length < length := by
          have sizes := congrArg List.length whole
          have positive := List.length_pos_iff.mpr proper
          rw [List.length_append, size] at sizes
          omega
        rw [← whole]
        exact start more (ih _ shorter more rfl)
      · exact cons c rest starts (ih _ (by rw [← size]; exact Nat.lt_succ_self _) rest rfl)

section
variable {old : Text} (proper : old ≠ []) (new : Text)
include proper

theorem replace_eq_join (text : Text) : replace old new text = join new (split old text) := by
  rw [replace, if_neg (by simpa using proper)]

theorem replace_nil : replace old new [] = [] := by
  rw [replace_eq_join proper]
  rfl

theorem replace_start (rest : Text) : replace old new (old ++ rest) = new ++ replace old new rest := by
  obtain ⟨c, tail, rfl⟩ := List.exists_cons_of_ne_nil proper
  have starts : (c :: tail).isPrefixOf (c :: (tail ++ rest)) = true :=
    List.isPrefixOf_iff_prefix.mpr (List.prefix_append (c :: tail) rest)
  rw [replace_eq_join proper, replace_eq_join proper, List.cons_append, split, splitSkipping, if_pos starts,
    join_nil_cons _ (splitSkipping_ne_nil _ _ _), splitSkipping_eq_split]
  simp

theorem replace_cons {c : CodePoint} {rest : Text} (absent : ¬old <+: c :: rest) :
    replace old new (c :: rest) = c :: replace old new rest := by
  have differs : ¬old.isPrefixOf (c :: rest) = true := fun starts => absent (List.isPrefixOf_iff_prefix.mp starts)
  rw [replace_eq_join proper, replace_eq_join proper, split, splitSkipping, if_neg differs, join_consFirst]
  rfl

theorem mem_replace {text : Text} {c : CodePoint} (member : c ∈ replace old new text) : c ∈ new ∨ c ∈ text := by
  induction text using replaced_induction proper with
  | nil => exact .inr (replace_nil proper new ▸ member)
  | start rest ih =>
    rw [replace_start proper new, List.mem_append] at member
    rw [List.mem_append]
    exact member.elim .inl fun later => (ih later).imp_right .inr
  | cons d rest absent ih =>
    rw [replace_cons proper new absent, List.mem_cons] at member
    rw [List.mem_cons]
    exact member.elim (fun same => .inr (.inl same)) fun later => (ih later).imp_right .inr

theorem mem_of_replace {text : Text} {c : CodePoint} (member : c ∈ text) : c ∈ old ∨ c ∈ replace old new text := by
  induction text using replaced_induction proper with
  | nil => cases member
  | start rest ih =>
    rw [replace_start proper new, List.mem_append]
    exact (List.mem_append.mp member).elim .inl fun later => (ih later).imp_right .inr
  | cons d rest absent ih =>
    rw [replace_cons proper new absent, List.mem_cons]
    exact (List.mem_cons.mp member).elim (fun same => .inr (.inl same)) fun later => (ih later).imp_right .inr

theorem replace_of_not_infix {text : Text} (absent : ¬old <:+: text) : replace old new text = text := by
  induction text using replaced_induction proper with
  | nil => exact replace_nil proper new
  | start rest _ => exact absurd (List.prefix_append old rest).isInfix absent
  | cons c rest starts ih =>
    rw [replace_cons proper new starts, ih fun later => absent (later.trans (List.suffix_cons c rest).isInfix)]

theorem infix_replace {text : Text} (found : old <:+: text) : new <:+: replace old new text := by
  induction text using replaced_induction proper with
  | nil => exact absurd (List.eq_nil_of_infix_nil found) proper
  | start rest _ =>
    rw [replace_start proper new]
    exact (List.prefix_append new _).isInfix
  | cons c rest starts ih =>
    rw [replace_cons proper new starts]
    have later := (List.infix_cons_iff.mp found).resolve_left starts
    exact (ih later).trans (List.suffix_cons c _).isInfix

end

theorem replace_first {c : CodePoint} {old text : Text} (fresh : c ∉ old) (absent : ¬c :: old <:+: text)
    (new rest : Text) :
    replace (c :: old) new (text ++ (c :: old ++ rest)) = text ++ new ++ replace (c :: old) new rest := by
  induction text with
  | nil => exact replace_start (List.cons_ne_nil c old) new rest
  | cons d text ih =>
    have apart : ¬c :: old <+: d :: text ++ (c :: old ++ rest) :=
      not_prefix_append fresh (List.cons_ne_nil d text) (fun starts => absent starts.isInfix) (old ++ rest)
    rw [List.cons_append] at apart ⊢
    rw [replace_cons (List.cons_ne_nil c old) new apart,
      ih fun inside => absent (inside.trans (List.suffix_cons d text).isInfix)]
    rfl

theorem prefix_of_mark {part first second : Text} {mark : CodePoint} (free : mark ∉ part)
    (starts : part <+: first ++ mark :: second) :
    part <+: first := by
  rcases List.prefix_or_prefix_of_prefix starts (List.prefix_append first (mark :: second)) with inside | ⟨tail, rfl⟩
  · exact inside
  · cases tail with
    | nil => simp
    | cons c tail =>
      have next : c :: tail <+: mark :: second := (List.prefix_append_right_inj first).mp starts
      exact absurd (by simp [(List.cons_prefix_cons.mp next).1]) free

/-- A mark that is not replaced keeps apart what is before it and after it. -/
theorem replace_mark {old : Text} (proper : old ≠ []) {mark : CodePoint} (free : mark ∉ old) (new first second : Text) :
    replace old new (first ++ mark :: second) = replace old new first ++ mark :: replace old new second := by
  induction first using replaced_induction proper with
  | nil =>
    have apart : ¬old <+: mark :: second :=
      fun starts => proper (List.prefix_nil.mp (@prefix_of_mark old [] second mark free starts))
    rw [List.nil_append, replace_cons proper new apart, replace_nil proper, List.nil_append]
  | start rest ih => rw [List.append_assoc, replace_start proper, replace_start proper, ih, List.append_assoc]
  | cons c rest absent ih =>
    have apart : ¬old <+: c :: (rest ++ mark :: second) := fun longer =>
      absent (@prefix_of_mark old (c :: rest) second mark free longer)
    rw [List.cons_append, replace_cons proper new apart, ih, replace_cons proper new absent, List.cons_append]

theorem replace_names {old : Text} (proper : old ≠ []) (free : .char '/' ∉ old) (new : Text) (names : List Text) :
    replace old new (join "/" names) = join "/" (names.map (replace old new)) := by
  induction names with
  | nil => exact replace_nil proper new
  | cons name names ih =>
    cases names with
    | nil => rfl
    | cons next names =>
      have cut : ∀ lead rest : Text, lead ++ ("/" : Text) ++ rest = lead ++ .char '/' :: rest :=
        fun lead rest => by simp [ofChars]
      rw [join_cons (List.cons_ne_nil _ _), cut, replace_mark proper free, ih, ← cut]
      rfl

section
variable {old : Text} (proper : old ≠ []) {new : Text}
include proper

theorem prefix_of_replace {part rest text : Text} (filled : new ≠ []) (fresh : ∀ c, new.head? = some c → c ∉ part)
    (starts : replace old new text = part ++ rest) : ∃ more, text = part ++ more ∧ rest = replace old new more := by
  induction part generalizing text with
  | nil => exact ⟨text, rfl, starts.symm⟩
  | cons c part ih =>
    induction text using replaced_induction proper with
    | nil => rw [replace_nil proper] at starts; cases starts
    | start text _ =>
      obtain ⟨d, new, rfl⟩ := List.exists_cons_of_ne_nil filled
      rw [replace_start proper] at starts
      exact absurd List.mem_cons_self ((List.cons.inj starts).1 ▸ fresh d rfl)
    | cons d text absent _ =>
      rw [replace_cons proper new absent] at starts
      obtain ⟨rfl, next⟩ := List.cons.inj starts
      obtain ⟨more, rfl, same⟩ := ih (fun e head member => fresh e head (List.mem_cons_of_mem _ member)) next
      exact ⟨more, rfl, same⟩

theorem replace_unchanged {text : Text} (absent : ¬new <:+: replace old new text) : replace old new text = text := by
  induction text using replaced_induction proper with
  | nil => exact replace_nil proper new
  | start rest _ =>
    rw [replace_start proper] at absent
    exact absurd (List.prefix_append _ _).isInfix absent
  | cons c rest apart ih =>
    rw [replace_cons proper new apart] at absent ⊢
    rw [ih fun inside => absent (inside.trans (List.suffix_cons _ _).isInfix)]

theorem suffix_of_replace {ending text : Text} (apart : ∀ last, last ≠ [] → last <:+ new → ¬last <+: ending)
    (absent : ¬new <:+: ending) (ends : ending <:+ replace old new text) : ending <:+ text := by
  induction text using replaced_induction proper with
  | nil => rwa [replace_nil proper] at ends
  | start rest ih =>
    rw [replace_start proper] at ends
    rcases List.suffix_or_suffix_of_suffix ends (List.suffix_append new (replace old new rest)) with inside | ⟨last,
      rfl⟩
    · exact (ih inside).trans (List.suffix_append _ _)
    · by_cases whole : last = []
      · rw [whole, List.nil_append] at ih ⊢
        exact (ih (List.suffix_refl _)).trans (List.suffix_append _ _)
      · exact absurd (List.prefix_append last _)
          (apart last whole ((List.suffix_append_inj_of_length_eq rfl).mp ends).1)
  | cons c rest different ih =>
    rw [replace_cons proper new different] at ends
    rcases List.suffix_cons_iff.mp ends with rfl | inside
    · have same := replace_unchanged proper fun inside => absent (inside.trans (List.suffix_cons _ _).isInfix)
      exact same.symm ▸ List.suffix_refl _
    · exact (ih inside).trans (List.suffix_cons _ _)

end

theorem part_cases {c : CodePoint} {part lead rest before after : Text} (fresh : c ∉ part) (free : c ∉ lead)
    (eq : lead ++ c :: (part ++ rest) = before ++ c :: (part ++ after)) :
    before = lead ∧ after = rest ∨ ∃ deep, before = lead ++ c :: (part ++ deep) ∧
      rest = deep ++ c :: (part ++ after) := by
  obtain ⟨later, rfl, start⟩ | ⟨more, same, start⟩ := List.append_eq_append_iff.mp eq
  · cases later with
    | nil => exact .inl (by simpa using start.symm)
    | cons d later =>
      obtain ⟨rfl, next⟩ := List.cons.inj start
      obtain ⟨deep, rfl, inner⟩ | ⟨more, cut, inner⟩ := List.append_eq_append_iff.mp next
      · exact .inr ⟨deep, rfl, inner⟩
      · cases more with
        | nil => exact .inr ⟨[], by simpa using cut.symm, inner.symm⟩
        | cons e more => exact absurd (by rw [cut, ← (List.cons.inj inner).1]; simp) fresh
  · cases more with
    | nil => exact .inl (by simpa [same] using start)
    | cons e more => exact absurd (by rw [same, ← (List.cons.inj start).1]; simp) free

/-- A part that ends both what is replaced and what is put in stands afterwards where the one was replaced by the other,
or where it stood without the character before it. -/
theorem cut_of_replace {c : CodePoint} {part lead old new : Text} (fresh : c ∉ part) (free : c ∉ lead)
    (begin : ∀ d, lead.head? = some d → d ∉ part) (short : old = c :: part ∨ ∃ d, old = d :: c :: part ∧ d ∉ c :: part)
    (added : new = lead ++ c :: part) {before after text : Text}
    (eq : replace old new text = before ++ c :: (part ++ after)) :
    (∃ one two, text = one ++ old ++ two ∧ before = replace old new one ++ lead ∧ after = replace old new two) ∨
      ∃ one two d, old = d :: c :: part ∧ text = one ++ c :: (part ++ two) ∧ one.getLast? ≠ some d ∧
        before = replace old new one ∧ after = replace old new two := by
  have proper : old ≠ [] := by
    rcases short with rfl | ⟨d, rfl, _⟩ <;> exact List.cons_ne_nil _ _
  have filled : new ≠ [] := by simp [added]
  have head : ∀ d, new.head? = some d → d ∉ part := by
    intro d first
    rw [added] at first
    cases lead with
    | nil => exact Option.some.inj first ▸ fresh
    | cons e lead => exact begin d first
  induction text using replaced_induction proper generalizing before with
  | nil =>
    rw [replace_nil proper] at eq
    simp at eq
  | start rest ih =>
    rw [replace_start proper, added, List.append_assoc, List.cons_append, ← added] at eq
    obtain ⟨rfl, rfl⟩ | ⟨deep, rfl, inner⟩ := part_cases fresh free eq
    · exact .inl ⟨[], rest, rfl, by rw [replace_nil proper, List.nil_append], rfl⟩
    · -- the part comes later, after the one that was put in here
      obtain ⟨one, two, rfl, rfl, rfl⟩ | ⟨one, two, d, cut, rfl, apart, rfl, rfl⟩ := ih inner
      · refine .inl ⟨old ++ one, two, by simp, ?_, rfl⟩
        rw [replace_start proper, added]
        simp
      · refine .inr ⟨old ++ one, two, d, cut, by simp, ?_, ?_, rfl⟩
        · cases one with
          | cons e one => simpa [List.getLast?_append] using apart
          | nil =>
            intro last
            rw [List.append_nil, cut, List.getLast?_cons_cons] at last
            rcases short with rfl | ⟨e, rfl, differs⟩
            · exact absurd (congrArg List.length cut) (by simp)
            · cases cut
              exact differs (List.mem_of_getLast? last)
        · rw [replace_start proper, added]
          simp
  | cons d rest absent ih =>
    rw [replace_cons proper new absent] at eq
    cases before with
    | nil =>
      obtain ⟨rfl, next⟩ := List.cons.inj eq
      obtain ⟨more, rfl, rfl⟩ := prefix_of_replace proper filled head next
      rcases short with rfl | ⟨e, rfl, _⟩
      · exact absurd (List.prefix_append (d :: part) more) absent
      · exact .inr ⟨[], more, e, rfl, rfl, by simp, (replace_nil proper new).symm, rfl⟩
    | cons e before =>
      obtain ⟨rfl, next⟩ := List.cons.inj eq
      obtain ⟨one, two, rfl, rfl, rfl⟩ | ⟨one, two, e, cut, rfl, apart, rfl, rfl⟩ := ih next
      · refine .inl ⟨d :: one, two, by simp, ?_, rfl⟩
        rw [replace_cons proper new fun starts => absent (starts.trans (by simp))]
        rfl
      · refine .inr ⟨d :: one, two, e, cut, rfl, ?_, ?_, rfl⟩
        · cases one with
          | cons f one => rwa [List.getLast?_cons_cons]
          | nil =>
            intro last
            obtain rfl : d = e := by simpa using last
            exact absent (by rw [cut]; simp)
        · rw [replace_cons proper new fun starts => absent (starts.trans (by simp))]

end ApiDocs.Text
