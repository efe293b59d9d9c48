import ApiDocs.Proofs.Text.Lines
import ApiDocs.Proofs.Text.Replace
import ApiDocs.Proofs.Text.Search

/-! Pictures of logos in a text. A picture is defined with the path of its file, which goes up some levels and then into
the folder of logos. Only replacing in the path changes how many levels these are. -/

set_option autoImplicit false

namespace ApiDocs.Text

/-- The definition of a picture under a name, as far as its path leads up so many levels and into the folder of
logos. -/
def logo (name : Text) (levels : Nat) : Text := ".. |" ++ name ++ "| image:: " ++ times levels "../" ++ "logos/"

/-- The logos of a text are all so many levels up. -/
def LogosUp (levels : Nat) (text : Text) : Prop :=
  ∀ name count, .char '\n' ∉ name → .char '/' ∉ name → logo name count <:+: text → count = levels

theorem times_add (first second : Nat) (text : Text) :
    times (first + second) text = times first text ++ times second text := by
  rw [times, times, times, List.replicate_add, List.flatten_append]

theorem times_succ (count : Nat) (text : Text) : times (count + 1) text = times count text ++ text := by
  rw [times_add]
  simp [times]

theorem mem_times {count : Nat} {text : Text} {c : CodePoint} (member : c ∈ times count text) : c ∈ text := by
  obtain ⟨piece, listed, inside⟩ := List.mem_flatten.mp member
  exact List.eq_of_mem_replicate listed ▸ inside

section
variable {name : Text} {levels count : Nat} {text : Text}

theorem slash_mem_logo (name : Text) (levels : Nat) : .char '/' ∈ logo name levels := by
  rw [logo, List.mem_append]
  exact .inr (by decide)

theorem newline_not_mem_logo (free : .char '\n' ∉ name) (levels : Nat) : .char '\n' ∉ logo name levels := by
  have up : .char '\n' ∉ times levels "../" := fun member => absurd (mem_times member) (by decide)
  simp only [logo, List.mem_append, free, up, or_false]
  decide

theorem LogosUp.of_infix {part : Text} (up : LogosUp levels text) (inside : part <:+: text) : LogosUp levels part :=
  fun name count free slashless found => up name count free slashless (found.trans inside)

theorem logosUp_of_slashless (slashless : .char '/' ∉ text) : LogosUp levels text :=
  fun name count _ _ found => absurd (found.subset (slash_mem_logo name count)) slashless

theorem LogosUp.newline {first second : Text} (before : LogosUp levels first) (after : LogosUp levels second) :
    LogosUp levels (first ++ .char '\n' :: second) := fun name count free slashless found =>
  (infix_across (newline_not_mem_logo free count) found).elim (before name count free slashless)
    (after name count free slashless)

theorem LogosUp.after_undotted {lead : Text} (undotted : .char '.' ∉ lead) (up : LogosUp levels text) :
    LogosUp levels (lead ++ text) :=
  fun name count free slashless found => up name count free slashless (infix_of_append undotted found)

theorem LogosUp.unifyNewlines (up : LogosUp levels text) : LogosUp levels (unifyNewlines text) :=
  fun name count free slashless found =>
    up name count free slashless (infix_of_unifyNewlines (newline_not_mem_logo free count) found)

end

def logoLead (name : Text) : Text := ".. |" ++ name ++ "| image:: "

theorem logo_eq (name : Text) (levels : Nat) : logo name levels = logoLead name ++ times levels "../" ++ "logos/" := rfl

theorem getLast?_logoLead (before name : Text) : (before ++ logoLead name).getLast? = some (.char ' ') := by
  rw [List.getLast?_append, logoLead, List.getLast?_append]
  rfl

theorem getLast?_upwards (front : Text) (levels : Nat) :
    (front ++ .char '/' :: times levels "../").getLast? = some (.char '/') := by
  rw [List.getLast?_append]
  cases levels with
  | zero => rfl
  | succ levels =>
    rw [times_succ, ← List.cons_append, List.getLast?_append]
    rfl

theorem levels_of_lead {before name lead : Text} {count levels : Nat}
    (eq : before ++ logoLead name ++ times count "../" = lead ++ times levels "../")
    (bare : lead.getLast? ≠ some (.char '/')) :
    count = levels := by
  have longer : ∀ more : Nat, times (more + 1) "../" = ".." ++ .char '/' :: times more "../" := by
    intro more
    rw [Nat.add_comm, times_add]
    simp [times, ofChars]
  rcases Nat.lt_trichotomy count levels with less | same | greater
  · obtain ⟨more, rfl⟩ := Nat.exists_eq_add_of_lt less
    rw [show count + more + 1 = (more + 1) + count by omega, times_add, ← List.append_assoc, longer,
      ← List.append_assoc] at eq
    have last := getLast?_logoLead before name
    rw [List.append_cancel_right eq, getLast?_upwards] at last
    cases last
  · exact same
  · obtain ⟨more, rfl⟩ := Nat.exists_eq_add_of_lt greater
    rw [show levels + more + 1 = (more + 1) + levels by omega, times_add, ← List.append_assoc, longer,
      ← List.append_assoc] at eq
    rw [← List.append_cancel_right eq, getLast?_upwards] at bare
    exact absurd rfl bare

theorem mem_of_path {lead part : Text} (proper : part ≠ []) (ends : part <:+ lead ++ ("logos" : Text)) :
    .char 's' ∈ part := by
  obtain ⟨front, final, rfl⟩ := (List.eq_nil_or_concat part).resolve_left proper
  rw [List.concat_eq_append] at ends ⊢
  obtain ⟨before, eq⟩ := ends
  rw [← List.append_assoc] at eq
  have same : some final = some (.char 's') := by
    rw [← List.getLast?_concat (l := before ++ front), eq, List.getLast?_append]
    rfl
  rw [Option.some.inj same]
  exact List.mem_append_right _ List.mem_cons_self

theorem slash_of_replace {old lead text : Text} (proper : old ≠ [])
    (last : (replace old (lead ++ "logos") text).getLast? = some (.char '/')) : text.getLast? = some (.char '/') := by
  obtain ⟨front, cut⟩ := List.getLast?_eq_some_iff.mp last
  have ends : [.char '/'] <:+ text := by
    refine suffix_of_replace proper (fun part proper ends starts => ?_) (fun inside => ?_) ⟨front, cut.symm⟩
    · exact absurd (starts.subset (mem_of_path proper ends)) (by decide)
    · exact absurd (inside.subset (List.mem_append_right lead (by decide : .char 's' ∈ ("logos" : Text)))) (by decide)
  obtain ⟨front, rfl⟩ := ends
  exact List.getLast?_concat ..

section
variable {old lead text : Text} (steps : ∀ c ∈ lead, c = .char '.' ∨ c = .char '/')
include steps

theorem lead_of_replace {name rest : Text} (slashless : .char '/' ∉ name) (fresh : .char 's' ∉ rest) (proper : old ≠ [])
    (upward : lead.head? = some (.char '/')) (ends : logoLead name ++ rest <:+ replace old (lead ++ "logos") text) :
    logoLead name ++ rest <:+ text := by
  have begins : (".. |" : Text) <+: logoLead name ++ rest := ⟨name ++ "| image:: " ++ rest, by simp [logoLead]⟩
  refine suffix_of_replace proper (fun part proper ends starts => ?_) (fun inside => ?_) ends
  · have letter := mem_of_path proper ends
    rcases List.prefix_or_prefix_of_prefix starts begins with early | late
    · exact absurd (early.subset letter) (by decide)
    · have bar : .char '|' ∈ lead ++ ("logos" : Text) := ends.subset (late.subset (by decide))
      rcases List.mem_append.mp bar with inside | inside
      · rcases steps _ inside with same | same <;> cases same
      · exact absurd inside (by decide)
  · obtain ⟨tail, rfl⟩ := List.head?_eq_some_iff.mp upward
    have free : .char '/' ∉ logoLead name := by
      simp only [logoLead, List.mem_append, slashless, or_false]
      decide
    have found : .char '/' :: (tail ++ ("logos" : Text)) <:+: rest := infix_of_append free inside
    exact fresh (found.subset (List.mem_cons_of_mem _
      (List.mem_append_right tail (by decide : .char 's' ∈ ("logos" : Text)))))

/-- A logo in a text where a path has been put in: the path was put in there, or the logo's own path is a name. -/
theorem cut_of_logo {before name after : Text} {count : Nat} (short : old = "logos" ∨ old = "/logos")
    (eq : before ++ logo name count ++ after = replace old (lead ++ "logos") text) :
    (∃ one two, text = one ++ old ++ two ∧
      before ++ logoLead name ++ times count "../" = replace old (lead ++ "logos") one ++ lead ∧
        .char '/' :: after = replace old (lead ++ "logos") two) ∨
      old = "/logos" ∧ ∃ one two, text = one ++ "logos" ++ two ∧ one.getLast? ≠ some (.char '/') ∧
        before ++ logoLead name ++ times count "../" = replace old (lead ++ "logos") one ∧
        .char '/' :: after = replace old (lead ++ "logos") two := by
  have cut : replace old (lead ++ "logos") text =
      (before ++ logoLead name ++ times count "../") ++ .char 'l' :: (("ogos" : Text) ++ .char '/' :: after) := by
    rw [← eq, logo_eq]
    simp [ofChars]
  -- the steps have no letters, so the mark cannot begin in them
  have letters : .char 'l' ∉ lead := by
    intro member
    rcases steps _ member with same | same <;> cases same
  have begin : ∀ d, lead.head? = some d → d ∉ ("ogos" : Text) := by
    intro d head
    rcases steps d (List.mem_of_head? head) with rfl | rfl <;> decide
  have forms : old = .char 'l' :: ("ogos" : Text) ∨ ∃ d, old = d :: .char 'l' :: ("ogos" : Text) ∧
      d ∉ .char 'l' :: ("ogos" : Text) := by
    rcases short with rfl | rfl
    · exact .inl rfl
    · exact .inr ⟨.char '/', rfl, by decide⟩
  rcases cut_of_replace (by decide) letters begin forms rfl cut with found | ⟨one, two, d, long, whole, apart, same,
    rest⟩
  · exact .inl found
  · rcases short with rfl | rfl
    · cases congrArg List.length long
    · obtain rfl := (List.cons.inj long).1
      exact .inr ⟨rfl, one, two, by rw [whole]; simp [ofChars], apart, same, rest⟩

end

theorem steps_times (levels : Nat) : ∀ c ∈ times levels "../", c = .char '.' ∨ c = .char '/' := by
  intro c member
  simpa [ofChars, or_comm] using mem_times member

/-- Logos that are put in are as many levels up as they are put in. -/
theorem logosUp_replace {text : Text} (direct : ¬("/logos" : Text) <:+: text) (levels : Nat) :
    LogosUp levels (replace "logos" (times levels "../" ++ "logos") text) := by
  rintro name count free slashless ⟨before, after, eq⟩
  rcases cut_of_logo (steps_times levels) (.inl rfl) eq with ⟨one, two, rfl, same, _⟩ | ⟨wrong, _⟩
  · refine levels_of_lead same fun last => direct ?_
    obtain ⟨front, rfl⟩ := List.getLast?_eq_some_iff.mp (slash_of_replace (by decide) last)
    exact ⟨front, two, by simp [ofChars]⟩
  · cases congrArg List.length wrong

theorem infix_of_replace {old new text : Text} (proper : old ≠ []) (filled : new ≠ []) {c : CodePoint} {part : Text}
    (free : c ∉ new) (fresh : ∀ d, new.head? = some d → d ∉ c :: part) (found : c :: part <:+: replace old new text) :
    c :: part <:+: text := by
  induction text using replaced_induction proper with
  | nil => rwa [replace_nil proper] at found
  | start rest ih =>
    rw [replace_start proper] at found
    exact (ih (infix_of_append free found)).trans (List.suffix_append _ _).isInfix
  | cons d rest absent ih =>
    have whole := replace_cons proper new absent
    rw [whole, List.infix_cons_iff] at found
    rcases found with ⟨more, starts⟩ | inside
    · obtain ⟨tail, same, _⟩ := prefix_of_replace proper filled fresh (whole.trans starts.symm)
      exact same ▸ (List.prefix_append _ _).isInfix
    · exact (ih inside).trans (List.suffix_cons _ _).isInfix

theorem infix_of_logos {levels : Nat} {c : CodePoint} {part text : Text} (free : c ∉ ("../logos" : Text))
    (fresh : .char '.' ∉ c :: part ∧ .char 'l' ∉ c :: part)
    (found : c :: part <:+: replace "logos" (times levels "../" ++ "logos") text) : c :: part <:+: text := by
  refine infix_of_replace (by decide) (by simp [ofChars]) (fun member => free ?_) (fun d head => ?_) found
  · rw [show ("../logos" : Text) = ("../" : Text) ++ "logos" from rfl, List.mem_append]
    exact (List.mem_append.mp member).imp_left mem_times
  · cases levels with
    | zero => exact Option.some.inj head ▸ fresh.2
    | succ levels => exact Option.some.inj head ▸ fresh.1

theorem head?_replace (old new text : Text) (proper : old ≠ []) (filled : new ≠ []) (same : old.head? = new.head?) :
    (replace old new text).head? = text.head? := by
  induction text using replaced_induction proper with
  | nil => rw [replace_nil proper]
  | start rest _ => rw [replace_start proper, List.head?_append_of_ne_nil _ filled,
    List.head?_append_of_ne_nil _ proper, same]
  | cons c rest absent _ =>
    rw [replace_cons proper new absent]
    rfl

/-- Logos that are above the text go further up. -/
theorem LogosUp.raise {text : Text} {levels : Nat} (up : LogosUp levels text) (above : 0 < levels) (more : Nat) :
    LogosUp (levels + more) (replace "/logos" (.char '/' :: times more "../" ++ "logos") text) := by
  rintro name count free slashless ⟨before, after, eq⟩
  have steps : ∀ c ∈ .char '/' :: times more "../", c = .char '.' ∨ c = .char '/' := by
    intro c member
    rcases List.mem_cons.mp member with slash | inside
    · exact .inr slash
    · exact steps_times more c inside
  have next : ∀ two : Text, .char '/' :: after = replace "/logos" (.char '/' :: times more "../" ++ "logos") two →
      ∃ rest, two = .char '/' :: rest := by
    intro two same
    have head := head?_replace "/logos" (.char '/' :: times more "../" ++ "logos") two (by decide) (by simp) rfl
    rw [← same] at head
    exact List.head?_eq_some_iff.mp head.symm
  have letters : ∀ levels : Nat, .char 's' ∉ times levels "../" :=
    fun levels member => absurd (mem_times member) (by decide)
  rcases cut_of_logo steps (.inr rfl) eq with ⟨one, two, rfl, same, rest⟩ | ⟨_, one, two, rfl, apart, same, rest⟩
  · obtain ⟨tail, rfl⟩ := next two rest
    -- the link goes up by what has been put in and by what it did before, unless it never was one
    rcases Nat.lt_or_ge more count with greater | less
    · obtain ⟨extra, rfl⟩ := Nat.exists_eq_add_of_lt greater
      have cut : before ++ (logoLead name ++ (times extra "../" ++ "..")) =
          replace "/logos" (.char '/' :: times more "../" ++ "logos") one := by
        rw [show more + extra + 1 = (extra + 1) + more by omega, times_add, ← List.append_assoc, List.append_cons,
          times_succ] at same
        have ended : before ++ logoLead name ++ (times extra "../" ++ ("../" : Text)) =
            before ++ (logoLead name ++ (times extra "../" ++ (".." : Text))) ++ [.char '/'] := by simp [ofChars]
        have shorter := List.append_cancel_right same
        rw [ended] at shorter
        exact List.append_cancel_right shorter
      have fresh : .char 's' ∉ times extra "../" ++ (".." : Text) := by
        simp only [List.mem_append, letters, false_or]
        decide
      obtain ⟨front, rfl⟩ := lead_of_replace steps slashless fresh (by decide) rfl ⟨before, cut⟩
      have found := up name (extra + 1) free slashless ⟨front, tail, by rw [logo_eq, times_succ]; simp [ofChars]⟩
      omega
    · obtain ⟨extra, rfl⟩ := Nat.exists_eq_add_of_le less
      rw [Nat.add_comm count extra, times_add, ← List.cons_append, ← List.append_assoc] at same
      have last := getLast?_logoLead before name
      rw [List.append_cancel_right same, getLast?_upwards] at last
      cases last
  · obtain ⟨tail, rfl⟩ := next two rest
    -- a mark without a slash before it has not been replaced, and it goes up no level
    cases count with
    | zero =>
      have cut : before ++ (logoLead name ++ []) = replace "/logos" (.char '/' :: times more "../" ++ "logos") one := by
        rw [← same]
        simp [times]
      obtain ⟨front, rfl⟩ := lead_of_replace steps slashless List.not_mem_nil (by decide) rfl ⟨before, cut⟩
      have found := up name 0 free slashless ⟨front, tail, by simp [logo_eq, times, ofChars]⟩
      omega
    | succ count =>
      have last : (replace "/logos" (.char '/' :: times more "../" ++ "logos") one).getLast? = some (.char '/') := by
        rw [← same, times_succ, List.getLast?_append, List.getLast?_append]
        rfl
      exact absurd (slash_of_replace (by decide) last) apart

end ApiDocs.Text
