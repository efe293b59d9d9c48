import ApiDocs.Html.Namespaces
import ApiDocs.Proofs.Series
import ApiDocs.Proofs.Text.Cuts

/-! Names that a page marks, and when they can be shown. A marked name goes up to the end of its element, to the next
mark or to the end of the page; the page cannot be shown exactly if it marks a name and there is no table, or if the
table gives a marked name a value that is no text. -/

set_option autoImplicit false

namespace ApiDocs.Html

open Text

/-- A name that a page marks. -/
def Marked (page name : Text) : Prop :=
  ∃ before rest, page = before ++ (namespaceMark ++ (name ++ rest)) ∧ ¬("</span>" : Text) <:+: name ∧
    ¬namespaceMark <:+: name ∧ (rest = [] ∨ ("</span>" : Text) <+: rest ∨ namespaceMark <+: rest)

theorem Marked.append {page name : Text} (marked : Marked page name) (front : Text) : Marked (front ++ page) name := by
  obtain ⟨before, rest, whole, unclosed, unmarked, ends⟩ := marked
  exact ⟨front ++ before, rest, by rw [whole, List.append_assoc], unclosed, unmarked, ends⟩

theorem namespaceMark_eq : ∃ word : Text, namespaceMark = .char '<' :: word ∧ .char '<' ∉ word :=
  ⟨"span class=\"sig-prename descclassname\">", by decide, by decide⟩

theorem split_closing {more piece : Text} {others : List Text} (cut : split namespaceMark more = piece :: others) :
    split namespaceMark (("</span>" : Text) ++ more) = (("</span>" : Text) ++ piece) :: others := by
  obtain ⟨word, spelled, _⟩ := namespaceMark_eq
  have differs : ¬namespaceMark <+: .char '<' :: (("/span>" : Text) ++ more) :=
    fun starts => absurd (List.cons_prefix_cons.mp (List.cons_prefix_cons.mp starts).2).1 (by decide)
  rw [spelled] at differs cut ⊢
  have lead : split (.char '<' :: word) (("/span>" : Text) ++ more) = (("/span>" : Text) ++ piece) :: others :=
    split_lead (by decide) cut
  exact (split_pass differs).trans (congrArg (consFirst _) lead)

theorem mem_tail_split {c : CodePoint} {word : Text} (fresh : c ∉ word) {page part : Text} :
    part ∈ (split (c :: word) page).tail ↔ ∃ before rest, page = before ++ (c :: word ++ (part ++ rest)) ∧
      ¬c :: word <:+: part ∧ (rest = [] ∨ c :: word <+: rest) := by
  have proper : c :: word ≠ [] := List.cons_ne_nil c word
  constructor
  · intro member
    have absent := not_infix_of_mem_split proper (List.mem_of_mem_tail member)
    have whole := join_split proper page
    obtain ⟨first, pieces, cut⟩ := List.exists_cons_of_ne_nil (split_ne_nil (c :: word) page)
    -- the pieces before the part and those after it are joined on their own
    rw [cut, List.tail_cons] at member
    obtain ⟨front, others, rfl⟩ := List.append_of_mem member
    rw [cut, ← List.cons_append, join_append _ (List.cons_ne_nil first front) (List.cons_ne_nil part others)] at whole
    cases others with
    | nil => exact ⟨_, [], by rw [← whole, List.append_assoc, List.append_nil]; rfl, absent, .inl rfl⟩
    | cons next others =>
      refine ⟨join (c :: word) (first :: front), c :: word ++ join (c :: word) (next :: others), ?_, absent,
        .inr (List.prefix_append _ _)⟩
      rw [← whole, join_cons (List.cons_ne_nil next others)]
      simp only [List.append_assoc]
  · rintro ⟨before, rest, rfl, absent, follows⟩
    have later : ∃ others, split (c :: word) (part ++ rest) = part :: others := by
      rcases follows with rfl | ⟨more, rfl⟩
      · exact ⟨[], by rw [List.append_nil, split_absent absent]⟩
      · exact ⟨_, split_first fresh absent more⟩
    obtain ⟨others, cut⟩ := later
    obtain ⟨first, pieces, front⟩ := List.exists_cons_of_ne_nil (split_ne_nil (c :: word) before)
    rw [split_separator fresh, cut, front]
    exact List.mem_append_right pieces List.mem_cons_self

theorem head_split_iff {c : CodePoint} {word : Text} (fresh : c ∉ word) {part name : Text} :
    (split (c :: word) part).head? = some name ↔ ∃ rest, part = name ++ rest ∧ ¬c :: word <:+: name ∧
      (rest = [] ∨ c :: word <+: rest) := by
  have proper : c :: word ≠ [] := List.cons_ne_nil c word
  constructor
  · intro head
    obtain ⟨others, cut⟩ := List.head?_eq_some_iff.mp head
    obtain ⟨rest, rfl⟩ := prefix_of_split proper cut
    refine ⟨rest, rfl, not_infix_of_mem_split proper (cut ▸ List.mem_cons_self), ?_⟩
    rcases head_split proper cut with ⟨_, all⟩ | found
    · exact .inl (List.append_right_eq_self.mp all.symm)
    · have stands := (index?_eq_some_iff.mp found).1
      rw [StandsAt, List.drop_left] at stands
      exact .inr stands
  · rintro ⟨rest, rfl, absent, follows⟩
    rcases follows with rfl | ⟨more, rfl⟩
    · rw [List.append_nil, split_absent absent]
      rfl
    · rw [split_first fresh absent]
      rfl

/-- The marked names are the first pieces of what comes after the marks. -/
theorem marked_iff {page name : Text} :
    Marked page name ↔ ∃ part ∈ (split namespaceMark page).tail, (split "</span>" part).head? = some name := by
  obtain ⟨word, spelled, fresh⟩ := namespaceMark_eq
  have closing : (.char '<' : CodePoint) ∉ ("/span>" : Text) := by decide
  have tag : ("</span>" : Text) = .char '<' :: ("/span>" : Text) := rfl
  rw [Marked, spelled, tag]
  simp only [mem_tail_split fresh, head_split_iff closing]
  constructor
  · rintro ⟨before, rest, whole, unclosed, unmarked, rfl | ⟨more, rfl⟩ | ⟨more, rfl⟩⟩
    · exact ⟨name, ⟨before, [], whole, unmarked, .inl rfl⟩, [], (List.append_nil _).symm, unclosed, .inl rfl⟩
    · -- the element is closed, and the piece goes on up to the next mark
      obtain ⟨piece, others, cut⟩ := List.exists_cons_of_ne_nil (split_ne_nil (.char '<' :: word) more)
      have inner : split (.char '<' :: word) (.char '<' :: (("/span>" : Text) ++ more)) =
          (.char '<' :: (("/span>" : Text) ++ piece)) :: others := by
        rw [← spelled] at cut ⊢
        exact split_closing cut
      have member : name ++ .char '<' :: (("/span>" : Text) ++ piece) ∈ (split (.char '<' :: word) page).tail := by
        obtain ⟨first, pieces, front⟩ := List.exists_cons_of_ne_nil (split_ne_nil (.char '<' :: word) before)
        rw [whole, split_separator fresh, List.cons_append, split_before fresh unmarked inner, front]
        exact List.mem_append_right pieces List.mem_cons_self
      exact ⟨_, (mem_tail_split fresh).mp member, _, rfl, unclosed, .inr (List.prefix_append _ _)⟩
    · exact ⟨name, ⟨before, _, whole, unmarked, .inr (List.prefix_append _ _)⟩, [], (List.append_nil _).symm, unclosed,
        .inl rfl⟩
  · rintro ⟨part, ⟨before, rest, rfl, unmarked, follows⟩, more, rfl, unclosed, closes⟩
    refine ⟨before, more ++ rest, by simp only [List.append_assoc], unclosed,
      fun found => unmarked (found.trans (List.prefix_append _ _).isInfix), ?_⟩
    rcases closes with rfl | ⟨last, rfl⟩
    · exact follows.imp id .inr
    · exact .inr (.inl ⟨last ++ rest, by simp only [List.append_assoc]⟩)

theorem tail_split_ne_nil_iff {page : Text} : (split namespaceMark page).tail ≠ [] ↔ namespaceMark <:+: page := by
  have proper : namespaceMark ≠ [] := by decide
  constructor
  · intro pieces
    obtain ⟨part, _, more⟩ := List.exists_cons_of_ne_nil pieces
    obtain ⟨word, spelled, fresh⟩ := namespaceMark_eq
    rw [spelled] at more ⊢
    obtain ⟨before, rest, rfl, _⟩ := (mem_tail_split fresh).mp (more ▸ List.mem_cons_self)
    exact (List.prefix_append _ _).isInfix.trans (List.suffix_append _ _).isInfix
  · intro found none
    obtain ⟨first, others, cut⟩ := List.exists_cons_of_ne_nil (split_ne_nil namespaceMark page)
    obtain rfl : others = [] := by simpa [cut] using none
    have whole : first = page := by
      rw [← join_split proper page, cut]
      rfl
    exact not_infix_of_mem_split proper (cut ▸ List.mem_cons_self) (whole ▸ found)

def NoText (value : Json) : Prop := ∀ text, value ≠ .text text

def shownPart (trimmed : Json × List Text) : Except Fault Text := do
  return join "</span>" ((← shown trimmed.1) :: trimmed.2)

theorem trimNamespaces_error_parts {namespaces : Json} {page : Text} :
    (∃ fault, trimNamespaces namespaces page = .error fault) ↔
      ∃ fault, ((split namespaceMark page).tail.mapM (trimPart namespaces) >>= fun named => named.mapM shownPart) =
        .error fault := by
  obtain ⟨first, parts, cut⟩ := List.exists_cons_of_ne_nil (split_ne_nil namespaceMark page)
  simp only [trimNamespaces, cut, List.tail_cons]
  cases parts.mapM (trimPart namespaces) with
  | error fault => exact ⟨fun _ => ⟨fault, rfl⟩, fun _ => ⟨fault, rfl⟩⟩
  | ok named =>
    change (∃ fault, (named.mapM shownPart >>= fun texts => pure (join namespaceMark (first :: texts))) =
      .error fault) ↔
      ∃ fault, named.mapM shownPart = .error fault
    cases named.mapM shownPart <;> simp [bind, Except.bind, pure, Except.pure]

section
variable {namespaces : Json} {part : Text}

theorem trimPart_error_iff : (∃ fault, trimPart namespaces part = .error fault) ↔
    ∀ members, namespaces ≠ .object members := by
  obtain ⟨name, others, cut⟩ := List.exists_cons_of_ne_nil (split_ne_nil "</span>" part)
  simp only [trimPart, cut]
  cases namespaces <;> simp [trimNamespace, bind, Except.bind, pure, Except.pure]

theorem shownPart_error_iff :
    (∃ trimmed, trimPart namespaces part = .ok trimmed ∧ ∃ fault, shownPart trimmed = .error fault) ↔
      ∃ name value, (split "</span>" part).head? = some name ∧ trimNamespace namespaces name = .ok value ∧
        NoText value := by
  obtain ⟨name, others, cut⟩ := List.exists_cons_of_ne_nil (split_ne_nil "</span>" part)
  simp only [trimPart, cut, List.head?_cons, Option.some.injEq, exists_and_left, exists_eq_left']
  cases trimNamespace namespaces name with
  | error fault => simp [bind, Except.bind]
  | ok value => cases value <;> simp [shownPart, shown, NoText, bind, Except.bind, pure, Except.pure]

end

/-- A page cannot be shown exactly if it marks a name and there is no table, or if a marked name is given a value that
is no text. -/
theorem trimNamespaces_error_iff {namespaces : Json} {page : Text} :
    (∃ fault, trimNamespaces namespaces page = .error fault) ↔
      (namespaceMark <:+: page ∧ ∀ members, namespaces ≠ .object members) ∨
        ∃ name value, Marked page name ∧ trimNamespace namespaces name = .ok value ∧ NoText value := by
  rw [trimNamespaces_error_parts, mapM_mapM_error_iff]
  refine or_congr ?_ ?_
  · simp only [trimPart_error_iff, ← tail_split_ne_nil_iff]
    exact ⟨fun ⟨part, member, tableless⟩ => ⟨List.ne_nil_of_mem member, tableless⟩,
      fun ⟨marked, tableless⟩ => (List.exists_mem_of_ne_nil _ marked).imp fun part member => ⟨member, tableless⟩⟩
  · simp only [shownPart_error_iff, marked_iff]
    constructor
    · rintro ⟨part, member, name, value, head, trimmed, textless⟩
      exact ⟨name, value, ⟨part, member, head⟩, trimmed, textless⟩
    · rintro ⟨name, value, ⟨part, member, head⟩, trimmed, textless⟩
      exact ⟨part, member, name, value, head, trimmed, textless⟩

end ApiDocs.Html
