import ApiDocs.Proofs.Html.MarkedNames
import ApiDocs.Proofs.Html.NamespaceTable

/-! Marked names as a reader meets them who goes through the page once, from left to right. After a mark a name is read
up to the end of its element, to the next mark or to the end of the page, and what is shown for it is written in its
place; everything else is copied. Cutting the page at its marks, and each part at the ends of elements, comes to the
same (`trimParts_eq_scan`). -/

set_option autoImplicit false

namespace ApiDocs.Html

open Text

/-- A name ends where its element is closed and where another mark stands. -/
def EndsName (text : Text) : Prop := ("</span>" : Text) <+: text ∨ namespaceMark <+: text

instance : DecidablePred EndsName := fun text =>
  inferInstanceAs (Decidable (("</span>" : Text) <+: text ∨ namespaceMark <+: text))

/-- The name at the front of a text, and what comes after it. -/
def readName : Text → Text × Text
  | [] => ([], [])
  | c :: rest =>
    if EndsName (c :: rest) then ([], c :: rest) else (c :: (readName rest).1, (readName rest).2)

theorem readName_append (text : Text) : (readName text).1 ++ (readName text).2 = text := by
  induction text with
  | nil => rfl
  | cons c rest ih => by_cases ends : EndsName (c :: rest) <;> simp [readName, ends, ih]

theorem readName_ends (text : Text) : (readName text).2 = [] ∨ EndsName (readName text).2 := by
  induction text with
  | nil => exact .inl rfl
  | cons c rest ih => by_cases ends : EndsName (c :: rest) <;> simp [readName, ends, ih]

theorem readName_endless {ending : Text} (proper : ending ≠ []) (ends : ∀ text, ending <+: text → EndsName text)
    (text : Text) : ¬ending <:+: (readName text).1 := by
  induction text with
  | nil => simpa [readName] using proper
  | cons c rest ih =>
    by_cases stops : EndsName (c :: rest)
    · simpa [readName, stops] using proper
    · have front : (readName rest).1 <+: rest := ⟨_, readName_append rest⟩
      rw [readName, if_neg stops, List.infix_cons_iff, not_or]
      refine ⟨fun starts => stops (ends _ (starts.trans ?_)), ih⟩
      exact List.cons_prefix_cons.mpr ⟨rfl, front⟩

theorem readName_unclosed (text : Text) : ¬("</span>" : Text) <:+: (readName text).1 :=
  readName_endless (by decide) (fun _ => .inl) text

theorem readName_unmarked (text : Text) : ¬namespaceMark <:+: (readName text).1 :=
  readName_endless (by decide) (fun _ => .inr) text

/-- The page with each marked name trimmed, read once from left to right. -/
def scanNames (trim : Text → Text) (page : Text) : Text :=
  match page with
  | [] => []
  | c :: rest =>
    if namespaceMark <+: c :: rest then
      let read := readName ((c :: rest).drop namespaceMark.length)
      namespaceMark ++ trim read.1 ++ scanNames trim read.2
    else c :: scanNames trim rest
termination_by page.length
decreasing_by
  · have whole := congrArg List.length (readName_append ((c :: rest).drop namespaceMark.length))
    have mark : 0 < namespaceMark.length := by decide
    rw [List.length_append, List.length_drop, List.length_cons] at whole
    rw [List.length_cons]
    omega
  · exact Nat.lt_succ_self _

section
variable (trim : Text → Text)

@[simp] theorem scanNames_nil : scanNames trim [] = [] := by rw [scanNames]

theorem scanNames_copy {c : CodePoint} {rest : Text} (unmarked : ¬namespaceMark <+: c :: rest) :
    scanNames trim (c :: rest) = c :: scanNames trim rest := by
  rw [scanNames, if_neg unmarked]

theorem scanNames_mark (after : Text) :
    scanNames trim (namespaceMark ++ after) =
      namespaceMark ++ (trim (readName after).1 ++ scanNames trim (readName after).2) := by
  obtain ⟨word, spelled, _⟩ := namespaceMark_eq
  have starts : namespaceMark <+: namespaceMark ++ after := List.prefix_append _ _
  have passed : (namespaceMark ++ after).drop namespaceMark.length = after := List.drop_left
  have split : namespaceMark ++ after = .char '<' :: (word ++ after) := by rw [spelled]; rfl
  rw [split] at starts passed ⊢
  rw [scanNames, if_pos starts, passed, List.append_assoc]

end

/-- What holds of nothing, goes on over what is copied and goes on over a mark and its name holds of every page. -/
theorem scanned_induction {motive : Text → Prop} (nil : motive [])
    (mark : ∀ after, motive (readName after).2 → motive (namespaceMark ++ after))
    (copy : ∀ c rest, ¬namespaceMark <+: c :: rest → motive rest → motive (c :: rest)) (page : Text) : motive page := by
  -- the trimming is of no account here: only the order in which the scan goes on is used
  induction page using scanNames.induct with
  | case1 => exact nil
  | case2 c rest starts read ih =>
    obtain ⟨after, whole⟩ := starts
    have passed : (c :: rest).drop namespaceMark.length = after := by rw [← whole, List.drop_left]
    rw [← whole]
    exact mark after (passed ▸ ih)
  | case3 c rest unmarked ih => exact copy c rest unmarked ih

def trimFirst (trim : Text → Text) (part : Text) : Text :=
  join "</span>" ((split "</span>" part).modifyHead trim)

def trimParts (trim : Text → Text) (page : Text) : Text :=
  match split namespaceMark page with
  | first :: parts => join namespaceMark (first :: parts.map (trimFirst trim))
  | [] => page

section
variable (trim : Text → Text)

theorem trimParts_of_split {page first : Text} {parts : List Text} (cut : split namespaceMark page = first :: parts) :
    trimParts trim page = join namespaceMark (first :: parts.map (trimFirst trim)) := by
  rw [trimParts, cut]

theorem trimFirst_name {name more : Text} (unclosed : ¬("</span>" : Text) <:+: name)
    (ends : more = [] ∨ ("</span>" : Text) <+: more) : trimFirst trim (name ++ more) = trim name ++ more := by
  have closing : (.char '<' : CodePoint) ∉ ("/span>" : Text) := by decide
  rcases ends with rfl | ⟨more, rfl⟩
  · rw [List.append_nil, List.append_nil, trimFirst, split_absent unclosed]
    rfl
  · have cut : split "</span>" (name ++ (("</span>" : Text) ++ more)) = name :: split "</span>" more :=
      split_first closing unclosed more
    rw [trimFirst, cut, List.modifyHead_cons, join_cons (split_ne_nil _ _), join_split (by decide), List.append_assoc]

theorem head_split_of_ends {text first : Text} {parts : List Text} (ends : text = [] ∨ EndsName text)
    (cut : split namespaceMark text = first :: parts) : first = [] ∨ ("</span>" : Text) <+: first := by
  rcases ends with rfl | ⟨more, rfl⟩ | ⟨more, rfl⟩
  · cases cut
    exact .inl rfl
  · obtain ⟨piece, others, rest⟩ := List.exists_cons_of_ne_nil (split_ne_nil namespaceMark more)
    cases (split_closing rest).symm.trans cut
    exact .inr (List.prefix_append _ _)
  · cases (split_start (by decide) more).symm.trans cut
    exact .inl rfl

theorem split_name {name rest first : Text} {parts : List Text} (unmarked : ¬namespaceMark <:+: name)
    (ends : rest = [] ∨ EndsName rest) (cut : split namespaceMark rest = first :: parts) :
    split namespaceMark (name ++ rest) = (name ++ first) :: parts := by
  obtain ⟨word, spelled, fresh⟩ := namespaceMark_eq
  rw [spelled] at unmarked cut ⊢
  rcases ends with rfl | ⟨more, rfl⟩ | ⟨more, rfl⟩
  · cases cut
    rw [List.append_nil, split_absent unmarked]
  -- a closing tag begins with the same character as a mark, and no other character of a mark is that one
  · exact split_before fresh unmarked cut
  · rw [spelled] at cut ⊢
    exact split_before fresh unmarked cut

theorem trimParts_copy {c : CodePoint} {rest : Text} (unmarked : ¬namespaceMark <+: c :: rest) :
    trimParts trim (c :: rest) = c :: trimParts trim rest := by
  obtain ⟨first, parts, cut⟩ := List.exists_cons_of_ne_nil (split_ne_nil namespaceMark rest)
  have whole : split namespaceMark (c :: rest) = (c :: first) :: parts := by
    rw [split_pass unmarked, cut]
    rfl
  rw [trimParts_of_split trim whole, trimParts_of_split trim cut, ← join_consFirst]
  rfl

theorem trimParts_mark (after : Text) :
    trimParts trim (namespaceMark ++ after) =
      namespaceMark ++ (trim (readName after).1 ++ trimParts trim (readName after).2) := by
  -- whatever ends the name, the first piece of the rest goes to it, and trimming the name does not touch that piece
  obtain ⟨first, parts, cut⟩ := List.exists_cons_of_ne_nil (split_ne_nil namespaceMark (readName after).2)
  have ends := readName_ends after
  have inner : split namespaceMark after = ((readName after).1 ++ first) :: parts := by
    have put := split_name (readName_unmarked after) ends cut
    rwa [readName_append] at put
  have whole : split namespaceMark (namespaceMark ++ after) = [] :: ((readName after).1 ++ first) :: parts := by
    rw [split_start (by decide), inner]
  have named : trimFirst trim ((readName after).1 ++ first) = trim (readName after).1 ++ first :=
    trimFirst_name trim (readName_unclosed after) (head_split_of_ends ends cut)
  rw [trimParts_of_split trim whole, trimParts_of_split trim cut, List.map_cons, named,
    join_nil_cons _ (List.cons_ne_nil _ _), join_lead]

theorem trimParts_eq_scan (page : Text) : trimParts trim page = scanNames trim page := by
  induction page using scanned_induction with
  | nil => rw [scanNames_nil]; rfl
  | mark after ih => rw [trimParts_mark, scanNames_mark, ih]
  | copy c rest unmarked ih => rw [trimParts_copy trim unmarked, scanNames_copy trim unmarked, ih]

end

theorem scanNames_id {trim : Text → Text} {page : Text} (left : ∀ name, Marked page name → trim name = name) :
    scanNames trim page = page := by
  -- the names that the scan finds later are marked on the whole page too
  induction page using scanned_induction with
  | nil => exact scanNames_nil trim
  | mark after ih =>
    have whole := readName_append after
    have first : Marked (namespaceMark ++ after) (readName after).1 :=
      ⟨[], (readName after).2, by rw [whole]; rfl, readName_unclosed after, readName_unmarked after,
        readName_ends after⟩
    have later : ∀ name, Marked (readName after).2 name → Marked (namespaceMark ++ after) name := by
      intro name marked
      have behind := marked.append (namespaceMark ++ (readName after).1)
      rwa [List.append_assoc, whole] at behind
    rw [scanNames_mark, left _ first, ih fun name marked => left name (later name marked), whole]
  | copy c rest unmarked ih =>
    rw [scanNames_copy trim unmarked, ih fun name marked => left name (marked.append [c])]

def textual (table : Table Text Text) : Json := .object (table.map fun entry => (entry.1, .text entry.2))

/-- What such a table shows for a name. -/
def permittedName (table : Table Text Text) (name : Text) : Text := (permitted? table name).getD name

section
variable (table : Table Text Text)

theorem trimNamespace_textual (name : Text) :
    trimNamespace (textual table) name = .ok (.text (permittedName table name)) := by
  have found : permitted? (table.map fun entry => (entry.1, Json.text entry.2)) name =
      (permitted? table name).map .text := by
    simp only [permitted?, List.find?_map, Option.map_map, Function.comp_def]
  rw [textual, trimNamespace, found, permittedName]
  cases permitted? table name <;> rfl

theorem trimPart_textual (part : Text) :
    (trimPart (textual table) part >>= shownPart) = .ok (trimFirst (permittedName table) part) := by
  obtain ⟨name, others, cut⟩ := List.exists_cons_of_ne_nil (split_ne_nil "</span>" part)
  simp only [trimPart, trimFirst, cut, trimNamespace_textual]
  rfl

theorem trimNamespaces_textual (page : Text) :
    trimNamespaces (textual table) page = .ok (trimParts (permittedName table) page) := by
  obtain ⟨first, parts, cut⟩ := List.exists_cons_of_ne_nil (split_ne_nil namespaceMark page)
  obtain ⟨named, trimmed, shown⟩ := mapM_mapM_ok (trimPart_textual table) parts
  rw [trimParts_of_split _ cut, trimNamespaces, cut]
  change (parts.mapM (trimPart (textual table)) >>= fun named =>
    named.mapM shownPart >>= fun texts => pure (join namespaceMark (first :: texts))) = _
  rw [trimmed]
  change (named.mapM shownPart >>= fun texts => pure (join namespaceMark (first :: texts))) = _
  rw [shown]
  rfl

theorem permittedName_unlisted {name : Text} (unlisted : ∀ entry ∈ table, ¬entry.1 <:+: name) :
    permittedName table name = name := by
  rw [permittedName, permitted?_eq_none_iff.mpr unlisted]
  rfl

/-- The names of a page are trimmed as a scan from left to right trims them, and a page whose names hold no key stays as
it is. -/
theorem trimNamespaces_scans (page : Text) :
    (∀ name, trimNamespace (textual table) name = .ok (.text (permittedName table name))) ∧
      trimNamespaces (textual table) page = .ok (scanNames (permittedName table) page) ∧
      ((∀ name, Marked page name → ∀ entry ∈ table, ¬entry.1 <:+: name) →
        trimNamespaces (textual table) page = .ok page) := by
  have scan : trimNamespaces (textual table) page = .ok (scanNames (permittedName table) page) := by
    rw [trimNamespaces_textual, trimParts_eq_scan]
  refine ⟨trimNamespace_textual table, scan, fun unlisted => ?_⟩
  rw [scan, scanNames_id fun name marked => permittedName_unlisted table (unlisted name marked)]

end

def unclosedPage : Text := namespaceMark ++ "a." ++ namespaceMark ++ "b</span>g"

theorem trimNamespaces_scans_sample :
    (∀ name, Marked unclosedPage name → ∀ entry ∈ ([("g", "h")] : Table Text Text), ¬entry.1 <:+: name) ∧
      trimNamespaces (textual [("g", "h")]) unclosedPage = .ok unclosedPage ∧
      trimNamespaces (textual [("g", "h")]) (namespaceMark ++ "a.g.</span>g") = .ok (namespaceMark ++ "h</span>g") := by
  have cut : ∀ part ∈ (split namespaceMark unclosedPage).tail, ∀ name ∈ (split "</span>" part).head?,
      ¬("g" : Text) <:+: name := by
    decide +kernel
  have unlisted : ∀ name, Marked unclosedPage name → ∀ entry ∈ ([("g", "h")] : Table Text Text),
      ¬entry.1 <:+: name := by
    intro name marked entry member
    obtain rfl := List.mem_singleton.mp member
    obtain ⟨part, inside, head⟩ := marked_iff.mp marked
    exact cut part inside name head
  have scanned : scanNames (permittedName [("g", "h")]) (namespaceMark ++ "a.g.</span>g") =
      namespaceMark ++ "h</span>g" := by
    decide +kernel
  obtain ⟨_, _, kept⟩ := trimNamespaces_scans [("g", "h")] unclosedPage
  obtain ⟨_, trimmed, _⟩ := trimNamespaces_scans [("g", "h")] (namespaceMark ++ "a.g.</span>g")
  exact ⟨unlisted, kept unlisted, trimmed.trans (congrArg _ scanned)⟩

end ApiDocs.Html
