import ApiDocs.Proofs.File.Rounds
import ApiDocs.Proofs.Pages.Closing
import ApiDocs.Proofs.Text.Lines

/-! Titles that are dropped while a page is lifted. The lines of the page are moved one by one, and a page that is
listed on one of them loses three lines. Paths lead to the same places all the time, so a page that is listed again
loses three more. -/

set_option autoImplicit false

namespace ApiDocs

open Script Text

namespace DataClass

variable {site : Site} {tree after : Tree}

def optioned (line : Text) : Text := if mentions ":hidden:" line then replace "hidden" "titlesonly" line else line

def entryPages (directory line : Text) : List Text :=
  if line.contains (.char '/') then [directory ++ "/" ++ trim '\n' (trim ' ' line)] else []

def movedEntry (submodule line : Text) : Text :=
  if line.contains (.char '/') then replace submodule (submodule ++ "/" ++ submodule) line else line

def movedLine (submodule line : Text) : List Text :=
  if mentions ":hidden:" line then [line, movedEntry submodule (optioned line)] else [movedEntry submodule line]

def TitleDropped (site : Site) (page : Text) (tree after : Tree) : Prop :=
  (dropTitle page).runOn site tree = (.ok (), after)

theorem runOn_moveEntry_ok {directory submodule line result : Text}
    (run : (moveEntry directory submodule line).runOn site tree = (.ok result, after)) :
    result = movedEntry submodule line ∧ Rounds (TitleDropped site) (entryPages directory line) tree after := by
  unfold moveEntry at run
  rw [movedEntry, entryPages]
  split at run
  · rename_i slash
    obtain ⟨_, between, dropped, rest⟩ := runOn_bind_ok run
    cases rest
    rw [if_pos slash, if_pos slash]
    exact ⟨rfl, .cons dropped (.nil _)⟩
  · rename_i slash
    cases run
    rw [if_neg slash, if_neg slash]
    exact ⟨rfl, .nil _⟩

theorem runOn_moveLine_ok {directory submodule line : Text} {result : List Text}
    (run : (moveLine directory submodule line).runOn site tree = (.ok result, after)) :
    result = movedLine submodule line ∧ Rounds (TitleDropped site)
      (entryPages directory (optioned line)) tree after := by
  unfold moveLine at run
  rw [movedLine, optioned]
  split at run
  · rename_i hidden
    obtain ⟨entry, between, moved, rest⟩ := runOn_bind_ok run
    cases rest
    obtain ⟨rfl, rounds⟩ := runOn_moveEntry_ok moved
    rw [if_pos hidden, if_pos hidden]
    exact ⟨rfl, rounds⟩
  · rename_i hidden
    obtain ⟨entry, between, moved, rest⟩ := runOn_bind_ok run
    cases rest
    obtain ⟨rfl, rounds⟩ := runOn_moveEntry_ok moved
    rw [if_neg hidden, if_neg hidden]
    exact ⟨rfl, rounds⟩

/-- The lines of a page are moved one by one, and the pages that they list lose their titles in this order. -/
theorem runOn_moveLines_ok {directory submodule : Text} {lines : List Text} {results : List (List Text)}
    (run : (lines.mapM (moveLine directory submodule)).runOn site tree = (.ok results, after)) :
    results = lines.map (movedLine submodule) ∧
      Rounds (TitleDropped site) (lines.flatMap fun line => entryPages directory (optioned line)) tree after := by
  induction lines generalizing tree results with
  | nil =>
    cases run
    exact ⟨rfl, .nil _⟩
  | cons line lines ih =>
    rw [List.mapM_cons] at run
    obtain ⟨first, between, moved, later⟩ := runOn_bind_ok run
    obtain ⟨others, last, rest, done⟩ := runOn_bind_ok later
    cases done
    obtain ⟨rfl, begin⟩ := runOn_moveLine_ok moved
    obtain ⟨rfl, rounds⟩ := ih rest
    exact ⟨rfl, begin.append rounds⟩

theorem directory_of_source (directory : Text) {file : Text} (slashless : .char '/' ∉ file) :
    join "/" (split "/" (directory ++ "/" ++ file)).dropLast = directory := by
  have cut : split "/" (directory ++ "/" ++ file) = split "/" directory ++ [file] := by
    rw [List.append_assoc]
    exact (split_append (.char '/') directory file).trans (congrArg (split "/" directory ++ ·) (split_free slashless))
  rw [cut, List.dropLast_concat, join_split (by decide)]

theorem runOn_liftPage_lines {page source submodule : Text}
    (run : (liftPage page source submodule).runOn site tree = (.ok (), after)) :
    ∃ lines between, linesAt site tree source = .ok lines ∧
      (lines.mapM (moveLine (join "/" (split "/" source).dropLast) submodule)).runOn site tree =
        (.ok (lines.map (movedLine submodule)), between) ∧
      (writeText page (lines.flatMap (movedLine submodule)).flatten).runOn site between = (.ok (), after) := by
  unfold liftPage at run
  obtain ⟨lines, same, reading, rest⟩ := runOn_bind_ok run
  rw [runOn_readLines] at reading
  obtain ⟨read, rfl⟩ := Prod.mk.inj reading
  obtain ⟨moved, between, moving, writing⟩ := runOn_bind_ok rest
  obtain ⟨rfl, _⟩ := runOn_moveLines_ok moving
  exact ⟨lines, between, read, moving, writing⟩

theorem runOn_liftPage_ok {page directory file submodule : Text} (slashless : .char '/' ∉ file)
    (run : (liftPage page (directory ++ "/" ++ file) submodule).runOn site tree = (.ok (), after)) :
    ∃ lines between, linesAt site tree (directory ++ "/" ++ file) = .ok lines ∧
      Rounds (TitleDropped site) (lines.flatMap fun line => entryPages directory (optioned line)) tree between ∧
      (writeText page (lines.flatMap (movedLine submodule)).flatten).runOn site between = (.ok (), after) := by
  obtain ⟨lines, between, read, moving, writing⟩ := runOn_liftPage_lines run
  rw [directory_of_source directory slashless] at moving
  exact ⟨lines, between, read, (runOn_moveLines_ok moving).2, writing⟩

/-- A text without so many titles of three lines. -/
def stripped (count : Nat) (text : Text) : Text := ((lines (unifyNewlines text)).drop (3 * count)).flatten

theorem untitled_eq (text : Text) : untitled text = stripped 1 text := rfl

theorem lines_stripped (count : Nat) (text : Text) :
    lines (unifyNewlines (stripped count text)) = (lines (unifyNewlines text)).drop (3 * count) := by
  have free : .char '\r' ∉ stripped count text := by
    intro member
    obtain ⟨line, inside, point⟩ := List.mem_flatten.mp member
    exact unifyNewlines_free text ((infix_of_mem_lines (List.mem_of_mem_drop inside)).subset point)
  rw [unifyNewlines_of_free free, stripped, lines_drop]

theorem stripped_stripped (first second : Nat) (text : Text) :
    stripped second (stripped first text) = stripped (first + second) text := by
  rw [stripped, lines_stripped, List.drop_drop, ← Nat.mul_add]
  rfl

theorem stripped_titled {title : Text} (newline : .char '\n' ∉ title) (carriage : .char '\r' ∉ title) (rest : Text)
    (count : Nat) :
    stripped (count + 1) (title ++ "\n" ++ rule title.length ++ "\n\n" ++ rest) = stripped count rest := by
  have rules : ∀ mark : CodePoint, mark ≠ .char '=' → mark ∉ rule title.length :=
    fun mark other member => other (List.eq_of_mem_replicate member)
  have whole : ∀ line ∈ [title ++ ("\n" : Text), rule title.length ++ ("\n" : Text), ("\n" : Text)],
      WholeLine line := by
    intro line member
    simp only [List.mem_cons, List.not_mem_nil, or_false] at member
    rcases member with rfl | rfl | rfl
    · exact ⟨title, newline, carriage, rfl⟩
    · exact ⟨rule title.length, rules _ (by decide), rules _ (by decide), rfl⟩
    · exact ⟨[], List.not_mem_nil, List.not_mem_nil, rfl⟩
  have cut := lines_wholeLines_append whole rest
  have same : title ++ "\n" ++ rule title.length ++ "\n\n" ++ rest =
      [title ++ ("\n" : Text), rule title.length ++ ("\n" : Text), ("\n" : Text)].flatten ++ rest := by
    simp only [List.flatten_cons, List.flatten_nil, List.append_assoc, List.nil_append]
    rfl
  rw [stripped, same, cut, show 3 * (count + 1) = 3 * count + 3 by omega]
  rfl

/-- No more than the title is lost if it is dropped once, or if there is nothing after it. -/
theorem stripped_eq_untitled_iff {count : Nat} (listed : 0 < count) (text : Text) :
    stripped count text = untitled text ↔ count = 1 ∨ (lines (unifyNewlines text)).length ≤ 3 := by
  constructor
  · intro same
    have long := congrArg (fun text => (lines (unifyNewlines text)).length) same
    simp only [untitled_eq, lines_stripped, List.length_drop] at long
    omega
  · rintro (rfl | short)
    · rfl
    · rw [untitled_eq, stripped, stripped, List.drop_of_length_le (by omega), List.drop_of_length_le (by omega)]

def Stripped (before after : Option Entry) : Nat → Prop
  | 0 => after = before
  | count + 1 => ∃ bytes text, before = some (.file bytes) ∧ Utf8.decodeLines bytes = .ok text ∧
      after = some (.file (Utf8.bytesOf (stripped (count + 1) text)))

theorem Stripped.next {before between after : Option Entry} {count : Nat} (first : Stripped before between 1)
    (rest : Stripped between after count) : Stripped before after (count + 1) := by
  cases count with
  | zero =>
    rw [Stripped] at rest
    exact rest ▸ first
  | succ count =>
    obtain ⟨bytes, text, held, decoded, rfl⟩ := first
    obtain ⟨others, other, same, again, rfl⟩ := rest
    cases same
    obtain rfl := Except.ok.inj ((Utf8.decodeLines_bytesOf (plain_untitled decoded)).symm.trans again)
    refine ⟨bytes, text, held, decoded, ?_⟩
    rw [untitled_eq, stripped_stripped, Nat.add_comm 1]

/-- Every place loses as many titles as there are pages that lead to it. -/
theorem rounds_titles {pages : List Text} (rounds : Rounds (TitleDropped site) pages tree after) :
    tree.SameShape after ∧ (∀ page ∈ pages, ∃ place, site.locate tree page = .ok place) ∧
      ∀ place, Stripped (tree.get? place) (after.get? place)
        (pages.countP fun page => decide (site.locate tree page = .ok place)) := by
  -- paths lead to the same places all the time, since no round changes more than what is in one file
  induction rounds with
  | nil tree => exact ⟨.refl tree, fun _ member => absurd member List.not_mem_nil, fun _ => rfl⟩
  | @cons page pages tree between after first rest ih =>
    obtain ⟨spot, bytes, text, found, decoded, rfl⟩ := runOn_dropTitle_ok first
    obtain ⟨located, held⟩ := Site.find_eq_ok_iff.mp found
    have shape := Tree.sameShape_put held (Utf8.bytesOf (untitled text))
    simp only [← site.locate_shape shape] at ih
    obtain ⟨later, leads, counts⟩ := ih
    refine ⟨shape.trans later, fun other member => ?_, fun place => ?_⟩
    · rcases List.mem_cons.mp member with rfl | inside
      · exact ⟨spot, located⟩
      · exact leads other inside
    · have rest := counts place
      rw [List.countP_cons, located]
      by_cases same : spot = place
      · subst same
        rw [if_pos (by simp)]
        refine Stripped.next ⟨bytes, text, held, decoded, ?_⟩ rest
        exact Tree.get?_put_self _ (by rw [held]; intro eq; cases eq)
      · rw [if_neg (by simpa using same), Nat.add_zero]
        rwa [Tree.get?_put_apart _ _ same] at rest

end DataClass
end ApiDocs
