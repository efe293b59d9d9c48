import ApiDocs.Html.Breadcrumb
import ApiDocs.Proofs.Text.Removal
import ApiDocs.Text.Blank

/-! Items of breadcrumbs without a title. An item is taken out with the character after it, whatever that is, and so is
every other text that is equal to both; so nothing else is lost exactly if a blank comes after the item, or nothing, and
if the page holds the item with that blank only once. -/

set_option autoImplicit false

namespace ApiDocs.Html

open Text

def untitledMark : Text := "&lt;no title&gt;"

/-- A page on which the first title after the breadcrumbs that is none stands in a list item. -/
structure UntitledItem (page : Text) where
  front : Text
  /-- What the item holds before and after the title. -/
  lead : Text
  tail : Text
  rest : Text
  whole : page = front ++ (("<li>" : Text) ++ (lead ++ untitledMark ++ tail) ++ ("</li>" : Text) ++ rest)
  crumbs : Nat
  found : index? "wy-breadcrumbs" page = some crumbs
  offset : Nat
  first : index? untitledMark (page.drop crumbs) = some offset
  within : crumbs + offset = (front ++ (("<li>" : Text) ++ lead)).length
  opened : ¬("<li>" : Text) <:+: lead
  closed : ¬("</li>" : Text) <:+: lead ++ untitledMark ++ tail

namespace UntitledItem

variable {page : Text} (entry : UntitledItem page)

def item : Text := ("<li>" : Text) ++ (entry.lead ++ untitledMark ++ entry.tail) ++ ("</li>" : Text)

def taken : Text := entry.item ++ entry.rest.take 1

theorem page_eq : page = entry.front ++ (entry.taken ++ entry.rest.drop 1) := by
  rw [taken, List.append_assoc, List.take_append_drop]
  exact entry.whole

theorem index_closing (more : Text) :
    index? "</li>" (entry.item ++ more) =
      some (("<li>" : Text) ++ (entry.lead ++ untitledMark ++ entry.tail)).length := by
  have passed : Avoids ("<li>" : Text) "</li>" := by decide
  rw [item, List.append_assoc]
  exact index?_first (c := '<') (by decide) (fun inside => entry.closed (passed.infix_after inside)) more

theorem lastIndex_opening : lastIndex? "<li>" (page.take (entry.crumbs + entry.offset)) = some entry.front.length := by
  have before : page.take (entry.crumbs + entry.offset) = entry.front ++ (("<li>" : Text) ++ entry.lead) := by
    have cut : page = entry.front ++ (("<li>" : Text) ++ entry.lead) ++
        (untitledMark ++ entry.tail ++ ("</li>" : Text) ++ entry.rest) :=
      entry.whole.trans (by simp only [List.append_assoc])
    rw [entry.within]
    exact (congrArg (List.take _) cut).trans List.take_left
  have passed : Avoids ("li>" : Text) "<li>" := by decide
  rw [before]
  exact lastIndex?_append (by decide) (List.prefix_append _ _) (fun inside => entry.opened (passed.infix_after inside))
    _

/-- The item goes with the character after it, and so does every text that is equal to both. -/
theorem dropUntitled_eq : dropUntitled page = replace entry.taken [] page := by
  have crumbs : index "wy-breadcrumbs" page = entry.crumbs := by rw [index, entry.found]; rfl
  have start : lastIndex "<li>" (upTo page (entry.crumbs + entry.offset)) = entry.front.length := by
    rw [lastIndex, ← Int.natCast_add, upTo_ofNat, entry.lastIndex_opening]
    rfl
  have after : page.drop entry.front.length = entry.item ++ entry.rest :=
    (congrArg (List.drop _) entry.whole).trans List.drop_left
  have length : index "</li>" (since page entry.front.length) + 6 = (entry.item.length + 1 : Nat) := by
    have closing : ("</li>" : Text).length = 5 := by decide
    have size : entry.item.length =
        (("<li>" : Text) ++ (entry.lead ++ untitledMark ++ entry.tail)).length + ("</li>" : Text).length :=
          List.length_append
    rw [since_ofNat, after, index, entry.index_closing, size, closing]
    rfl
  have taken : slice page entry.front.length (entry.front.length + index "</li>" (since page entry.front.length) + 6) =
      entry.taken := by
    rw [Int.add_assoc, length, ← Int.natCast_add, slice_ofNat, List.drop_take, Nat.add_sub_cancel_left, after,
      List.take_length_add_append]
    rfl
  unfold dropUntitled
  dsimp only
  rw [crumbs, since_ofNat, show ("&lt;no title&gt;" : Text) = untitledMark from rfl, entry.first]
  dsimp only
  rw [start, taken]
  rfl

theorem item_begins : ∃ more, entry.item = .char '<' :: .char 'l' :: more := ⟨_, rfl⟩

theorem taken_ne_nil : entry.taken ≠ [] := by
  obtain ⟨more, eq⟩ := entry.item_begins
  simp [taken, eq]

theorem stands_taken : StandsAt entry.taken page entry.front.length := by
  have after : page.drop entry.front.length = entry.taken ++ entry.rest.drop 1 :=
    (congrArg (List.drop _) entry.page_eq).trans List.drop_left
  rw [StandsAt, after]
  exact List.prefix_append _ _

/-- What is taken out does not overlap itself, unless a tag begins right after the item. -/
theorem taken_alone (plain : .char '<' ∉ entry.rest.take 1) : Avoids entry.taken.tail entry.taken := by
  obtain ⟨more, begins⟩ := entry.item_begins
  have spelled : entry.taken = (("<li>" : Text) ++ (entry.lead ++ untitledMark ++ entry.tail)) ++
      (.char '<' :: (("/li>" : Text) ++ entry.rest.take 1)) := by
    rw [taken, item, List.append_assoc]
    rfl
  intro ending member proper
  have ends := (List.mem_tails _ _).mp member
  have shorter : ending.length < entry.taken.length := by
    have bound := ends.length_le
    have positive := List.length_pos_iff.mpr entry.taken_ne_nil
    rw [List.length_tail] at bound
    omega
  refine ⟨fun starts => ?_, fun starts => absurd starts.length_le (Nat.not_le_of_lt shorter)⟩
  have suffix : ending <:+ entry.taken := ends.trans (List.tail_suffix _)
  rw [spelled] at suffix
  rcases List.suffix_or_suffix_of_suffix suffix (List.suffix_append _ _) with inside | ⟨lead, outside⟩
  · rcases List.suffix_cons_iff.mp inside with rfl | later
    · -- the closing tag does not begin as the item does
      rw [taken, begins, List.cons_append, List.cons_append, List.cons_prefix_cons] at starts
      exact absurd (List.cons_prefix_cons.mp starts.2).1 (by decide)
    · obtain ⟨d, ending, rfl⟩ := List.exists_cons_of_ne_nil proper
      rw [taken, begins, List.cons_append, List.cons_prefix_cons] at starts
      have member : .char '<' ∈ ("/li>" : Text) ++ entry.rest.take 1 := later.subset (starts.1 ▸ List.mem_cons_self)
      exact (List.mem_append.mp member).elim (by decide) plain
  · -- the item is closed only once
    obtain ⟨_, _, least⟩ := index?_eq_some_iff.mp (entry.index_closing (entry.rest.take 1))
    rw [spelled, ← outside] at shorter
    simp only [List.length_append, List.length_cons] at shorter
    refine least lead.length (by simp only [List.length_append]; omega) ?_
    obtain ⟨more, cut⟩ := starts
    rw [StandsAt, ← taken, ← cut, ← outside, List.append_assoc, List.drop_left]
    exact ⟨entry.rest.take 1 ++ more, rfl⟩

/-- Only the item and blanks right after it have gone from the page. -/
def Cleaned (result : Text) : Prop :=
  ∃ blank kept, entry.rest = blank ++ kept ∧ (∀ c ∈ blank, isBlank c = true) ∧ result = entry.front ++ kept

theorem dropUntitled_once (once : places entry.taken page = [entry.front.length]) :
    dropUntitled page = entry.front ++ entry.rest.drop 1 := by
  have only : ∀ place, StandsAt entry.taken (entry.front ++ (entry.taken ++ entry.rest.drop 1)) place →
      place = entry.front.length := by
    intro place stands
    have member := (mem_places entry.taken_ne_nil).mpr (entry.page_eq.symm ▸ stands)
    rwa [once, List.mem_singleton] at member
  have removed := replace_only entry.taken_ne_nil [] only
  rw [List.append_nil] at removed
  rw [entry.dropUntitled_eq]
  exact (congrArg (replace entry.taken []) entry.page_eq).trans removed

/-- A page from which one item has gone has lost the tags of one item, so the item stood there once and no tag has begun
right after it. -/
theorem taken_once (cleaned : entry.Cleaned (dropUntitled page)) :
    .char '<' ∉ entry.rest.take 1 ∧ places entry.taken page = [entry.front.length] := by
  obtain ⟨blank, kept, rest, blanks, result⟩ := cleaned
  have solid : blank.count (.char '<') = 0 := List.count_eq_zero.mpr fun member => absurd (blanks _ member) (by decide)
  have tags : 0 < entry.item.count (.char '<') := by
    obtain ⟨more, begins⟩ := entry.item_begins
    rw [begins, List.count_cons_self]
    exact Nat.succ_pos _
  -- the opening brackets that go away are counted in two ways: per removed piece, and for the item alone
  have counts := count_replace_nil entry.taken_ne_nil (.char '<') page
  have page_count : page.count (.char '<') =
      entry.front.count (.char '<') + (entry.item.count (.char '<') + kept.count (.char '<')) := by
    have whole : page = entry.front ++ (entry.item ++ (blank ++ kept)) := rest ▸ entry.whole
    refine (congrArg (List.count _) whole).trans ?_
    rw [List.count_append, List.count_append, List.count_append, solid, Nat.zero_add]
  have taken_count : entry.taken.count (.char '<') =
      entry.item.count (.char '<') + (entry.rest.take 1).count (.char '<') := List.count_append
  rw [← entry.dropUntitled_eq, result, List.count_append, page_count] at counts
  have pieces : (split entry.taken page).length = 2 ∧ (entry.rest.take 1).count (.char '<') = 0 := by
    generalize (split entry.taken page).length = number at counts
    match number with
    | 0 | 1 | 2 => omega
    | more + 3 =>
      rw [Nat.add_mul] at counts
      generalize more * entry.taken.count (.char '<') = further at counts
      omega
  have plain := List.count_eq_zero.mp pieces.2
  refine ⟨plain, ?_⟩
  have number := length_split_avoided entry.taken_ne_nil (entry.taken_alone plain) page
  obtain ⟨place, only⟩ := List.length_eq_one_iff.mp (show (places entry.taken page).length = 1 by omega)
  have member := (mem_places entry.taken_ne_nil).mpr entry.stands_taken
  rw [only, List.mem_singleton] at member
  rw [only, member]

/-- The item and the character after it go, wherever they stand together. Nothing else is lost exactly if that character
is a blank, or there is none, and the two stand together once. -/
theorem dropUntitled_cleans :
    dropUntitled page = replace (entry.item ++ entry.rest.take 1) [] page ∧
      (entry.Cleaned (dropUntitled page) ↔ (∀ c, entry.rest.head? = some c → isBlank c = true) ∧
        places (entry.item ++ entry.rest.take 1) page = [entry.front.length]) := by
  refine ⟨entry.dropUntitled_eq, fun cleaned => ?_, fun ⟨blank, once⟩ => ?_⟩
  · obtain ⟨_, once⟩ := entry.taken_once cleaned
    refine ⟨fun c head => ?_, once⟩
    obtain ⟨blank, kept, rest, blanks, result⟩ := cleaned
    rw [entry.dropUntitled_once once] at result
    have same := List.append_cancel_left result
    obtain ⟨more, eq⟩ := List.head?_eq_some_iff.mp head
    rw [eq, List.drop_one, List.tail_cons] at same
    rw [eq, same, ← List.singleton_append] at rest
    exact blanks c (by rw [← List.append_cancel_right rest]; exact List.mem_cons_self)
  · refine ⟨entry.rest.take 1, entry.rest.drop 1, (List.take_append_drop 1 _).symm, ?_, entry.dropUntitled_once once⟩
    intro c member
    cases rest : entry.rest with
    | nil => rw [rest] at member; cases member
    | cons d more =>
      rw [rest] at member
      rw [List.mem_singleton.mp member]
      exact blank d (by rw [rest]; rfl)

def spacedPage : Text := "wy-breadcrumbs<li>&lt;no title&gt;</li>\n<li>b</li>"

def adjacentPage : Text := "wy-breadcrumbs<li>&lt;no title&gt;</li><li>b</li>"

def spaced : UntitledItem spacedPage where
  front := "wy-breadcrumbs"
  lead := []
  tail := []
  rest := "\n<li>b</li>"
  whole := by decide +kernel
  crumbs := 0
  found := by decide +kernel
  offset := 18
  first := by decide +kernel
  within := by decide
  opened := by decide
  closed := by decide

def adjacent : UntitledItem adjacentPage where
  front := "wy-breadcrumbs"
  lead := []
  tail := []
  rest := "<li>b</li>"
  whole := by decide +kernel
  crumbs := 0
  found := by decide +kernel
  offset := 18
  first := by decide +kernel
  within := by decide
  opened := by decide
  closed := by decide

theorem dropUntitled_cleans_sample :
    spaced.Cleaned (dropUntitled spacedPage) ∧ ¬adjacent.Cleaned (dropUntitled adjacentPage) := by
  have blank : ∀ c, spaced.rest.head? = some c → isBlank c = true := by
    intro c head
    cases head
    decide
  refine ⟨spaced.dropUntitled_cleans.2.mpr ⟨blank, by decide +kernel⟩, fun cleaned => ?_⟩
  have next := (adjacent.dropUntitled_cleans.2.mp cleaned).1 (.char '<') rfl
  exact absurd next (by decide)

end UntitledItem

end ApiDocs.Html
