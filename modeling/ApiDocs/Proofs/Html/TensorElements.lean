import ApiDocs.Html.TensorTypes
import ApiDocs.Proofs.Text.Lines
import ApiDocs.Proofs.Text.Replace
import ApiDocs.Proofs.Text.Search

/-! The elements of tensor types that the lists of parameters leave out. The places of the elements are looked up before
the page is edited, and every edit makes the page longer, so only the first edit is made where it should be: what comes
before it stays, and it alone is right if no later edit follows. -/

set_option autoImplicit false

namespace ApiDocs.Html

open Text

/-- An element of code on a page: where it begins, and how far from there the tag is that closes it. -/
structure Element (page : Text) where
  start : Nat
  inner : Nat
  opens : StandsAt codeMark page start
  closes : index? "</code>" (page.drop start) = some inner

namespace Element

variable {page : Text}

def stop (element : Element page) : Nat := element.start + element.inner + 7

def text (element : Element page) : Text := (page.take element.stop).drop element.start

/-- Where the element begins if a comma and a space directly before it are taken to it. -/
def lead (element : Element page) : Nat :=
  if 2 ≤ element.start ∧ StandsAt ", " page (element.start - 2) then element.start - 2 else element.start

/-- A tensor type after the beginning of a list of parameters. -/
def IsTensor (element : Element page) : Prop :=
  (∃ mark ≤ element.start, StandsAt parametersMark page mark) ∧ isTensorType element.text = true

/-- Nothing is edited after this element: no tensor type is mentioned any more, or there is no element any more. -/
def Last (element : Element page) : Prop :=
  isTensorType (page.drop element.stop) = false ∨ ¬codeMark <:+: page.drop element.stop

theorem eq_of_start {one other : Element page} (same : one.start = other.start) : one = other := by
  obtain ⟨start, inner, opens, closes⟩ := one
  obtain ⟨_, inner', _, closes'⟩ := other
  cases same
  cases closes.symm.trans closes'
  rfl

theorem lead_le (element : Element page) : element.lead ≤ element.start := by
  unfold lead
  split <;> omega

theorem start_lt_stop (element : Element page) : element.start < element.stop := by
  unfold stop
  omega

theorem stop_le (element : Element page) : element.stop ≤ page.length := by
  have found := (index?_eq_some_iff.mp element.closes).1.bound (by decide)
  have size : ("</code>" : Text).length = 7 := by decide
  rw [List.length_drop, size] at found
  unfold stop
  omega

/-- The page with the element covered, and with it a comma in front of it and one character after it. -/
def covered (element : Element page) : Text :=
  page.take element.lead ++ times (element.stop + 1 - element.lead) filling ++ page.drop (element.stop + 1)

end Element

/-- Every element is closed before the next one is opened. -/
structure Closed (page : Text) : Prop where
  element : ∀ start, StandsAt codeMark page start → ∃ element : Element page, element.start = start
  apart : ∀ (element : Element page) (next : Nat), element.start < next → StandsAt codeMark page next →
    element.stop ≤ next

def keeping (gone : Nat → Bool) (page : Text) : Text := (page.zipIdx.filter fun point => !gone point.2).map Prod.fst

/-- The tensor types are left out of a page, and nothing is left out besides them but a comma with a space directly
before one and one character directly after one. -/
structure LeavesOut (page result : Text) (gone : Nat → Bool) : Prop where
  kept : result = keeping gone page
  elements : ∀ element : Element page, element.IsTensor → ∀ place, element.start ≤ place → place < element.stop →
    gone place
  only : ∀ place, gone place → ∃ element : Element page, element.IsTensor ∧ element.lead ≤ place ∧ place ≤ element.stop

theorem keeping_append (gone : Nat → Bool) (first second : Text) :
    keeping gone (first ++ second) = keeping gone first ++
      keeping (fun place => gone (first.length + place)) second := by
  have shifted : second.zipIdx first.length = second.zipIdx.map fun point => (point.1, first.length + point.2) := by
    rw [List.zipIdx_eq_map_add]
  simp only [keeping, List.zipIdx_append, Nat.zero_add, List.filter_append, List.map_append, shifted, List.filter_map,
    List.map_map]
  rfl

theorem keeping_all {gone : Nat → Bool} {page : Text} (stays : ∀ place < page.length, gone place = false) :
    keeping gone page = page := by
  unfold keeping
  rw [List.filter_eq_self.mpr fun point member => by simp [stays point.2 (List.snd_lt_of_mem_zipIdx member)]]
  exact List.zipIdx_map_fst 0 page

theorem keeping_nothing {gone : Nat → Bool} {page : Text} (goes : ∀ place < page.length, gone place = true) :
    keeping gone page = [] := by
  unfold keeping
  rw [List.filter_eq_nil_iff.mpr fun point member => by simp [goes point.2 (List.snd_lt_of_mem_zipIdx member)]]
  rfl

theorem keeping_between (page : Text) {start stop : Nat} (ordered : start ≤ stop) :
    keeping (fun place => start ≤ place && place < stop) page = page.take start ++ page.drop stop := by
  have parts : page = page.take start ++ ((page.take stop).drop start ++ page.drop stop) := by
    have first : page.take start = (page.take stop).take start := by rw [List.take_take, Nat.min_eq_left ordered]
    rw [first, ← List.append_assoc, List.take_append_drop, List.take_append_drop]
  nth_rewrite 1 [parts]
  rw [keeping_append, keeping_append, keeping_all, keeping_nothing, keeping_all, List.nil_append]
  all_goals
    simp only [List.length_take, List.length_drop, Bool.and_eq_true, Bool.and_eq_false_iff, decide_eq_true_eq,
      decide_eq_false_iff_not]
    omega

def coversAt (page : Text) (place : Nat) : Bool :=
  isTensorType (slice page place (place + index "</code>" (since page place) + 7))

theorem coverElement_of_not {page : Text} {place : Nat} (other : coversAt page place = false) :
    coverElement page place = page := by
  unfold coverElement
  exact if_neg (Bool.eq_false_iff.mp other)

theorem slice_before {page part : Text} {place : Nat} (inside : place ≤ page.length) (pair : part.length = 2) :
    slice page ((place : Int) - 2) place = part ↔ 2 ≤ place ∧ StandsAt part page (place - 2) := by
  by_cases early : 2 ≤ place
  · have start : (place : Int) - 2 = ((place - 2 : Nat) : Int) := by omega
    have cut : slice page ((place : Int) - 2) place = (page.drop (place - 2)).take 2 := by
      rw [slice, start, bound_ofNat, bound_ofNat, Nat.min_eq_left inside, Nat.min_eq_left (by omega), List.drop_take]
      congr 1
      omega
    rw [cut, StandsAt, List.prefix_iff_eq_take, pair]
    exact ⟨fun same => ⟨early, same.symm⟩, fun both => both.2.symm⟩
  · refine ⟨fun same => ?_, fun both => absurd both.1 early⟩
    have short : (slice page ((place : Int) - 2) place).length ≤ place := by
      rw [slice, List.length_drop, List.length_take, bound_ofNat]
      omega
    rw [same, pair] at short
    exact absurd short early

namespace Element
variable {page : Text} (element : Element page)

theorem index_since : index "</code>" (since page element.start) = element.inner := by
  have inside : element.start ≤ page.length := Nat.le_of_lt (Nat.lt_of_lt_of_le element.start_lt_stop element.stop_le)
  have rest : since page element.start = page.drop element.start := since_place inside
  rw [rest, index, element.closes]
  rfl

theorem ending : (element.start : Int) + index "</code>" (since page element.start) + 7 = element.stop := by
  rw [index_since, stop]
  omega

theorem slice_stop : slice page element.start element.stop = element.text := by
  have inside := element.stop_le
  have ordered := element.start_lt_stop
  rw [slice, text, bound_ofNat, bound_ofNat, Nat.min_eq_left inside, Nat.min_eq_left (by omega)]

theorem coversAt_start : coversAt page element.start = isTensorType element.text := by
  rw [coversAt, ending, slice_stop]

theorem coverElement_start (tensor : isTensorType element.text = true) :
    coverElement page element.start = element.covered := by
  have inside := element.stop_le
  have ordered := element.start_lt_stop
  have from_lead : (if slice page ((element.start : Int) - 2) element.start =
    ", " then (element.start : Int) - 2 else element.start) =
      (element.lead : Int) := by
    have comma := @slice_before page ", " element.start (by omega) (by decide)
    unfold lead
    by_cases before : 2 ≤ element.start ∧ StandsAt ", " page (element.start - 2)
    · rw [if_pos (comma.mpr before), if_pos before]
      omega
    · rw [if_neg (mt comma.mp before), if_neg before]
  have least := element.lead_le
  have count : ((element.stop : Int) - element.lead + 1).toNat = element.stop + 1 - element.lead := by omega
  unfold coverElement
  simp only [ending, slice_stop, tensor, if_true, from_lead, count]
  have after : since page ((element.stop : Int) + 1) = page.drop (element.stop + 1) := by
    have place : (element.stop : Int) + 1 = ((element.stop + 1 : Nat) : Int) := by omega
    rw [since, place, bound_ofNat]
    by_cases within : element.stop + 1 ≤ page.length
    · rw [Nat.min_eq_left within]
    · rw [Nat.min_eq_right (by omega), List.drop_length, List.drop_eq_nil_of_le (by omega)]
  rw [after, upTo, bound_ofNat, Nat.min_eq_left (by omega)]
  rfl

end Element

/-- What the walk can make of a page once it has covered the element at its first place: it goes on with places of
elements further to the right, looked up on the page as it was or on the page as it is after some edits. -/
inductive Walked (page : Text) (first : Nat) : Text → Prop where
  | covered : Walked page first (coverElement page first)
  | stale {now : Text} {place : Nat} : Walked page first now → first + codeMark.length ≤ place →
      StandsAt codeMark page place → Walked page first (coverElement now place)
  | fresh {now seen : Text} {place : Nat} : Walked page first now → first + codeMark.length ≤ place →
      Walked page first seen → StandsAt codeMark seen place → Walked page first (coverElement now place)

/-- Elements do not overlap, neither with each other nor with the beginning of a list. -/
theorem codeMark_apart {page : Text} {place later : Nat} (stands : StandsAt codeMark page place) (after : place < later)
    (next : StandsAt codeMark page later ∨ StandsAt parametersMark page later) : place + codeMark.length ≤ later := by
  rcases next with next | next
  · exact stands.apart next after (by decide)
  · exact stands.apart next after (by decide)

section
variable {page : Text} {first : Nat}

theorem Walked.elements {places : List Nat} {seen : Text} (from_here : seen = page ∨ Walked page first seen)
    (later : ∀ place ∈ places, first + codeMark.length ≤ place ∧ StandsAt codeMark seen place) {now : Text}
    (walked : Walked page first now) : Walked page first (places.foldl coverElement now) := by
  induction places generalizing now with
  | nil => exact walked
  | cons place places ih =>
    obtain ⟨far, stands⟩ := later place List.mem_cons_self
    have next : Walked page first (coverElement now place) := by
      rcases from_here with rfl | before
      · exact walked.stale far stands
      · exact walked.fresh far before stands
    exact ih (fun other member => later other (List.mem_cons_of_mem _ member)) next

theorem mem_between {page : Text} {start stop place : Nat}
    (member : place ∈ (places codeMark page).filter fun place => start ≤ place && place < stop) :
    StandsAt codeMark page place ∧ start ≤ place ∧ place < stop := by
  simpa [mem_places (by decide : codeMark ≠ [])] using member

theorem Walked.between {now : Text} (walked : Walked page first now) {start : Nat}
    (far : first + codeMark.length ≤ start) (stop : Nat) : Walked page first (coverBetween now start stop) := by
  refine walked.elements (.inr walked) fun place member => ?_
  obtain ⟨stands, least, -⟩ := mem_between member
  exact ⟨Nat.le_trans far least, stands⟩

theorem Walked.lists {now : Text} (walked : Walked page first now) {marks : List Nat}
    (far : ∀ mark ∈ marks, first + codeMark.length ≤ mark) : Walked page first (coverLists now marks) := by
  fun_induction coverLists now marks with
  | case1 => exact walked
  | case2 now start => exact walked.between (far start List.mem_cons_self) _
  | case3 now start next rest ih =>
    exact ih (walked.between (far start List.mem_cons_self) next) fun mark member =>
      far mark (List.mem_cons_of_mem _ member)

end

theorem foldl_coverElement (page : Text) (places : List Nat) :
    (places.foldl coverElement page = page ∧ ∀ place ∈ places, coversAt page place = false) ∨
      ∃ before place after, places = before ++ place :: after ∧ (∀ earlier ∈ before, coversAt page earlier = false) ∧
        coversAt page place = true ∧ places.foldl coverElement page =
          after.foldl coverElement (coverElement page place) := by
  induction places with
  | nil => exact .inl ⟨rfl, by simp⟩
  | cons place places ih =>
    by_cases tensor : coversAt page place = true
    · exact .inr ⟨[], place, places, rfl, by simp, tensor, rfl⟩
    · have other := Bool.eq_false_iff.mpr tensor
      rw [List.foldl_cons, coverElement_of_not other]
      rcases ih with ⟨same, none⟩ | ⟨before, found, after, rfl, none, covers, run⟩
      · exact .inl ⟨same, List.forall_mem_cons.mpr ⟨other, none⟩⟩
      · exact .inr ⟨place :: before, found, after, rfl, List.forall_mem_cons.mpr ⟨other, none⟩, covers, run⟩

structure FirstFrom (page : Text) (mark place : Nat) : Prop where
  least : mark ≤ place
  stands : StandsAt codeMark page place
  covers : coversAt page place = true
  none : ∀ earlier, mark ≤ earlier → earlier < place → StandsAt codeMark page earlier → coversAt page earlier = false

def NoneBetween (page : Text) (start stop : Nat) : Prop :=
  ∀ place, start ≤ place → place < stop → StandsAt codeMark page place → coversAt page place = false

theorem coverBetween_cases (page : Text) (start stop : Nat) :
    (coverBetween page start stop = page ∧ NoneBetween page start stop) ∨
      ∃ place < stop, FirstFrom page start place ∧ Walked page place (coverBetween page start stop) := by
  have listed : ∀ place, start ≤ place → place < stop → StandsAt codeMark page place →
      place ∈ (places codeMark page).filter fun place => start ≤ place && place < stop := by
    intro place least early stands
    simp [mem_places (by decide : codeMark ≠ []), stands, least, early]
  have ascending := (places_ascending codeMark page).filter fun place => start ≤ place && place < stop
  unfold coverBetween
  rcases foldl_coverElement page ((places codeMark page).filter fun place => start ≤ place && place < stop) with
    ⟨same, none⟩ | ⟨before, place, after, eq, none, covers, run⟩
  · exact .inl ⟨same, fun place least early stands => none place (listed place least early stands)⟩
  · right
    rw [eq, List.pairwise_append, List.pairwise_cons] at ascending
    obtain ⟨stands, least, early⟩ := mem_between (eq ▸ List.mem_append_right before List.mem_cons_self)
    refine ⟨place, early, ⟨least, stands, covers, fun earlier from_start left there => ?_⟩, ?_⟩
    · have member := listed earlier from_start (Nat.lt_trans left early) there
      rw [eq, List.mem_append, List.mem_cons] at member
      rcases member with inside | rfl | later
      · exact none earlier inside
      · exact absurd left (Nat.lt_irrefl _)
      · exact absurd (ascending.2.1.1 earlier later) (Nat.lt_asymm left)
    · rw [run]
      refine Walked.covered.elements (.inl rfl) fun later member => ?_
      have there := (mem_between (eq ▸ List.mem_append_right before (List.mem_cons_of_mem _ member))).1
      exact ⟨codeMark_apart stands (ascending.2.1.1 later member) (.inl there), there⟩

/-- The walk over the lists of parameters changes nothing, or it begins with the leftmost tensor type after the
beginning of the first list. -/
theorem coverLists_cases {page : Text} {mark : Nat} {marks : List Nat} (ascending : (mark :: marks).Pairwise (· < ·))
    (stand : ∀ other ∈ mark :: marks, StandsAt parametersMark page other) :
    (coverLists page (mark :: marks) = page ∧ NoneBetween page mark page.length) ∨
      ∃ place, FirstFrom page mark place ∧ Walked page place (coverLists page (mark :: marks)) := by
  induction marks generalizing mark with
  | nil =>
    rcases coverBetween_cases page mark page.length with unchanged | ⟨place, -, first, walked⟩
    · exact .inl unchanged
    · exact .inr ⟨place, first, walked⟩
  | cons next marks ih =>
    obtain ⟨above, rest⟩ := List.pairwise_cons.mp ascending
    have below := above next List.mem_cons_self
    rw [coverLists]
    rcases coverBetween_cases page mark next with ⟨same, none⟩ | ⟨place, early, first, walked⟩
    · rw [same]
      rcases ih rest fun other member => stand other (List.mem_cons_of_mem _ member) with ⟨unchanged, others⟩ | ⟨place,
        first, walked⟩
      · refine .inl ⟨unchanged, fun place least inside stands => ?_⟩
        by_cases early : place < next
        · exact none place least early stands
        · exact others place (Nat.le_of_not_lt early) inside stands
      · refine .inr ⟨place, ⟨by have := first.least; omega, first.stands, first.covers,
          fun earlier least left stands => ?_⟩, walked⟩
        by_cases early : earlier < next
        · exact none earlier least early stands
        · exact first.none earlier (Nat.le_of_not_lt early) left stands
    · -- the walk has begun before the next list, whose beginning lies apart from the covered element
      refine .inr ⟨place, first, walked.lists fun other member => ?_⟩
      have after : place < other := by
        rcases List.mem_cons.mp member with rfl | further
        · exact early
        · exact Nat.lt_trans early ((List.pairwise_cons.mp rest).1 other further)
      exact codeMark_apart first.stands after (.inr (stand other (List.mem_cons_of_mem _ member)))

theorem prefix_coverElement {part page : Text} {place : Nat} (starts : part <+: page) (far : part.length + 2 ≤ place) :
    part <+: coverElement page place := by
  have short := starts.length_le
  have kept : ∀ start : Int, (place : Int) - 2 ≤ start → part <+: upTo page start := by
    intro start near
    obtain ⟨count, rfl⟩ := Int.eq_ofNat_of_zero_le (by omega : 0 ≤ start)
    rw [upTo, bound_ofNat, List.prefix_take_iff]
    exact ⟨starts, by omega⟩
  unfold coverElement
  simp only
  split
  · refine (kept _ ?_).trans (List.prefix_append_of_prefix (List.prefix_append ..))
    split <;> omega
  · exact starts

def tensorNames : List Text := ["_DeviceArray", "DeviceArray", "ndarray", "Tensor"]

theorem isTensorType_iff {code : Text} : isTensorType code = true ↔ ∃ name ∈ tensorNames, name <:+: code := by
  simp [isTensorType, tensorNames, mentions_iff, or_assoc]

theorem isTensorType_within {part text : Text} (inside : part <:+: text) (tensor : isTensorType part = true) :
    isTensorType text = true := by
  obtain ⟨name, listed, mentioned⟩ := isTensorType_iff.mp tensor
  exact isTensorType_iff.mpr ⟨name, listed, mentioned.trans inside⟩

theorem isTensorType_filling {count : Nat} {rest : Text} (tensor : isTensorType (times count filling ++ rest) = true) :
    isTensorType rest = true := by
  obtain ⟨name, listed, mentioned⟩ := isTensorType_iff.mp tensor
  refine isTensorType_iff.mpr ⟨name, listed, ?_⟩
  have names : ∀ name ∈ tensorNames, .char '>' ∉ name ∧ ¬name <:+: filling.dropLast := by decide
  have free := names name listed
  have ends : filling = filling.dropLast ++ [.char '>'] := by decide
  clear tensor
  induction count with
  | zero => exact mentioned
  | succ count ih =>
    rw [times, List.replicate_succ, List.flatten_cons, List.append_assoc, ends, List.append_assoc] at mentioned
    rcases infix_across free.1 mentioned with inside | later
    · exact absurd inside free.2
    · exact ih (by rwa [times, ends])

theorem codeMark_filling {count : Nat} {rest : Text} (found : codeMark <:+: times count filling ++ rest) :
    codeMark <:+: rest := by
  induction count with
  | zero => exact found
  | succ count ih =>
    rw [times, List.replicate_succ, List.flatten_cons, List.append_assoc] at found
    have opening : filling = .char '<' :: .char 'd' :: filling.drop 2 := by decide
    have mark : codeMark = .char '<' :: .char 'c' :: codeMark.drop 2 := by decide
    rw [opening, List.cons_append] at found
    rcases List.infix_cons_iff.mp found with here | later
    · rw [mark, List.cons_prefix_cons, List.cons_append, List.cons_prefix_cons] at here
      exact absurd here.2.1 (by decide)
    · rw [mark] at later
      refine ih ?_
      rw [mark]
      exact infix_of_append (by decide) later

section
variable {page : Text} {element : Element page}

theorem Walked.starts (tensor : isTensorType element.text = true) {now : Text}
    (walked : Walked page element.start now) :
    page.take element.lead ++ filling <+: now := by
  have size : (page.take element.lead ++ filling).length + 2 ≤ element.start + codeMark.length := by
    have before := element.lead_le
    have shorter : filling.length + 2 ≤ codeMark.length := by decide
    rw [List.length_append, List.length_take]
    omega
  induction walked with
  | covered =>
    have ordered := element.start_lt_stop
    have before := element.lead_le
    obtain ⟨count, eq⟩ := Nat.exists_eq_succ_of_ne_zero (by omega : element.stop + 1 - element.lead ≠ 0)
    rw [element.coverElement_start tensor, Element.covered, eq, times, List.replicate_succ, List.flatten_cons,
      List.append_assoc, List.append_assoc, ← List.append_assoc _ filling]
    exact List.prefix_append ..
  | stale _ far _ ih => exact prefix_coverElement ih (Nat.le_trans size far)
  | fresh _ far _ _ ih _ => exact prefix_coverElement ih (Nat.le_trans size far)

theorem Element.drop_covered (element : Element page) {place : Nat} (right : element.start ≤ place) :
    element.covered.drop place <:+
      times (element.stop + 1 - element.lead) filling ++ page.drop (element.stop + 1) := by
  have before := element.lead_le
  have short : (page.take element.lead).length ≤ place := by
    rw [List.length_take]
    omega
  rw [covered, List.append_assoc, List.drop_append, List.drop_eq_nil_of_le short]
  exact List.drop_suffix ..

theorem slice_within (text : Text) (start : Nat) (stop : Int) : slice text start stop <:+: text.drop start := by
  rw [slice, List.drop_take]
  refine (List.take_prefix _ _).isInfix.trans ?_
  rw [bound_ofNat]
  by_cases inside : start ≤ text.length
  · rw [Nat.min_eq_left inside]
  · rw [Nat.min_eq_right (by omega), List.drop_length]
    exact List.nil_infix

theorem Walked.settled (closed : Closed page) (tensor : isTensorType element.text = true) (last : element.Last)
    {now : Text} (walked : Walked page element.start now) : now = element.covered := by
  rcases last with none | none
  · -- no tensor type comes later, so the places that are left cover nothing
    have quiet : ∀ place, element.start ≤ place → coverElement element.covered place = element.covered := by
      intro place right
      refine coverElement_of_not (Bool.eq_false_iff.mpr fun covers => Bool.eq_false_iff.mp none ?_)
      have mentioned := isTensorType_filling
        (isTensorType_within ((slice_within ..).trans (element.drop_covered right).isInfix) covers)
      exact isTensorType_within (List.drop_suffix_drop_left page (Nat.le_succ _)).isInfix mentioned
    induction walked with
    | covered => exact element.coverElement_start tensor
    | stale _ far _ ih => rw [ih, quiet _ (by omega)]
    | fresh _ far _ _ ih _ => rw [ih, quiet _ (by omega)]
  · -- no element comes later, so there is no place that is left
    have positive : 0 < codeMark.length := by decide
    induction walked with
    | covered => exact element.coverElement_start tensor
    | @stale _ place _ far stands ih =>
      have right := closed.apart element place (by omega) stands
      exact absurd ((List.IsPrefix.isInfix stands).trans (List.drop_suffix_drop_left page right).isInfix) none
    | @fresh _ _ place _ far _ stands _ ih =>
      subst ih
      have right : element.start ≤ place := by omega
      have inside := codeMark_filling ((List.IsPrefix.isInfix stands).trans (element.drop_covered right).isInfix)
      exact absurd (inside.trans (List.drop_suffix_drop_left page (Nat.le_succ _)).isInfix) none

end

theorem Element.Last.unique {page : Text} {element other : Element page} (last : element.Last) (closed : Closed page)
    (least : element.start ≤ other.start) (tensor : isTensorType other.text = true) : element = other := by
  rcases Nat.eq_or_lt_of_le least with same | after
  · exact eq_of_start same
  · have later : page.drop other.start <:+: page.drop element.stop :=
      (List.drop_suffix_drop_left page (closed.apart element other.start after other.opens)).isInfix
    rcases last with none | none
    · have own : other.text <:+: page.drop other.start := by
        rw [← other.slice_stop]
        exact slice_within ..
      rw [isTensorType_within (own.trans later) tensor] at none
      cases none
    · exact absurd ((List.IsPrefix.isInfix other.opens).trans later) none

theorem replace_filling {text : Text} (unfilled : ¬filling <:+: text) (rest : Text) :
    replace filling "" (text ++ (filling ++ rest)) = text ++ replace filling "" rest := by
  have opening : filling = .char '<' :: filling.tail := by decide
  rw [opening] at unfilled ⊢
  rw [replace_first (by decide) unfilled]
  exact congrArg (· ++ _) (List.append_nil text)

theorem replace_times (count : Nat) (rest : Text) :
    replace filling "" (times count filling ++ rest) = replace filling "" rest := by
  induction count with
  | zero => rfl
  | succ count ih =>
    rw [times, List.replicate_succ, List.flatten_cons, List.append_assoc, replace_start (by decide)]
    exact ih

theorem replace_unfilled {text : Text} (unfilled : ¬filling <:+: text) : replace filling "" text = text :=
  (replace_absent (by decide : .char '<' ∉ filling.tail) unfilled "").1

theorem replace_covered {page : Text} (unfilled : ¬filling <:+: page) (element : Element page) :
    replace filling "" element.covered = page.take element.lead ++ page.drop (element.stop + 1) := by
  have before := element.lead_le
  have after := element.start_lt_stop
  obtain ⟨count, eq⟩ := Nat.exists_eq_succ_of_ne_zero (by omega : element.stop + 1 - element.lead ≠ 0)
  rw [Element.covered, eq, times, List.replicate_succ, List.flatten_cons, List.append_assoc, List.append_assoc,
    replace_filling]
  · refine congrArg (_ ++ ·) ((replace_times count _).trans (replace_unfilled ?_))
    exact fun inside => unfilled (inside.trans (List.drop_suffix _ _).isInfix)
  · exact fun inside => unfilled (inside.trans (List.take_prefix _ _).isInfix)

/-- The walk over a page changes nothing, or it begins with the leftmost tensor type. -/
theorem dropTensorTypes_cases {page : Text} (closed : Closed page) :
    (coverLists page (places parametersMark page) = page ∧ ∀ element : Element page, ¬element.IsTensor) ∨
      ∃ first : Element page, first.IsTensor ∧ (∀ other : Element page, other.IsTensor → first.start ≤ other.start) ∧
        Walked page first.start (coverLists page (places parametersMark page)) := by
  have listed : ∀ mark, mark ∈ places parametersMark page ↔ StandsAt parametersMark page mark := fun mark =>
    mem_places (by decide)
  have ascending := places_ascending parametersMark page
  generalize eq : places parametersMark page = marks at listed ascending
  cases marks with
  | nil =>
    refine .inl ⟨rfl, fun element tensor => ?_⟩
    obtain ⟨mark, -, stands⟩ := tensor.1
    exact absurd ((listed mark).mpr stands) List.not_mem_nil
  | cons mark marks =>
    have least : ∀ other : Element page, other.IsTensor → mark ≤ other.start := by
      rintro other ⟨⟨start, before, stands⟩, -⟩
      rcases List.mem_cons.mp ((listed start).mpr stands) with rfl | later
      · exact before
      · exact Nat.le_trans (Nat.le_of_lt ((List.pairwise_cons.mp ascending).1 start later)) before
    rcases coverLists_cases ascending fun other member => (listed other).mp member with ⟨same, none⟩ | ⟨place, first,
      walked⟩
    · refine .inl ⟨same, fun element tensor => ?_⟩
      have inside : element.start < page.length := Nat.lt_of_lt_of_le element.start_lt_stop element.stop_le
      have other := none element.start (least element tensor) inside element.opens
      rw [element.coversAt_start, tensor.2] at other
      cases other
    · obtain ⟨element, rfl⟩ := closed.element place first.stands
      have covers := first.covers
      rw [element.coversAt_start] at covers
      refine .inr ⟨element, ⟨⟨mark, first.least, (listed mark).mp List.mem_cons_self⟩, covers⟩, fun other tensor => ?_,
        walked⟩
      by_contra left
      have none := first.none other.start (least other tensor) (by omega) other.opens
      rw [other.coversAt_start, tensor.2] at none
      cases none

/-- Tensor types are left out of the lists of parameters as far as one page has only one of them. What stands before the
leftmost one always stays, up to a comma. If no later edit follows a tensor type, then it goes, and nothing else goes
but a comma with a space before it and the character after it. -/
theorem dropTensorTypes_leaves_out {page : Text} (unfilled : ¬filling <:+: page) (closed : Closed page) :
    (∀ first : Element page, first.IsTensor → (∀ other : Element page, other.IsTensor → first.start ≤ other.start) →
      page.take first.lead <+: dropTensorTypes page) ∧
    ((∀ element : Element page, element.IsTensor → element.Last) →
      ∃ gone, LeavesOut page (dropTensorTypes page) gone) := by
  unfold dropTensorTypes
  rcases dropTensorTypes_cases closed with ⟨same, none⟩ | ⟨element, tensor, least, walked⟩
  · rw [same, replace_unfilled unfilled]
    refine ⟨fun first tensor => absurd tensor (none first), fun _ => ⟨fun _ => false, ⟨?_, ?_, ?_⟩⟩⟩
    · exact (keeping_all fun _ _ => rfl).symm
    · exact fun element tensor => absurd tensor (none element)
    · exact fun _ gone => absurd gone Bool.false_ne_true
  · refine ⟨fun first own others => ?_, fun last => ⟨fun place => element.lead ≤ place && place < element.stop + 1, ?_,
      ?_, ?_⟩⟩
    · obtain rfl := Element.eq_of_start (Nat.le_antisymm (others element tensor) (least first own))
      obtain ⟨more, eq⟩ := walked.starts tensor.2
      rw [← eq, List.append_assoc, replace_filling fun inside => unfilled (inside.trans (List.take_prefix _ _).isInfix)]
      exact List.prefix_append ..
    · have before := element.lead_le
      have after := element.start_lt_stop
      rw [walked.settled closed tensor.2 (last element tensor), replace_covered unfilled,
        keeping_between page (by omega)]
    · intro other own place from_start to_stop
      obtain rfl := (last element tensor).unique closed (least other own) own.2
      have before := element.lead_le
      simp only [Bool.and_eq_true, decide_eq_true_eq]
      omega
    · intro place gone
      simp only [Bool.and_eq_true, decide_eq_true_eq] at gone
      exact ⟨element, tensor, gone.1, by omega⟩

def isClosed (page : Text) : Bool :=
  (places codeMark page).all fun start => match index? "</code>" (page.drop start) with
    | some inner => (places codeMark page).all fun next => next ≤ start || start + inner + 7 ≤ next
    | none => false

theorem closed_of_isClosed {page : Text} (checked : isClosed page = true) : Closed page := by
  have listed : ∀ place, place ∈ places codeMark page ↔ StandsAt codeMark page place :=
    fun place => mem_places (by decide)
  have each := List.all_eq_true.mp checked
  refine ⟨fun start stands => ?_, fun element next after stands => ?_⟩
  · have own := each start ((listed start).mpr stands)
    cases closes : index? "</code>" (page.drop start) with
    | none =>
      rw [closes] at own
      cases own
    | some inner => exact ⟨⟨start, inner, stands, closes⟩, rfl⟩
  · have own := each element.start ((listed element.start).mpr element.opens)
    rw [element.closes] at own
    have apart := List.all_eq_true.mp own next ((listed next).mpr stands)
    simp only [Bool.or_eq_true, decide_eq_true_eq] at apart
    rw [Element.stop]
    omega

def parametersPage : Text :=
  "a" ++ parametersMark ++ codeMark ++ "int</span></code>, " ++ codeMark ++ "Tensor</span></code>, b" ++
    parametersMark ++
    codeMark ++ "str</span></code>"

theorem dropTensorTypes_leaves_out_sample :
    (∃ element : Element parametersPage, element.IsTensor ∧
      parametersPage.take element.lead <+: dropTensorTypes parametersPage) ∧
      ∃ gone, LeavesOut parametersPage (dropTensorTypes parametersPage) gone := by
  have unfilled : ¬filling <:+: parametersPage := by decide +kernel
  have closed : Closed parametersPage := closed_of_isClosed (by decide +kernel)
  have listed : places codeMark parametersPage = [38, 135, 273] := by decide +kernel
  have others : coversAt parametersPage 38 = false ∧ coversAt parametersPage 273 = false := by decide +kernel
  obtain ⟨own, start, inner⟩ : ∃ own : Element parametersPage, own.start = 135 ∧ own.inner = 91 :=
    ⟨⟨135, 91, by decide +kernel, by decide +kernel⟩, rfl, rfl⟩
  have only : ∀ element : Element parametersPage, element.IsTensor → element = own := by
    intro element tensor
    have place := (mem_places (by decide)).mpr element.opens
    have covers := element.coversAt_start.trans tensor.2
    simp only [listed, List.mem_cons, List.not_mem_nil, or_false] at place
    rcases place with first | second | third
    · rw [first, others.1] at covers
      cases covers
    · exact Element.eq_of_start (second.trans start.symm)
    · rw [third, others.2] at covers
      cases covers
  have tensor : own.IsTensor := by
    refine ⟨⟨1, by omega, by decide +kernel⟩, ?_⟩
    rw [← own.coversAt_start, start]
    decide +kernel
  have last : own.Last := by
    rw [Element.Last, Element.stop, start, inner]
    exact .inl (by decide +kernel)
  obtain ⟨before, after⟩ := dropTensorTypes_leaves_out unfilled closed
  refine ⟨⟨own, tensor, before own tensor fun other another => ?_⟩, after fun element another => ?_⟩
  · rw [only other another]
  · rw [only element another]
    exact last

end ApiDocs.Html
