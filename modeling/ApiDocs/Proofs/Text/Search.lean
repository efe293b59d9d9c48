import ApiDocs.Text.Slice
import ApiDocs.Text.Split
import Mathlib.Data.List.Infix

/-! Places of a part in a text. A leftmost or rightmost place is pinned down by the places themselves, and
a part that lacks some code point never reaches across an occurrence of it. -/

set_option autoImplicit false

namespace ApiDocs.Text

/-- The part can be read off the text from a place on. -/
def StandsAt (part text : Text) (place : Nat) : Prop := part <+: text.drop place

instance (part text : Text) (place : Nat) : Decidable (StandsAt part text place) :=
  inferInstanceAs (Decidable (part <+: text.drop place))

theorem standsAt_zero {part text : Text} : StandsAt part text 0 ↔ part <+: text := by
  simp [StandsAt]

theorem standsAt_succ {part rest : Text} {c : CodePoint} {place : Nat} :
    StandsAt part (c :: rest) (place + 1) ↔ StandsAt part rest place := by
  simp [StandsAt]

theorem StandsAt.isInfix {part text : Text} {place : Nat} (stands : StandsAt part text place) :
    part <:+: text :=
  (List.IsPrefix.isInfix stands).trans (List.drop_suffix _ _).isInfix

theorem StandsAt.bound {part text : Text} {place : Nat} (proper : part ≠ [])
    (stands : StandsAt part text place) : place + part.length ≤ text.length := by
  have shorter := stands.length_le
  have positive := List.length_pos_iff.mpr proper
  rw [List.length_drop] at shorter
  omega

theorem StandsAt.append {part text : Text} {place : Nat} (stands : StandsAt part text place)
    (more : Text) (inside : place ≤ text.length) : StandsAt part (text ++ more) place := by
  unfold StandsAt
  rw [List.drop_append_of_le_length inside]
  exact stands.trans (List.prefix_append _ _)

theorem mem_placesFrom {part : Text} (proper : part ≠ []) {start place : Nat} {text : Text} :
    place ∈ placesFrom part start text ↔ ∃ offset, place = start + offset ∧ StandsAt part text offset := by
  induction text generalizing start with
  | nil => simp [placesFrom, StandsAt, proper]
  | cons c rest ih =>
    have later : (∃ offset, place = start + 1 + offset ∧ StandsAt part rest offset) ↔
        ∃ offset, place = start + (offset + 1) ∧ StandsAt part (c :: rest) (offset + 1) := by
      simp only [standsAt_succ, Nat.add_assoc, Nat.add_comm 1]
    by_cases starts : part <+: c :: rest
    · rw [placesFrom, if_pos (List.isPrefixOf_iff_prefix.mpr starts), List.mem_cons, ih, later]
      constructor
      · rintro (rfl | ⟨offset, found⟩)
        · exact ⟨0, rfl, standsAt_zero.mpr starts⟩
        · exact ⟨offset + 1, found⟩
      · rintro ⟨offset, found⟩
        cases offset with
        | zero => exact .inl found.1
        | succ offset => exact .inr ⟨offset, found⟩
    · rw [placesFrom, if_neg (by rwa [List.isPrefixOf_iff_prefix]), ih, later]
      constructor
      · rintro ⟨offset, found⟩
        exact ⟨offset + 1, found⟩
      · rintro ⟨offset, found⟩
        cases offset with
        | zero => exact absurd (standsAt_zero.mp found.2) starts
        | succ offset => exact ⟨offset, found⟩

theorem mem_places {part : Text} (proper : part ≠ []) {place : Nat} {text : Text} :
    place ∈ places part text ↔ StandsAt part text place := by
  rw [places, mem_placesFrom proper]
  simp

theorem places_ascending (part text : Text) : (places part text).Pairwise (· < ·) := by
  suffices from_start : ∀ start, (placesFrom part start text).Pairwise (· < ·) ∧ ∀ place ∈ placesFrom part start text,
    start ≤ place by
    exact (from_start 0).1
  induction text with
  | nil => simp [placesFrom]
  | cons c rest ih =>
    intro start
    obtain ⟨ascending, least⟩ := ih (start + 1)
    unfold placesFrom
    split
    · refine ⟨List.pairwise_cons.mpr ⟨fun place member => least place member, ascending⟩, ?_⟩
      rintro place (_ | ⟨_, member⟩)
      · exact Nat.le_refl _
      · exact Nat.le_of_succ_le (least place member)
    · exact ⟨ascending, fun place member => Nat.le_of_succ_le (least place member)⟩

theorem StandsAt.apart {part other text : Text} {place later : Nat} (stands : StandsAt part text place)
    (next : StandsAt other text later) (after : place < later)
    (clear : ∀ offset < part.length, 0 < offset → ¬part.drop offset <+: other ∧ ¬other <+: part.drop offset) :
    place + part.length ≤ later := by
  by_contra near
  obtain ⟨offset, rfl⟩ := Nat.exists_eq_add_of_lt after
  have tail : part.drop (offset + 1) <+: text.drop (place + offset + 1) := by
    have shifted := stands.drop (offset + 1)
    rwa [List.drop_drop, ← Nat.add_assoc] at shifted
  obtain ⟨left, right⟩ := clear (offset + 1) (by omega) (by omega)
  exact (List.prefix_or_prefix_of_prefix tail next).elim left right

/-- The leftmost place is the one with no place before it. -/
theorem index?_eq_some_iff {part text : Text} {place : Nat} :
    index? part text = some place ↔
      StandsAt part text place ∧ place ≤ text.length ∧ ∀ earlier < place, ¬StandsAt part text earlier := by
  induction text generalizing place with
  | nil =>
    cases part with
    | nil => cases place <;> simp [index?, StandsAt]
    | cons c part => simp [index?, StandsAt]
  | cons c rest ih =>
    by_cases starts : part <+: c :: rest
    · rw [index?, if_pos (List.isPrefixOf_iff_prefix.mpr starts), Option.some.injEq]
      constructor
      · rintro rfl
        exact ⟨standsAt_zero.mpr starts, by simp, by simp⟩
      · rintro ⟨_, _, least⟩
        by_contra positive
        exact least 0 (by omega) (standsAt_zero.mpr starts)
    · rw [index?, if_neg (by rwa [List.isPrefixOf_iff_prefix]), Option.map_eq_some_iff]
      cases place with
      | zero => simp [standsAt_zero, starts]
      | succ place =>
        simp only [Nat.add_right_cancel_iff, exists_eq_right, ih, standsAt_succ, List.length_cons,
          Nat.add_le_add_iff_right]
        refine and_congr_right fun _ => and_congr_right fun _ => ⟨?_, ?_⟩
        · intro least earlier before
          cases earlier with
          | zero => rwa [standsAt_zero]
          | succ earlier => exact standsAt_succ.not.mpr (least earlier (by omega))
        · intro least earlier before
          exact standsAt_succ.not.mp (least (earlier + 1) (by omega))

theorem index?_eq_none_iff {part text : Text} : index? part text = none ↔ ¬part <:+: text := by
  rw [← mentions_iff, ← isSome_index?, Option.isSome_iff_ne_none, not_not]

theorem index?_append {part text : Text} {place : Nat} (found : index? part text = some place) (proper : part ≠ [])
    (more : Text) : index? part (text ++ more) = some place := by
  obtain ⟨stands, inside, least⟩ := index?_eq_some_iff.mp found
  have bound := stands.bound proper
  refine index?_eq_some_iff.mpr ⟨stands.append more inside, by rw [List.length_append]; omega, ?_⟩
  intro earlier before earlierStands
  apply least earlier before
  unfold StandsAt at earlierStands ⊢
  rw [List.drop_append_of_le_length (by omega)] at earlierStands
  exact List.prefix_of_prefix_length_le earlierStands (List.prefix_append _ _) (by rw [List.length_drop]; omega)

theorem lastIndex?_bound {part text : Text} {place : Nat} (found : lastIndex? part text = some place) :
    place + part.length ≤ text.length := by
  induction text generalizing place with
  | nil =>
    rw [lastIndex?] at found
    split at found
    · rename_i empty
      cases found
      simp [List.isEmpty_iff.mp empty]
    · cases found
  | cons c rest ih =>
    rw [lastIndex?] at found
    split at found
    · rename_i later there
      cases found
      have bound := ih there
      rw [List.length_cons]
      omega
    · split at found
      · rename_i starts
        cases found
        have bound := (List.isPrefixOf_iff_prefix.mp starts).length_le
        omega
      · cases found

theorem upTo_append {text : Text} {stop : Int} (positive : 0 ≤ stop) (inside : stop ≤ text.length) (more : Text) :
    upTo (text ++ more) stop = upTo text stop := by
  obtain ⟨count, rfl⟩ := Int.eq_ofNat_of_zero_le positive
  have small : count ≤ text.length := by omega
  unfold upTo
  simp only [bound_ofNat, List.length_append]
  rw [Nat.min_eq_left (by omega), Nat.min_eq_left small, List.take_append_of_le_length small]

theorem slice_append {first second : Text} {start ending : Nat} (early : start ≤ first.length) (positive : 0 < ending)
    (long : ending ≤ second.length) :
    slice (first ++ second) start (-ending) = first.drop start ++ second.take (second.length - ending) := by
  have stop : bound (first ++ second).length (-ending) = first.length + (second.length - ending) := by
    rw [bound, if_pos (by omega), List.length_append]
    omega
  have begin : bound (first ++ second).length start = start := by
    rw [bound_ofNat, List.length_append]
    omega
  rw [slice, stop, begin, List.take_length_add_append, List.drop_append_of_le_length early]

theorem cut_ending (lead : Text) {ending : Text} (proper : ending ≠ []) :
    upTo (lead ++ ending) (-(ending.length : Int)) = lead ∧
      since (lead ++ ending) (-(ending.length : Int)) = ending := by
  have positive := List.length_pos_iff.mpr proper
  have place : bound (lead ++ ending).length (-(ending.length : Int)) = lead.length := by
    simp only [bound, List.length_append]
    split <;> omega
  rw [upTo, since, place]
  exact ⟨List.take_left, List.drop_left⟩

theorem since_place {text : Text} {place : Nat} (inside : place ≤ text.length) :
    since text (signed (some place)) = text.drop place := by
  rw [since, signed, bound_ofNat, Nat.min_eq_left inside]

theorem since_last (text : Text) (c : CodePoint) : since (text ++ [c]) (signed none) = [c] := by
  have place : bound (text ++ [c]).length (signed none) = text.length := by
    simp only [bound, signed, List.length_append, List.length_singleton]
    split <;> omega
  rw [since, place, List.drop_left]

/-- A part that begins a text and occurs nowhere later in it has its last place there, whatever comes
before. -/
theorem lastIndex?_append {part rest : Text} (proper : part ≠ []) (starts : part <+: rest)
    (once : ¬part <:+: rest.tail) (before : Text) :
    lastIndex? part (before ++ rest) = some before.length := by
  have absent : ∀ text : Text, ¬part <:+: text → lastIndex? part text = none := by
    intro text
    induction text with
    | nil => cases part <;> simp_all [lastIndex?]
    | cons c rest ih =>
      intro missing
      rw [List.infix_cons_iff, not_or] at missing
      rw [lastIndex?, ih missing.2]
      simp [missing.1]
  induction before with
  | nil =>
    cases rest with
    | nil => exact absurd (List.prefix_nil.mp starts) proper
    | cons c rest =>
      rw [List.nil_append, lastIndex?, absent rest once]
      simp [starts]
  | cons c before ih => simp [lastIndex?, ih]

section Across
variable {part before after : Text} {mark : CodePoint}

theorem StandsAt.before_mark (free : mark ∉ part) (proper : part ≠ []) {place : Nat}
    (inside : place ≤ before.length) (stands : StandsAt part (before ++ mark :: after) place) :
    StandsAt part before place := by
  unfold StandsAt at stands ⊢
  rw [List.drop_append_of_le_length inside] at stands
  generalize before.drop place = here at stands
  induction here generalizing part with
  | nil =>
    obtain ⟨tail, eq⟩ := stands
    cases part with
    | nil => exact absurd rfl proper
    | cons c part =>
      simp only [List.nil_append, List.cons_append, List.cons.injEq] at eq
      exact absurd (by simp [eq.1]) free
  | cons c here ih =>
    cases part with
    | nil => exact absurd rfl proper
    | cons d part =>
      rw [List.cons_append, List.cons_prefix_cons] at stands
      rw [List.cons_prefix_cons]
      refine ⟨stands.1, ?_⟩
      by_cases done : part = []
      · rw [done]; exact List.nil_prefix
      · exact ih (fun member => free (List.mem_cons_of_mem _ member)) done stands.2

theorem infix_across (free : mark ∉ part) (found : part <:+: before ++ mark :: after) :
    part <:+: before ∨ part <:+: after := by
  by_cases proper : part = []
  · exact .inl (proper ▸ List.nil_infix)
  obtain ⟨lead, tail, eq⟩ := found
  have stands : StandsAt part (before ++ mark :: after) lead.length := by
    rw [StandsAt, ← eq, List.append_assoc, List.drop_left]
    exact List.prefix_append _ _
  by_cases inside : lead.length ≤ before.length
  · exact .inl (stands.before_mark free proper inside).isInfix
  · right
    rw [StandsAt, List.drop_append, List.drop_eq_nil_of_le (by omega), List.nil_append] at stands
    obtain ⟨skip, eq⟩ := Nat.exists_eq_add_of_lt (Nat.lt_of_not_le inside)
    rw [show lead.length - before.length = skip + 1 by omega, List.drop_succ_cons] at stands
    exact StandsAt.isInfix stands

end Across

end ApiDocs.Text
