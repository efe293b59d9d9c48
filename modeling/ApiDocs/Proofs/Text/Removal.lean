import ApiDocs.Proofs.Text.Cuts
import ApiDocs.Proofs.Text.Insertions

/-! Taking all occurrences of a part out of a text. There is one piece more than there are occurrences, if these do not
overlap, and with each occurrence its characters go; a part that occurs once leaves what is before it and after it. -/

set_option autoImplicit false

namespace ApiDocs.Text

theorem StandsAt.append_left {part text : Text} {place : Nat} (stands : StandsAt part text place) (front : Text) :
    StandsAt part (front ++ text) (front.length + place) := by
  unfold StandsAt
  rwa [List.drop_length_add_append]

theorem exists_standsAt {part text : Text} (found : part <:+: text) : ∃ place, StandsAt part text place := by
  obtain ⟨before, after, rfl⟩ := found
  refine ⟨before.length, ?_⟩
  rw [StandsAt, List.append_assoc, List.drop_left]
  exact List.prefix_append _ _

theorem index?_first {c : CodePoint} {word text : Text} (fresh : c ∉ word) (absent : ¬c :: word <:+: text)
    (rest : Text) :
    index? (c :: word) (text ++ (c :: word ++ rest)) = some text.length := by
  rcases head_split (List.cons_ne_nil c word) (split_first fresh absent rest) with ⟨missing, _⟩ | found
  · refine absurd ?_ (index?_eq_none_iff.mp missing)
    exact (List.prefix_append _ _).isInfix.trans (List.suffix_append _ _).isInfix
  · exact found

section
variable {old : Text} (proper : old ≠ [])
include proper

/-- A part that occurs once is replaced there, and all else stays. -/
theorem replace_only (new : Text) {front rest : Text}
    (once : ∀ place, StandsAt old (front ++ (old ++ rest)) place → place = front.length) :
    replace old new (front ++ (old ++ rest)) = front ++ new ++ rest := by
  induction front with
  | nil =>
    have absent : ¬old <:+: rest := by
      intro found
      obtain ⟨place, stands⟩ := exists_standsAt found
      have positive := List.length_pos_iff.mpr proper
      have same : old.length + place = 0 := once _ (stands.append_left old)
      omega
    rw [List.nil_append, replace_start proper, replace_of_not_infix proper new absent, List.nil_append]
  | cons c front ih =>
    have unfit : ¬old <+: c :: (front ++ (old ++ rest)) :=
      fun starts => absurd (once 0 (standsAt_zero.mpr starts)) (by simp)
    rw [List.cons_append, replace_cons proper new unfit, ih fun place stands => ?_]
    · rfl
    · have same : place + 1 = front.length + 1 := once (place + 1) (standsAt_succ.mpr stands)
      omega

theorem count_replace_nil (c : CodePoint) (text : Text) :
    (replace old [] text).count c + (split old text).length * old.count c = text.count c + old.count c := by
  induction text using replaced_induction proper with
  | nil =>
    rw [replace_nil proper, show split old [] = [[]] from rfl]
    simp
  | start rest ih =>
    rw [replace_start proper, split_start proper, List.length_cons, Nat.add_mul, Nat.one_mul, ← Nat.add_assoc,
      List.nil_append, ih, List.count_append]
    omega
  | cons d rest absent ih =>
    obtain ⟨first, others, cut⟩ := List.exists_cons_of_ne_nil (split_ne_nil old rest)
    have pieces : (split old (d :: rest)).length = (split old rest).length := by
      rw [split_pass absent, cut]
      rfl
    rw [replace_cons proper [] absent, pieces, List.count_cons, List.count_cons]
    omega

/-- There is one piece more than there are places of a part that does not overlap itself. -/
theorem length_split_avoided (alone : Avoids old.tail old) (text : Text) :
    (split old text).length = (places old text).length + 1 := by
  suffices general : ∀ start, (split old text).length = (placesFrom old start text).length + 1 from general 0
  induction text using replaced_induction proper with
  | nil => exact fun _ => rfl
  | start rest ih =>
    intro start
    obtain ⟨c, word, rfl⟩ := List.exists_cons_of_ne_nil proper
    rw [List.tail_cons] at alone
    have starts : (c :: word).isPrefixOf (c :: (word ++ rest)) = true :=
      List.isPrefixOf_iff_prefix.mpr (List.prefix_append (c :: word) rest)
    rw [split_start proper, List.cons_append, placesFrom, if_pos starts, placesFrom_avoided alone, List.length_cons,
      List.length_cons, ← ih]
  | cons d rest absent ih =>
    intro start
    obtain ⟨first, others, cut⟩ := List.exists_cons_of_ne_nil (split_ne_nil old rest)
    have later := ih (start + 1)
    rw [cut] at later
    rw [split_pass absent, cut, placesFrom, if_neg (by rwa [List.isPrefixOf_iff_prefix])]
    exact later

end

end ApiDocs.Text
