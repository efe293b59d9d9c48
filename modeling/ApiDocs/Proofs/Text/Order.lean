import ApiDocs.Text.Order
import Mathlib.Data.List.Basic

/-! The order of texts is linear, so a sorted list without repetition is determined by its members. -/

set_option autoImplicit false

namespace ApiDocs.Text

theorem le_total (first second : Text) : le first second = true ∨ le second first = true := by
  induction first generalizing second with
  | nil => exact .inl rfl
  | cons a as ih =>
    cases second with
    | nil => exact .inr rfl
    | cons b bs =>
      simp only [le, Bool.or_eq_true, Bool.and_eq_true, decide_eq_true_eq, beq_iff_eq]
      rcases Nat.lt_trichotomy a.toNat b.toNat with less | same | more
      · exact .inl (.inl less)
      · rcases ih bs with before | after
        · exact .inl (.inr ⟨same, before⟩)
        · exact .inr (.inr ⟨same.symm, after⟩)
      · exact .inr (.inl more)

theorem le_antisymm {first second : Text} (before : le first second = true) (after : le second first = true) :
    first = second := by
  induction first generalizing second with
  | nil => cases second with
    | nil => rfl
    | cons b bs => cases after
  | cons a as ih =>
    cases second with
    | nil => cases before
    | cons b bs =>
      simp only [le, Bool.or_eq_true, Bool.and_eq_true, decide_eq_true_eq, beq_iff_eq] at before after
      have same : a.toNat = b.toNat := by omega
      have point : a = b := by rw [← CodePoint.ofNat_toNat a, same, CodePoint.ofNat_toNat]
      rcases before with less | ⟨_, before⟩
      · omega
      rcases after with less | ⟨_, after⟩
      · omega
      rw [point, ih before after]

theorem le_trans {first second third : Text} (one : le first second = true) (two : le second third = true) :
    le first third = true := by
  induction first generalizing second third with
  | nil => rfl
  | cons a as ih =>
    cases second with
    | nil => cases one
    | cons b bs =>
      cases third with
      | nil => cases two
      | cons c cs =>
        simp only [le, Bool.or_eq_true, Bool.and_eq_true, decide_eq_true_eq, beq_iff_eq] at one two ⊢
        rcases one with less | ⟨same, one⟩
        · exact .inl (by omega)
        · rcases two with less | ⟨same', two⟩
          · exact .inl (by omega)
          · exact .inr ⟨by omega, ih one two⟩

theorem sorted_insertSorted (text : Text) {texts : List Text}
    (sorted : texts.Pairwise fun first second => le first second = true) :
    (insertSorted text texts).Pairwise fun first second => le first second = true := by
  induction sorted with
  | nil => exact List.pairwise_singleton _ _
  | @cons other others least sorted ih =>
    simp only [insertSorted]
    split
    · rename_i before
      refine List.pairwise_cons.mpr ⟨fun third mem => ?_, List.pairwise_cons.mpr ⟨least, sorted⟩⟩
      rcases List.mem_cons.mp mem with rfl | mem
      · exact before
      · exact le_trans before (least third mem)
    · rename_i after
      refine List.pairwise_cons.mpr ⟨fun third mem => ?_, ih⟩
      rcases List.mem_cons.mp ((insertSorted_perm text others).mem_iff.mp mem) with rfl | mem
      · exact (le_total _ _).resolve_left after
      · exact least third mem

theorem sorted_sort (texts : List Text) : (sort texts).Pairwise fun first second => le first second = true := by
  induction texts with
  | nil => exact .nil
  | cons text texts ih => exact sorted_insertSorted text ih

theorem sort_eq_iff {texts others : List Text} (same : texts.Perm others) :
    texts = sort others ↔ texts.Pairwise fun first second => le first second = true := by
  constructor
  · rintro rfl
    exact sorted_sort others
  · intro sorted
    exact List.Perm.eq_of_pairwise (fun _ _ _ _ => le_antisymm) sorted (sorted_sort others)
      (same.trans (sort_perm others).symm)

/-- Texts whose characters come after the first one of an ending are in the order that they have with the ending. -/
theorem le_of_le_append {first second : Text} {c : CodePoint} {ending : Text} (later : ∀ d ∈ first, c.toNat < d.toNat)
    (before : le (first ++ c :: ending) (second ++ c :: ending) = true) : le first second = true := by
  induction first generalizing second with
  | nil => rfl
  | cons a first ih =>
    have after := later a List.mem_cons_self
    cases second with
    | nil =>
      simp only [List.cons_append, List.nil_append, le, Bool.or_eq_true, Bool.and_eq_true, decide_eq_true_eq,
        beq_iff_eq] at before
      omega
    | cons b second =>
      simp only [List.cons_append, le, Bool.or_eq_true, Bool.and_eq_true, decide_eq_true_eq, beq_iff_eq] at before ⊢
      exact before.imp_right fun ⟨same, rest⟩ =>
        ⟨same, ih (fun d member => later d (List.mem_cons_of_mem _ member)) rest⟩

theorem nodup_eraseDups (texts : List Text) : texts.eraseDups.Nodup := by
  generalize size : texts.length = n
  induction n using Nat.strongRecOn generalizing texts with
  | _ n ih =>
    cases texts with
    | nil => simp
    | cons text texts =>
      rw [List.eraseDups_cons, List.nodup_cons]
      refine ⟨by simp [List.mem_eraseDups], ih _ ?_ _ rfl⟩
      have fewer := List.length_filter_le (fun other => !other == text) texts
      simp only [List.length_cons] at size
      omega

theorem mem_sortDistinct {text : Text} {texts : List Text} : text ∈ sortDistinct texts ↔ text ∈ texts := by
  rw [sortDistinct, (sort_perm _).mem_iff, List.mem_eraseDups]

theorem nodup_sortDistinct (texts : List Text) : (sortDistinct texts).Nodup :=
  (sort_perm _).nodup_iff.mpr (nodup_eraseDups texts)

theorem sortDistinct_congr {texts others : List Text} (same : ∀ text, text ∈ texts ↔ text ∈ others) :
    sortDistinct texts = sortDistinct others := by
  refine List.Perm.eq_of_pairwise (fun _ _ _ _ => le_antisymm) (sorted_sort _) (sorted_sort _) ?_
  refine (List.perm_ext_iff_of_nodup (nodup_sortDistinct _) (nodup_sortDistinct _)).mpr fun text => ?_
  rw [mem_sortDistinct, mem_sortDistinct, same]

end ApiDocs.Text
