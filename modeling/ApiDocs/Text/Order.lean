import ApiDocs.Text.Basic

/-! Texts in ascending order of their code points. -/

set_option autoImplicit false

namespace ApiDocs.Text

def le : Text → Text → Bool
  | [], _ => true
  | _ :: _, [] => false
  | a :: as, b :: bs => a.toNat < b.toNat || (a.toNat == b.toNat && le as bs)

def insertSorted (text : Text) : List Text → List Text
  | [] => [text]
  | other :: others => if le text other then text :: other :: others else other :: insertSorted text others

def sort : List Text → List Text
  | [] => []
  | text :: texts => insertSorted text (sort texts)

theorem insertSorted_perm (text : Text) (texts : List Text) :
    (insertSorted text texts).Perm (text :: texts) := by
  induction texts with
  | nil => exact .refl _
  | cons other others ih =>
    simp only [insertSorted]
    split
    · exact .refl _
    · exact (ih.cons other).trans (.swap text other others)

theorem sort_perm (texts : List Text) : (sort texts).Perm texts := by
  induction texts with
  | nil => exact .refl _
  | cons text texts ih => exact (insertSorted_perm text _).trans (ih.cons text)

def sortDistinct (texts : List Text) : List Text := sort texts.eraseDups

end ApiDocs.Text
