import ApiDocs.Text.Basic

/-! Parts of a text between signed bounds. A bound below zero counts from the end, and every bound is
moved to the nearest place of the text, so a part always exists. -/

set_option autoImplicit false

namespace ApiDocs.Text

/-- The place that a signed bound names in a text of `length` code points. -/
def bound (length : Nat) (place : Int) : Nat :=
  if place < 0 then (place + length).toNat else min place.toNat length

@[simp] theorem bound_ofNat (length place : Nat) : bound length place = min place length := by
  unfold bound; split <;> omega

def upTo (text : Text) (stop : Int) : Text := text.take (bound text.length stop)

def since (text : Text) (start : Int) : Text := text.drop (bound text.length start)

/-- The code points from `start` on and before `stop`; none if the bounds cross. -/
def slice (text : Text) (start stop : Int) : Text :=
  (text.take (bound text.length stop)).drop (bound text.length start)

theorem upTo_append_since (text : Text) (place : Int) : upTo text place ++ since text place = text :=
  List.take_append_drop _ _

def insertAt (text : Text) (place : Int) (added : Text) : Text :=
  upTo text place ++ added ++ since text place

end ApiDocs.Text
