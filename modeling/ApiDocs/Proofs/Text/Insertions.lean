import ApiDocs.Proofs.Text.Independent

/-! Texts that are put in at places of a text. Taken out again from where they stand afterwards they give the text back.
What is looked for is not found in a part that it avoids, so places after such a part are those of the rest of the
text. -/

set_option autoImplicit false

namespace ApiDocs.Text

def insertion (added : Text) (place : Nat) : Edit := ⟨place, place, added⟩

/-- The edits that take out again what insertions have put in, where it stands afterwards; `shift` has been put in
before. -/
def deletions (shift : Nat) : List Edit → List Edit
  | [] => []
  | edit :: edits =>
    ⟨edit.start + shift, edit.start + shift + edit.new.length, []⟩ :: deletions (shift + edit.new.length) edits

/-- Edits that only put in, at ascending places of a text from a place on. -/
def Inserts (text : Text) (place : Nat) : List Edit → Prop
  | [] => place ≤ text.length
  | edit :: edits => place ≤ edit.start ∧ edit.stop = edit.start ∧ Inserts text edit.start edits

theorem Inserts.apart {text : Text} {place : Nat} {edits : List Edit} (inserts : Inserts text place edits) :
    Apart text place edits := by
  induction edits generalizing place with
  | nil => exact inserts
  | cons edit edits ih =>
    obtain ⟨after, still, later⟩ := inserts
    exact ⟨after, Nat.le_of_eq still.symm, still ▸ ih later⟩

theorem inserts_map (added : Text) {text : Text} {place : Nat} {places : List Nat} (inside : place ≤ text.length)
    (ascending : (place :: places).Pairwise (· ≤ ·)) (bounded : ∀ other ∈ places, other ≤ text.length) :
    Inserts text place (places.map (insertion added)) := by
  induction places generalizing place with
  | nil => exact inside
  | cons next places ih =>
    obtain ⟨first, later⟩ := List.pairwise_cons.mp ascending
    exact ⟨first next List.mem_cons_self, rfl,
      ih (bounded next List.mem_cons_self) later fun other member => bounded other (List.mem_cons_of_mem next member)⟩

/-- What has been put in can be taken out again. -/
theorem Inserts.patch_deletions {text : Text} {edits : List Edit} (inserts : Inserts text 0 edits) :
    patch (patch text edits) (deletions 0 edits) = text := by
  -- in front of the place stands what has been inserted so far, which moves everything by the shift
  suffices general : ∀ (front : Text) place shift, Inserts text place edits → front.length = place + shift →
      patchFrom (front ++ patchFrom text place edits) front.length (deletions shift edits) = text.drop place from
    general [] 0 0 inserts rfl
  clear inserts
  induction edits with
  | nil => exact fun front place shift _ _ => List.drop_left
  | cons edit edits ih =>
    rintro front place shift ⟨after, still, later⟩ moved
    have inside := later.apart.le_length
    have between : ((text.take edit.start).drop place).length = edit.start - place := by
      rw [List.length_drop, List.length_take_of_le inside]
    have stop : (front ++ (text.take edit.start).drop place).length = edit.start + shift := by
      rw [List.length_append, between]
      omega
    have next := ih (front ++ (text.take edit.start).drop place ++ edit.new) edit.start (shift + edit.new.length) later
      (by rw [List.length_append, stop]; omega)
    rw [List.length_append, stop] at next
    have whole : front ++ patchFrom text place (edit :: edits) =
        front ++ (text.take edit.start).drop place ++ edit.new ++ patchFrom text edit.start edits := by
      rw [patchFrom, still]
      simp only [List.append_assoc]
    rw [deletions, patchFrom, whole, next, List.append_assoc _ edit.new, List.take_left' stop, List.drop_left,
      List.append_nil]
    have cut : place ≤ (text.take edit.start).length := by rwa [List.length_take_of_le inside]
    rw [← List.drop_append_of_le_length cut, List.take_append_drop]

/-- After a front that nothing is put into, the rest of a text is patched as if it stood alone. -/
theorem patchFrom_lead (front text added : Text) (size place : Nat) (places : List Nat) :
    patchFrom (front ++ text) (front.length + place)
        ((places.map (front.length + ·)).map fun next => insertion added (next + size)) =
      patchFrom text place (places.map fun next => insertion added (next + size)) := by
  induction places generalizing place with
  | nil => exact List.drop_length_add_append _
  | cons next places ih =>
    simp only [List.map_cons, patchFrom, insertion, Nat.add_assoc]
    rw [List.take_length_add_append, List.drop_length_add_append]
    exact congrArg _ (ih (next + size))

section
variable {part lead : Text} (avoids : Avoids lead part)
include avoids

theorem index?_lead (rest : Text) : index? part (lead ++ rest) = (index? part rest).map (lead.length + ·) := by
  induction lead with
  | nil => simp
  | cons c lead ih =>
    have unfit : ¬part.isPrefixOf (c :: (lead ++ rest)) = true := fun starts =>
      avoids.not_starting (List.cons_ne_nil c lead) rest (List.isPrefixOf_iff_prefix.mp starts)
    have count : ∀ place, lead.length + place + 1 = (c :: lead).length + place := by
      intro place
      rw [List.length_cons]
      omega
    rw [List.cons_append, index?, if_neg unfit, ih avoids.tail, Option.map_map]
    exact congrArg (Option.map · _) (funext count)

theorem placesFrom_avoided (rest : Text) (start : Nat) :
    placesFrom part start (lead ++ rest) = placesFrom part (start + lead.length) rest := by
  induction lead generalizing start with
  | nil => rfl
  | cons c lead ih =>
    have unfit : ¬part.isPrefixOf (c :: (lead ++ rest)) = true := fun starts =>
      avoids.not_starting (List.cons_ne_nil c lead) rest (List.isPrefixOf_iff_prefix.mp starts)
    rw [List.cons_append, placesFrom, if_neg unfit, ih avoids.tail, List.length_cons, Nat.add_assoc, Nat.add_comm 1]

end

theorem placesFrom_shift (part text : Text) (start : Nat) :
    placesFrom part start text = (places part text).map (start + ·) := by
  suffices general : ∀ early, placesFrom part (start + early) text =
    (placesFrom part early text).map (start + ·) from general 0
  induction text with
  | nil => exact fun _ => rfl
  | cons c rest ih =>
    intro early
    rw [placesFrom, placesFrom, Nat.add_assoc, ih]
    split
    · rfl
    · rfl

theorem filter_places {part : Text} (proper : part ≠ []) (front rest : Text) (late : Nat → Bool) :
    (places part (front ++ rest)).filter (fun place => front.length ≤ place && late place) =
      ((places part rest).map (front.length + ·)).filter late := by
  suffices general : ∀ start, (placesFrom part start (front ++ rest)).filter
        (fun place => start + front.length ≤ place && late place) =
          (placesFrom part (start + front.length) rest).filter late by
    have whole := general 0
    rwa [Nat.zero_add, placesFrom_shift part rest] at whole
  induction front with
  | nil =>
    intro start
    refine List.filter_congr fun place member => ?_
    obtain ⟨offset, rfl, _⟩ := (mem_placesFrom proper).mp member
    simp
  | cons c front ih =>
    intro start
    have early : decide (start + (c :: front).length ≤ start) = false := decide_eq_false (by simp)
    have next := ih (start + 1)
    rw [Nat.add_assoc, Nat.add_comm 1, ← List.length_cons (a := c)] at next
    rw [List.cons_append, placesFrom]
    split
    · rw [List.filter_cons_of_neg (by rw [early]; exact Bool.false_ne_true), next]
    · exact next

end ApiDocs.Text
