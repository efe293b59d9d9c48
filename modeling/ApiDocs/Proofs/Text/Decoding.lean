import ApiDocs.Proofs.File.Name

/-! Reading bytes as text. Bytes that can be read are those of the text that is read; with replacements for
what is no text, the bytes of a text are read the same way. -/

set_option autoImplicit false

namespace ApiDocs.Utf8

theorem bytesOf_ne_nil {text : Text} {c : Char} (member : .char c ∈ text) : bytesOf text ≠ [] := by
  intro empty
  exact encodeChar_ne_nil c (List.flatMap_eq_nil_iff.mp empty _ member)

theorem decodeLenientFrom_skip (tail rest : Bytes) :
    decodeLenientFrom tail.length (tail ++ rest) = decodeLenientFrom 0 rest := by
  induction tail with
  | nil => rfl
  | cons b tail ih => exact ih

theorem decodeLenient_bytesOf {text : Text} (plain : text.Plain) : decodeLenient (bytesOf text) = text := by
  unfold decodeLenient
  induction text with
  | nil => rfl
  | cons point rest ih =>
    obtain ⟨c, lead, more, rfl, cut, read, tail⟩ := reading_bytesOf plain
    simp only [cut, decodeLenientFrom, read, Nat.add_sub_cancel, decodeLenientFrom_skip, ih tail]

theorem plain_decodeLenient (bytes : Bytes) : (decodeLenient bytes).Plain := by
  suffices general : ∀ skip, (decodeLenientFrom skip bytes).Plain from general 0
  induction bytes with
  | nil => exact fun _ => .nil
  | cons b rest ih =>
    intro skip
    cases skip with
    | succ skip => exact ih skip
    | zero =>
      rw [decodeLenientFrom]
      split
      · exact Text.plain_cons.mpr ⟨rfl, ih _⟩
      · exact Text.plain_cons.mpr ⟨rfl, ih _⟩

theorem bytesOf_decode {bytes : Bytes} {text : Text} (decoded : decode bytes = .ok text) :
    bytesOf text = bytes := by
  suffices general : ∀ place (tail rest : Bytes) text, bytes = tail ++ rest →
      decodeFrom place tail.length bytes = .ok text → bytesOf text = rest from
    general 0 [] bytes text rfl decoded
  clear decoded
  induction bytes with
  | nil =>
    intro place tail rest text eq decoded
    obtain ⟨rfl, rfl⟩ := List.append_eq_nil_iff.mp eq.symm
    cases decoded
    rfl
  | cons b bytes ih =>
    intro place tail rest text eq decoded
    cases tail with
    | cons c tail => exact ih (place + 1) tail rest text (List.cons.inj eq).2 decoded
    | nil =>
      obtain rfl : rest = b :: bytes := eq.symm
      simp only [List.length_nil, decodeFrom] at decoded
      cases read : reading b bytes with
      | defect length reason => rw [read] at decoded; cases decoded
      | char c length =>
        rw [read] at decoded
        have found : (reading b bytes).found? = some (c, length) := by rw [read]; rfl
        obtain ⟨tail, more, split, rfl, encoded⟩ := encodeChar_of_reading found
        simp only [Nat.add_sub_cancel] at decoded
        cases inner : decodeFrom (place + 1) tail.length bytes with
        | error defect => rw [inner] at decoded; cases decoded
        | ok whole =>
          rw [inner] at decoded
          cases decoded
          have rest := ih (place + 1) tail more whole split inner
          have head : bytesOf (.char c :: whole) = encodeChar c ++ bytesOf whole := rfl
          rw [head, encoded, rest, split, List.cons_append]

def Reading.shown : Reading → Char × Nat
  | .char c length => (c, length)
  | .defect length _ => ('�', length)

theorem decodeLenientFrom_zero (b : UInt8) (rest : Bytes) :
    decodeLenientFrom 0 (b :: rest) =
      .char (reading b rest).shown.1 :: decodeLenientFrom ((reading b rest).shown.2 - 1) rest := by
  rw [decodeLenientFrom]
  cases reading b rest <;> rfl

theorem shown_before_low {m : UInt8} (low : m.toNat < 0x80) (lead : UInt8) (first second : Bytes) :
    (reading lead (first ++ m :: second)).shown = (reading lead first).shown ∧
      (reading lead first).shown.2 ≤ first.length + 1 := by
  have noTail := isTail_low low
  have noFollow := not_follows_low low
  unfold reading
  split
  · exact ⟨rfl, by simp [Reading.shown]⟩
  split
  · exact ⟨rfl, by simp [Reading.shown]⟩
  split
  · -- a lead asks for one further byte, or below for two or three; a low one is never among them
    match first with
    | [] => simp [noFollow, Reading.shown]
    | b :: first => cases follow : follows lead b <;> simp [Reading.shown, follow]
  split
  · match first with
    | [] => simp [noFollow, Reading.shown]
    | [b] => cases follow : follows lead b <;> simp [noTail, Reading.shown, follow]
    | b :: c :: first =>
      cases follow : follows lead b <;> cases tail : isTail c <;> simp [Reading.shown, follow, tail]
  split
  · match first with
    | [] => simp [noFollow, Reading.shown]
    | [b] => cases follow : follows lead b <;> simp [noTail, Reading.shown, follow]
    | [b, c] =>
      cases follow : follows lead b <;> cases tail : isTail c <;> simp [noTail, Reading.shown, follow, tail]
    | b :: c :: d :: first =>
      cases follow : follows lead b <;> cases tail : isTail c <;> cases last : isTail d <;>
        simp [Reading.shown, follow, tail, last]
  · exact ⟨rfl, by simp [Reading.shown]⟩

/-- Bytes are read up to a byte of its own as if nothing came after them. -/
theorem decodeLenient_low {m : UInt8} (low : m.toNat < 0x80) (first second : Bytes) :
    decodeLenient (first ++ m :: second) = decodeLenient first ++ decodeLenient (m :: second) := by
  suffices general : ∀ skip ≤ first.length,
      decodeLenientFrom skip (first ++ m :: second) = decodeLenientFrom skip first ++
        decodeLenientFrom 0 (m :: second) from
    general 0 (Nat.zero_le _)
  induction first with
  | nil =>
    intro skip bound
    obtain rfl := Nat.le_zero.mp bound
    rfl
  | cons b first ih =>
    intro skip bound
    cases skip with
    | succ skip => exact ih skip (by simpa using bound)
    | zero =>
      obtain ⟨same, inside⟩ := shown_before_low low b first second
      rw [List.cons_append, decodeLenientFrom_zero, decodeLenientFrom_zero, same, ih _ (by omega), List.cons_append]

end ApiDocs.Utf8
