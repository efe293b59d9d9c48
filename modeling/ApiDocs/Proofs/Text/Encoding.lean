import ApiDocs.Text.Utf8
import Mathlib.Data.List.Basic

/-! Encoding and decoding are inverse. A text without surrogates is read back from its bytes; a decoded
text never holds a surrogate. In a file's name the bytes of a slash end whatever comes before them, so a
name is decoded piece by piece. -/

set_option autoImplicit false

namespace ApiDocs

namespace Text

/-- A text of characters only, which can be encoded. -/
def Plain (text : Text) : Prop := ∀ point ∈ text, point.isSurrogate = false

theorem Plain.nil : Plain [] := by simp [Plain]

theorem plain_cons {point : CodePoint} {text : Text} :
    Plain (point :: text) ↔ point.isSurrogate = false ∧ Plain text := by
  simp [Plain]

theorem plain_append {first second : Text} : Plain (first ++ second) ↔ Plain first ∧ Plain second := by
  simp [Plain, or_imp, forall_and]

theorem Plain.of_subset {text other : Text} (plain : Plain other) (subset : text ⊆ other) : Plain text :=
  fun point member => plain point (subset member)

theorem plain_flatten {pieces : List Text} : Plain pieces.flatten ↔ ∀ piece ∈ pieces, Plain piece := by
  simp only [Plain, List.mem_flatten]
  exact ⟨fun plain piece member point inside => plain point ⟨piece, member, inside⟩,
    fun plain point ⟨piece, member, inside⟩ => plain piece member point inside⟩

theorem plain_ofChars (chars : List Char) : Plain (ofChars chars) := by
  simp [Plain, ofChars, CodePoint.isSurrogate]

end Text

namespace Utf8

theorem toNat_toUInt8 {n : Nat} (small : n < 256) : n.toUInt8.toNat = n := by
  simp [Nat.toUInt8]
  omega

theorem lead_lt {lead : UInt8} {n : Nat} (value : lead.toNat = n) :
    (lead < 0x80 ↔ n < 0x80) ∧ (lead < 0xC2 ↔ n < 0xC2) ∧ (lead < 0xE0 ↔ n < 0xE0) ∧ (lead < 0xF0 ↔ n < 0xF0) ∧
      (lead < 0xF5 ↔ n < 0xF5) := by
  simp [UInt8.lt_iff_toNat_lt, value]

section Reading
variable {n : Nat} {a b c d : UInt8} (rest : Bytes)

theorem reading_one (small : n < 0x80) (lead : a.toNat = n) :
    reading a rest = .char (Char.ofNat n) 1 := by
  have low : a < 0x80 := by rw [UInt8.lt_iff_toNat_lt, lead]; exact small
  unfold reading
  rw [if_pos low, lead]

theorem reading_two (least : 0x80 ≤ n) (small : n < 0x800) (lead : a.toNat = 0xC0 + n / 64)
    (second : b.toNat = 0x80 + n % 64) : reading a (b :: rest) = .char (Char.ofNat n) 2 := by
  have follow : follows a b = true := by
    simp [follows, isTail, UInt8.le_iff_toNat_le, UInt8.lt_iff_toNat_lt, ← UInt8.toNat_inj, lead, second]
    omega
  obtain ⟨low, start, high, _⟩ := lead_lt lead
  have value : (a.toNat - 0xC0) * 64 + payload b = n := by unfold payload; omega
  unfold reading
  simp only [if_neg (mt low.mp (by omega)), if_neg (mt start.mp (by omega)), if_pos (high.mpr (by omega)),
    if_pos follow]
  rw [value]

theorem reading_three (least : 0x800 ≤ n) (small : n < 0x10000) (scalar : n < 0xD800 ∨ 0xDFFF < n)
    (lead : a.toNat = 0xE0 + n / 4096) (second : b.toNat = 0x80 + n / 64 % 64)
    (third : c.toNat = 0x80 + n % 64) : reading a (b :: c :: rest) = .char (Char.ofNat n) 3 := by
  have follow : follows a b = true := by
    simp [follows, isTail, UInt8.le_iff_toNat_le, UInt8.lt_iff_toNat_lt, ← UInt8.toNat_inj, lead, second]
    omega
  have tail : isTail c = true := by
    simp [isTail, UInt8.le_iff_toNat_le, third]
    omega
  obtain ⟨low, start, two, high, _⟩ := lead_lt lead
  have value : (a.toNat - 0xE0) * 4096 + payload b * 64 + payload c = n := by unfold payload; omega
  unfold reading
  simp only [if_neg (mt low.mp (by omega)), if_neg (mt start.mp (by omega)), if_neg (mt two.mp (by omega)),
    if_pos (high.mpr (by omega)), follow, tail, Bool.not_true, Bool.false_eq_true, if_false, if_true]
  rw [value]

theorem reading_four (least : 0x10000 ≤ n) (small : n < 0x110000)
    (lead : a.toNat = 0xF0 + n / 262144) (second : b.toNat = 0x80 + n / 4096 % 64)
    (third : c.toNat = 0x80 + n / 64 % 64) (fourth : d.toNat = 0x80 + n % 64) :
    reading a (b :: c :: d :: rest) = .char (Char.ofNat n) 4 := by
  have follow : follows a b = true := by
    simp [follows, isTail, UInt8.le_iff_toNat_le, UInt8.lt_iff_toNat_lt, ← UInt8.toNat_inj, lead, second]
    omega
  have tail : isTail c = true := by
    simp [isTail, UInt8.le_iff_toNat_le, third]
    omega
  have last : isTail d = true := by
    simp [isTail, UInt8.le_iff_toNat_le, fourth]
    omega
  obtain ⟨low, start, two, three, high⟩ := lead_lt lead
  have value : (a.toNat - 0xF0) * 262144 + payload b * 4096 + payload c * 64 + payload d = n := by
    unfold payload; omega
  unfold reading
  simp only [if_neg (mt low.mp (by omega)), if_neg (mt start.mp (by omega)), if_neg (mt two.mp (by omega)),
    if_neg (mt three.mp (by omega)), if_pos (high.mpr (by omega)), follow, tail, last, Bool.not_true,
      Bool.false_eq_true,
    if_false, if_true]
  rw [value]

end Reading

/-- The bytes of a character are read back as that character, whatever comes after them. -/
theorem reading_encodeChar (ch : Char) (rest : Bytes) :
    ∃ lead tail, encodeChar ch = lead :: tail ∧
      reading lead (tail ++ rest) = .char ch (tail.length + 1) := by
  have valid : ch.toNat < 0xD800 ∨ 0xDFFF < ch.toNat ∧ ch.toNat < 0x110000 := ch.valid
  have same : Char.ofNat ch.toNat = ch := Char.ofNat_toNat ch
  unfold encodeChar
  generalize ch.toNat = n at valid same
  dsimp only
  split
  · exact ⟨_, _, rfl, same ▸ reading_one _ (by assumption) (toNat_toUInt8 (by omega))⟩
  split
  · exact ⟨_, _, rfl, same ▸ reading_two _ (by omega) (by assumption) (toNat_toUInt8 (by omega))
      (toNat_toUInt8 (by omega))⟩
  split
  · exact ⟨_, _, rfl, same ▸ reading_three _ (by omega) (by assumption) (by omega)
      (toNat_toUInt8 (by omega)) (toNat_toUInt8 (by omega)) (toNat_toUInt8 (by omega))⟩
  · exact ⟨_, _, rfl, same ▸ reading_four _ (by omega) (by omega) (toNat_toUInt8 (by omega))
      (toNat_toUInt8 (by omega)) (toNat_toUInt8 (by omega)) (toNat_toUInt8 (by omega))⟩

def bytesOf (text : Text) : Bytes :=
  text.flatMap fun
    | .char c => encodeChar c
    | .surrogate _ => []

theorem bytesOf_append (first second : Text) :
    bytesOf (first ++ second) = bytesOf first ++ bytesOf second := by
  simp [bytesOf]

theorem encodeFrom_plain (escape? : Fin 2048 → Option UInt8) {text : Text} (plain : text.Plain) (place : Nat) :
    encodeFrom escape? place text = .ok (bytesOf text) := by
  induction text generalizing place with
  | nil => rfl
  | cons point rest ih =>
    obtain ⟨head, tail⟩ := Text.plain_cons.mp plain
    cases point with
    | surrogate offset => cases head
    | char c => simp [encodeFrom, ih tail, bytesOf, Except.map]

/-- Exactly the texts without surrogates have an encoding. -/
theorem encode_eq_ok_iff {text : Text} {bytes : Bytes} :
    encode text = .ok bytes ↔ text.Plain ∧ bytes = bytesOf text := by
  constructor
  · intro encoded
    suffices plain : text.Plain by
      rw [encode, encodeFrom_plain _ plain] at encoded
      exact ⟨plain, (Except.ok.inj encoded).symm⟩
    unfold encode at encoded
    generalize 0 = place at encoded
    induction text generalizing place bytes with
    | nil => exact .nil
    | cons point rest ih =>
      cases point with
      | surrogate offset => cases encoded
      | char c =>
        refine Text.plain_cons.mpr ⟨rfl, ?_⟩
        simp only [encodeFrom] at encoded
        cases inner : encodeFrom (fun _ => none) (place + 1) rest with
        | error run => rw [inner] at encoded; cases encoded
        | ok added => exact ih _ inner
  · rintro ⟨plain, rfl⟩
    exact encodeFrom_plain _ plain 0

theorem decodeFrom_skip (tail rest : Bytes) (place : Nat) :
    decodeFrom place tail.length (tail ++ rest) = decodeFrom (place + tail.length) 0 rest := by
  induction tail generalizing place with
  | nil => rfl
  | cons b tail ih =>
    rw [List.length_cons, List.cons_append, decodeFrom, ih]
    congr 1
    omega

theorem reading_bytesOf {point : CodePoint} {rest : Text} (plain : Text.Plain (point :: rest)) :
    ∃ c lead more, point = .char c ∧ bytesOf (point :: rest) = lead :: (more ++ bytesOf rest) ∧
      reading lead (more ++ bytesOf rest) = .char c (more.length + 1) ∧ rest.Plain := by
  obtain ⟨head, tail⟩ := Text.plain_cons.mp plain
  cases point with
  | surrogate offset => cases head
  | char c =>
    obtain ⟨lead, more, bytes, read⟩ := reading_encodeChar c (bytesOf rest)
    exact ⟨c, lead, more, rfl, by simp [bytesOf, bytes], read, tail⟩

theorem decodeFrom_bytesOf {text : Text} (plain : text.Plain) (place : Nat) :
    decodeFrom place 0 (bytesOf text) = .ok text := by
  induction text generalizing place with
  | nil => rfl
  | cons point rest ih =>
    obtain ⟨c, lead, more, rfl, cut, read, tail⟩ := reading_bytesOf plain
    simp only [cut, decodeFrom, read, Nat.add_sub_cancel, decodeFrom_skip, ih tail, Except.map]

theorem decode_bytesOf {text : Text} (plain : text.Plain) : decode (bytesOf text) = .ok text :=
  decodeFrom_bytesOf plain 0

theorem plain_of_decodeFrom {bytes : Bytes} {text : Text} {place skip : Nat}
    (decoded : decodeFrom place skip bytes = .ok text) : text.Plain := by
  induction bytes generalizing place skip text with
  | nil => cases skip <;> (cases decoded; exact .nil)
  | cons b rest ih =>
    cases skip with
    | succ skip => exact ih decoded
    | zero =>
      simp only [decodeFrom] at decoded
      split at decoded
      · rename_i c length _
        cases inner : decodeFrom (place + 1) (length - 1) rest with
        | error defect => rw [inner] at decoded; cases decoded
        | ok more =>
          rw [inner] at decoded
          cases decoded
          exact Text.plain_cons.mpr ⟨rfl, ih inner⟩
      · cases decoded

theorem plain_of_decode {bytes : Bytes} {text : Text} (decoded : decode bytes = .ok text) : text.Plain :=
  plain_of_decodeFrom decoded

theorem decode_of_decodeLines {bytes : Bytes} {text : Text} (decoded : decodeLines bytes = .ok text) :
    decode bytes = .ok text := by
  unfold decodeLines at decoded
  split at decoded
  · rename_i text' eq
    rw [eq, decoded]
  · cases decoded

theorem decodeLines_bytesOf {text : Text} (plain : text.Plain) : decodeLines (bytesOf text) = .ok text := by
  rw [decodeLines, decode_bytesOf plain]

theorem plain_of_decodeLines {bytes : Bytes} {text : Text} (decoded : decodeLines bytes = .ok text) :
    text.Plain :=
  plain_of_decode (decode_of_decodeLines decoded)

end Utf8
end ApiDocs
