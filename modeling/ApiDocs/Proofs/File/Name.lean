import ApiDocs.File.Path
import ApiDocs.Proofs.Text.Encoding

/-! Names of files as bytes. A path is read through its bytes: they say whether it is refused, and what it
is read as, so reading it again changes nothing. A slash cuts a path into parts that are read by
themselves. -/

set_option autoImplicit false

namespace ApiDocs.Utf8

theorem toNat_charOfNat {n : Nat} (scalar : n < 0xD800 ∨ 0xDFFF < n ∧ n < 0x110000) :
    (Char.ofNat n).toNat = n := by
  have valid : n.isValidChar := scalar
  rw [Char.ofNat, dif_pos valid]
  rfl

theorem toUInt8_eq {n : Nat} (b : UInt8) (value : n = b.toNat) : n.toUInt8 = b := by
  apply UInt8.toNat_inj.mp
  have small := b.toNat_lt
  rw [toNat_toUInt8 (by omega), value]

theorem isTail_spec {b : UInt8} (tail : isTail b = true) : 0x80 ≤ b.toNat ∧ b.toNat ≤ 0xBF := by
  simpa [isTail, UInt8.le_iff_toNat_le] using tail

theorem follows_spec {lead b : UInt8} (follow : follows lead b = true) :
    (0x80 ≤ b.toNat ∧ b.toNat ≤ 0xBF) ∧ (lead.toNat = 0xE0 → 0xA0 ≤ b.toNat) ∧
      (lead.toNat = 0xED → b.toNat < 0xA0) ∧ (lead.toNat = 0xF0 → 0x90 ≤ b.toNat) ∧
      (lead.toNat = 0xF4 → b.toNat < 0x90) := by
  simp [follows, isTail, UInt8.le_iff_toNat_le, UInt8.lt_iff_toNat_lt, ← UInt8.toNat_inj] at follow
  omega

section Inverse
variable {a b c d : UInt8}

theorem encodeChar_one (low : a.toNat < 0x80) : encodeChar (Char.ofNat a.toNat) = [a] := by
  unfold encodeChar
  rw [toNat_charOfNat (by omega)]
  simp [low]

theorem encodeChar_two (start : 0xC2 ≤ a.toNat) (high : a.toNat < 0xE0) (follow : follows a b = true) :
    encodeChar (Char.ofNat ((a.toNat - 0xC0) * 64 + payload b)) = [a, b] := by
  have bounds := follows_spec follow
  unfold payload encodeChar
  rw [toNat_charOfNat (by omega)]
  dsimp only
  rw [if_neg (by omega), if_pos (by omega), toUInt8_eq a (by omega), toUInt8_eq b (by omega)]

theorem encodeChar_three (start : 0xE0 ≤ a.toNat) (high : a.toNat < 0xF0) (follow : follows a b = true)
    (tail : isTail c = true) :
    encodeChar (Char.ofNat ((a.toNat - 0xE0) * 4096 + payload b * 64 + payload c)) = [a, b, c] := by
  have bounds := follows_spec follow
  have more := isTail_spec tail
  unfold payload encodeChar
  rw [toNat_charOfNat (by omega)]
  dsimp only
  rw [if_neg (by omega), if_neg (by omega), if_pos (by omega), toUInt8_eq a (by omega),
    toUInt8_eq b (by omega), toUInt8_eq c (by omega)]

theorem encodeChar_four (start : 0xF0 ≤ a.toNat) (high : a.toNat < 0xF5) (follow : follows a b = true)
    (tail : isTail c = true) (last : isTail d = true) :
    encodeChar (Char.ofNat ((a.toNat - 0xF0) * 262144 + payload b * 4096 + payload c * 64 + payload d)) =
      [a, b, c, d] := by
  have bounds := follows_spec follow
  have more := isTail_spec tail
  have most := isTail_spec last
  unfold payload encodeChar
  rw [toNat_charOfNat (by omega)]
  dsimp only
  rw [if_neg (by omega), if_neg (by omega), if_neg (by omega), toUInt8_eq a (by omega),
    toUInt8_eq b (by omega), toUInt8_eq c (by omega), toUInt8_eq d (by omega)]

end Inverse

def Reading.found? : Reading → Option (Char × Nat)
  | .char c length => some (c, length)
  | .defect _ _ => none

theorem encodeChar_of_reading {lead : UInt8} {rest : Bytes} {c : Char} {length : Nat}
    (read : (reading lead rest).found? = some (c, length)) :
    ∃ tail more, rest = tail ++ more ∧ length = tail.length + 1 ∧ encodeChar c = lead :: tail := by
  unfold reading at read
  split at read
  · rename_i low
    obtain ⟨rfl, rfl⟩ := Prod.mk.inj (Option.some.inj read)
    exact ⟨[], rest, rfl, rfl, encodeChar_one (by simpa [UInt8.lt_iff_toNat_lt] using low)⟩
  split at read
  · cases read
  rename_i start
  simp only [UInt8.lt_iff_toNat_lt, UInt8.reduceToNat, Nat.not_lt] at start
  split at read
  · -- one further byte
    rename_i high
    simp only [UInt8.lt_iff_toNat_lt, UInt8.reduceToNat] at high
    match rest, read with
    | b :: more, read =>
      simp only at read
      split at read
      · rename_i follow
        obtain ⟨rfl, rfl⟩ := Prod.mk.inj (Option.some.inj read)
        exact ⟨[b], more, rfl, rfl, encodeChar_two start high follow⟩
      · cases read
  rename_i two
  simp only [UInt8.lt_iff_toNat_lt, UInt8.reduceToNat, Nat.not_lt] at two
  split at read
  · -- two further bytes
    rename_i high
    simp only [UInt8.lt_iff_toNat_lt, UInt8.reduceToNat] at high
    match rest, read with
    | [b], read =>
      simp only at read
      split at read <;> cases read
    | b :: c :: more, read =>
      simp only at read
      split at read
      · cases read
      rename_i follow
      split at read
      · rename_i tail
        obtain ⟨rfl, rfl⟩ := Prod.mk.inj (Option.some.inj read)
        exact ⟨[b, c], more, rfl, rfl, encodeChar_three two high (by simpa using follow) tail⟩
      · cases read
  rename_i three
  simp only [UInt8.lt_iff_toNat_lt, UInt8.reduceToNat, Nat.not_lt] at three
  split at read
  · -- three further bytes
    rename_i high
    simp only [UInt8.lt_iff_toNat_lt, UInt8.reduceToNat] at high
    match rest, read with
    | [b], read =>
      simp only at read
      split at read <;> cases read
    | [b, c], read =>
      simp only at read
      split at read
      · cases read
      split at read <;> cases read
    | b :: c :: d :: more, read =>
      simp only at read
      split at read
      · cases read
      rename_i follow
      split at read
      · cases read
      rename_i tail
      split at read
      · rename_i last
        obtain ⟨rfl, rfl⟩ := Prod.mk.inj (Option.some.inj read)
        exact ⟨[b, c, d], more, rfl, rfl,
          encodeChar_four three high (by simpa using follow) (by simpa using tail) last⟩
      · cases read
  · cases read

section
variable {m : UInt8} (low : m.toNat < 0x80)
include low

theorem isTail_low : isTail m = false := by
  rw [Bool.eq_false_iff]
  intro tail
  have high := isTail_spec tail
  omega

theorem not_follows_low (lead : UInt8) : follows lead m = false := by
  simp [follows, isTail_low low]

theorem found?_before_low (lead : UInt8) (first second : Bytes) :
    (reading lead (first ++ m :: second)).found? = (reading lead first).found? := by
  have noTail := isTail_low low
  have noFollow := not_follows_low low
  unfold reading
  split
  · rfl
  split
  · rfl
  split
  · match first with
    | [] => simp [noFollow, Reading.found?]
    | b :: first => rfl
  split
  · match first with
    | [] => simp [noFollow, Reading.found?]
    | [b] => cases follow : follows lead b <;> simp [noTail, Reading.found?, follow]
    | b :: c :: first => rfl
  split
  · match first with
    | [] => simp [noFollow, Reading.found?]
    | [b] => cases follow : follows lead b <;> simp [noTail, Reading.found?, follow]
    | [b, c] =>
      cases follow : follows lead b <;> cases tail : isTail c <;>
        simp [noTail, Reading.found?, follow, tail]
    | b :: c :: d :: first => rfl
  · rfl

end

theorem decodeNameFrom_skip (tail rest : Bytes) :
    decodeNameFrom tail.length (tail ++ rest) = decodeNameFrom 0 rest := by
  induction tail with
  | nil => rfl
  | cons b tail ih => exact ih

theorem decodeName_low {m : UInt8} (low : m.toNat < 0x80) (first second : Bytes) :
    decodeName (first ++ m :: second) =
      decodeName first ++ .char (Char.ofNat m.toNat) :: decodeName second := by
  suffices general : ∀ skip ≤ first.length,
      decodeNameFrom skip (first ++ m :: second) =
        decodeNameFrom skip first ++ .char (Char.ofNat m.toNat) :: decodeNameFrom 0 second from
    general 0 (Nat.zero_le _)
  induction first with
  | nil =>
    intro skip bound
    obtain rfl := Nat.le_zero.mp bound
    have single : reading m second = .char (Char.ofNat m.toNat) 1 := by
      unfold reading
      rw [if_pos (by simpa [UInt8.lt_iff_toNat_lt] using low)]
    simp [decodeNameFrom, single]
  | cons b first ih =>
    intro skip bound
    cases skip with
    | succ skip => exact ih skip (by simpa using bound)
    | zero =>
      have same := found?_before_low low b first second
      simp only [List.cons_append, decodeNameFrom]
      cases inner : reading b first with
      | char c length =>
        rw [inner] at same
        have inside : length - 1 ≤ first.length := by
          have found : (reading b first).found? = some (c, length) := by rw [inner]; rfl
          obtain ⟨tail, more, rfl, rfl, _⟩ := encodeChar_of_reading found
          simp
        cases outer : reading b (first ++ m :: second) with
        | char c' length' =>
          rw [outer] at same
          obtain ⟨rfl, rfl⟩ := Prod.mk.inj (Option.some.inj same)
          simp [ih _ inside]
        | defect => rw [outer] at same; cases same
      | defect length reason =>
        rw [inner] at same
        cases outer : reading b (first ++ m :: second) with
        | char c' length' => rw [outer] at same; cases same
        | defect => simp [ih 0 (Nat.zero_le _)]

theorem decodeName_slash (first second : Bytes) :
    decodeName (first ++ 0x2F :: second) = decodeName first ++ .char '/' :: decodeName second :=
  decodeName_low (by decide) first second

/-- The bytes that a name is spelled with. -/
inductive Spelled : Text → Bytes → Prop
  | nil : Spelled [] []
  | char (c : Char) {text : Text} {bytes : Bytes} :
    Spelled text bytes → Spelled (.char c :: text) (encodeChar c ++ bytes)
  | byte {offset : Fin 2048} {b : UInt8} {text : Text} {bytes : Bytes} :
    escapedByte? offset = some b → Spelled text bytes → Spelled (.surrogate offset :: text) (b :: bytes)

theorem spelled_of_encodeFrom {text : Text} {bytes : Bytes} {place : Nat}
    (encoded : encodeFrom escapedByte? place text = .ok bytes) : Spelled text bytes := by
  induction text generalizing bytes place with
  | nil => cases encoded; exact .nil
  | cons point rest ih =>
    cases point with
    | char c =>
      simp only [encodeFrom] at encoded
      cases inner : encodeFrom escapedByte? (place + 1) rest with
      | error run => rw [inner] at encoded; cases encoded
      | ok added => rw [inner] at encoded; cases encoded; exact .char c (ih inner)
    | surrogate offset =>
      simp only [encodeFrom] at encoded
      cases escaped : escapedByte? offset with
      | none => rw [escaped] at encoded; cases encoded
      | some byte =>
        rw [escaped] at encoded
        cases inner : encodeFrom escapedByte? (place + 1) rest with
        | error run => simp only [inner] at encoded; cases encoded
        | ok added => simp only [inner] at encoded; cases encoded; exact .byte escaped (ih inner)

theorem Spelled.encodeFrom {text : Text} {bytes : Bytes} (spelled : Spelled text bytes) (place : Nat) :
    encodeFrom escapedByte? place text = .ok bytes := by
  induction spelled generalizing place with
  | nil => rfl
  | char c _ ih => simp only [Utf8.encodeFrom, ih, Except.map]
  | byte escaped _ ih => simp only [Utf8.encodeFrom, escaped, ih, Except.map]

theorem encodeName_eq_ok_iff {text : Text} {bytes : Bytes} :
    encodeName text = .ok bytes ↔ Spelled text bytes :=
  ⟨spelled_of_encodeFrom, fun spelled => spelled.encodeFrom 0⟩

theorem Spelled.unique {text : Text} {first second : Bytes} (left : Spelled text first)
    (right : Spelled text second) : first = second :=
  Except.ok.inj ((encodeName_eq_ok_iff.mpr left).symm.trans (encodeName_eq_ok_iff.mpr right))

theorem Spelled.append {first second : Text} {left right : Bytes} (head : Spelled first left)
    (tail : Spelled second right) : Spelled (first ++ second) (left ++ right) := by
  induction head with
  | nil => exact tail
  | char c _ ih => rw [List.append_assoc]; exact .char c ih
  | byte escaped _ ih => exact .byte escaped ih

theorem Spelled.split {first second : Text} {bytes : Bytes} (spelled : Spelled (first ++ second) bytes) :
    ∃ left right, bytes = left ++ right ∧ Spelled first left ∧ Spelled second right := by
  induction first generalizing bytes with
  | nil => exact ⟨[], bytes, rfl, .nil, spelled⟩
  | cons point rest ih =>
    cases spelled with
    | char c inner =>
      obtain ⟨left, right, rfl, head, tail⟩ := ih inner
      exact ⟨encodeChar c ++ left, right, by simp, .char c head, tail⟩
    | byte escaped inner =>
      obtain ⟨left, right, rfl, head, tail⟩ := ih inner
      exact ⟨_ :: left, right, rfl, .byte escaped head, tail⟩

theorem spelled_slash : Spelled [.char '/'] [0x2F] := .char '/' .nil

theorem spelled_of_plain {text : Text} (plain : text.Plain) : Spelled text (bytesOf text) :=
  encodeName_eq_ok_iff.mp (encodeFrom_plain _ plain 0)

theorem decodeName_bytesOf {text : Text} (plain : text.Plain) : decodeName (bytesOf text) = text := by
  unfold decodeName
  induction text with
  | nil => rfl
  | cons point rest ih =>
    obtain ⟨c, lead, more, rfl, cut, read, tail⟩ := reading_bytesOf plain
    simp only [cut, decodeNameFrom, read, Nat.add_sub_cancel, decodeNameFrom_skip, ih tail]

theorem high_of_defect {b : UInt8} {rest : Bytes} (none : (reading b rest).found? = none) : 0x80 ≤ b.toNat := by
  by_contra low
  have small : b < 0x80 := by
    simp only [UInt8.lt_iff_toNat_lt, UInt8.reduceToNat]
    omega
  unfold reading at none
  rw [if_pos small] at none
  cases none

theorem ofNat_escape (b : UInt8) (high : 0x80 ≤ b.toNat) :
    ∃ offset, CodePoint.ofNat (0xDC00 + b.toNat) = .surrogate offset ∧ escapedByte? offset = some b := by
  have small := b.toNat_lt
  refine ⟨⟨0x400 + b.toNat, by omega⟩, ?_, ?_⟩
  · rw [CodePoint.ofNat, dif_pos (by omega)]
    exact congrArg CodePoint.surrogate (Fin.ext (by simp only; omega))
  · simp only [escapedByte?]
    rw [if_pos (by simp; omega)]
    exact congrArg some (toUInt8_eq b (by omega))

/-- What bytes are read as is spelled with these bytes. -/
theorem spelled_decodeName (bytes : Bytes) : Spelled (decodeName bytes) bytes := by
  -- the bytes of a character that is under way are still to be skipped
  suffices general : ∀ tail rest : Bytes, bytes = tail ++ rest →
      Spelled (decodeNameFrom tail.length bytes) rest from general [] bytes rfl
  induction bytes with
  | nil =>
    intro tail rest eq
    obtain ⟨rfl, rfl⟩ := List.append_eq_nil_iff.mp eq.symm
    exact .nil
  | cons b bytes ih =>
    intro tail rest eq
    cases tail with
    | cons c tail => exact ih tail rest (List.cons.inj eq).2
    | nil =>
      obtain rfl : rest = b :: bytes := eq.symm
      simp only [List.length_nil, decodeNameFrom]
      cases read : reading b bytes with
      | char c length =>
        have found : (reading b bytes).found? = some (c, length) := by rw [read]; rfl
        obtain ⟨tail, more, split, rfl, encoded⟩ := encodeChar_of_reading found
        have inner := Spelled.char c (ih tail more split)
        rwa [encoded, List.cons_append, ← split] at inner
      | defect length reason =>
        obtain ⟨offset, point, escaped⟩ := ofNat_escape b (high_of_defect (by rw [read]; rfl))
        simp only [point]
        exact .byte escaped (ih [] bytes rfl)

theorem ascii_mem_encodeChar {c : Char} {b : UInt8} (low : b.toNat < 0x80) :
    b ∈ encodeChar c ↔ c.toNat = b.toNat := by
  have valid : c.toNat < 0xD800 ∨ 0xDFFF < c.toNat ∧ c.toNat < 0x110000 := c.valid
  unfold encodeChar
  generalize c.toNat = n at valid
  have differs : ∀ m, 0x80 ≤ m → m < 256 → b ≠ m.toUInt8 := by
    rintro m least small rfl
    rw [toNat_toUInt8 small] at low
    omega
  dsimp only
  split
  · rw [List.mem_singleton]
    exact ⟨fun eq => by rw [eq, toNat_toUInt8 (by omega)], fun eq => (toUInt8_eq b eq).symm⟩
  split
  · simp only [List.mem_cons, List.not_mem_nil, or_false]
    have first := differs (0xC0 + n / 64) (by omega) (by omega)
    have second := differs (0x80 + n % 64) (by omega) (by omega)
    simp only [first, second, or_self, false_iff]
    omega
  split
  · simp only [List.mem_cons, List.not_mem_nil, or_false]
    have first := differs (0xE0 + n / 4096) (by omega) (by omega)
    have second := differs (0x80 + n / 64 % 64) (by omega) (by omega)
    have third := differs (0x80 + n % 64) (by omega) (by omega)
    simp only [first, second, third, or_self, false_iff]
    omega
  · simp only [List.mem_cons, List.not_mem_nil, or_false]
    have first := differs (0xF0 + n / 262144) (by omega) (by omega)
    have second := differs (0x80 + n / 4096 % 64) (by omega) (by omega)
    have third := differs (0x80 + n / 64 % 64) (by omega) (by omega)
    have fourth := differs (0x80 + n % 64) (by omega) (by omega)
    simp only [first, second, third, fourth, or_self, false_iff]
    omega

theorem escapedByte?_high {offset : Fin 2048} {b : UInt8} (escaped : escapedByte? offset = some b) :
    0x80 ≤ b.toNat := by
  unfold escapedByte? at escaped
  split at escaped
  · rename_i range
    simp only [Bool.and_eq_true, decide_eq_true_eq] at range
    obtain rfl := Option.some.inj escaped
    rw [toNat_toUInt8 (by omega)]
    omega
  · cases escaped

/-- A path holds a character of one byte exactly if its bytes hold that byte. -/
theorem Spelled.low_iff {text : Text} {bytes : Bytes} (spelled : Spelled text bytes) {c : Char} {m : UInt8}
    (same : c.toNat = m.toNat) (low : m.toNat < 0x80) : .char c ∈ text ↔ m ∈ bytes := by
  induction spelled with
  | nil => simp
  | char d _ ih =>
    rw [List.mem_cons, List.mem_append, ih, ascii_mem_encodeChar low]
    refine or_congr_left ⟨fun eq => ?_, fun eq => ?_⟩
    · rw [← CodePoint.char.inj eq, same]
    · exact congrArg CodePoint.char (Char.toNat_inj.mp (same.trans eq.symm))
  | @byte offset b _ _ escaped _ ih =>
    have apart : m ≠ b := by
      rintro rfl
      have high := escapedByte?_high escaped
      omega
    simp [ih, apart]

theorem Spelled.null_iff {text : Text} {bytes : Bytes} (spelled : Spelled text bytes) :
    .char '\x00' ∈ text ↔ 0 ∈ bytes :=
  spelled.low_iff rfl (by decide)

theorem Spelled.slash_iff {text : Text} {bytes : Bytes} (spelled : Spelled text bytes) :
    .char '/' ∈ text ↔ 0x2F ∈ bytes :=
  spelled.low_iff rfl (by decide)

theorem encodeChar_ne_nil (c : Char) : encodeChar c ≠ [] := by
  unfold encodeChar
  dsimp only
  repeat' split
  all_goals simp

theorem Spelled.eq_nil {text : Text} (spelled : Spelled text []) : text = [] := by
  generalize eq : ([] : Bytes) = bytes at spelled
  cases spelled with
  | nil => rfl
  | char c inner => exact absurd (List.append_eq_nil_iff.mp eq.symm).1 (encodeChar_ne_nil c)
  | byte escaped inner => cases eq

theorem Spelled.slash_last {text : Text} {bytes : Bytes} (spelled : Spelled text (bytes ++ [0x2F])) :
    text.getLast? = some (.char '/') := by
  rcases List.eq_nil_or_concat text with rfl | ⟨before, point, rfl⟩
  · generalize eq : bytes ++ [0x2F] = all at spelled
    cases spelled
    simp at eq
  · rw [List.concat_eq_append] at spelled ⊢
    obtain ⟨left, right, eq, _, tail⟩ := spelled.split
    have last : right ≠ [] → 0x2F ∈ right := by
      intro proper
      have ends : (left ++ right).getLast? = some 0x2F := by rw [← eq]; simp
      rw [List.getLast?_append_of_ne_nil _ proper] at ends
      exact List.mem_of_getLast? ends
    cases tail with
    | char c inner =>
      cases inner
      rw [List.append_nil] at last
      have value := (ascii_mem_encodeChar (by decide)).mp (last (encodeChar_ne_nil c))
      simp [Char.toNat_inj.mp (value.trans (by rfl : (0x2F : UInt8).toNat = '/'.toNat))]
    | byte escaped inner =>
      cases inner
      have high := escapedByte?_high escaped
      have low := last (by simp)
      simp only [List.mem_singleton] at low
      rw [← low] at high
      exact absurd high (by decide)

end ApiDocs.Utf8

namespace ApiDocs.Path

theorem pointSize_char (c : Char) : pointSize (.char c) = (Utf8.encodeChar c).length := by
  have value : c.val.toNat = c.toNat := rfl
  unfold pointSize Utf8.encodeChar Char.utf8Size
  simp only [UInt32.le_iff_toNat_le, value, UInt32.toNat_ofNatLT]
  generalize c.toNat = n
  by_cases one : n < 0x80
  · rw [if_pos (show n ≤ 127 by omega), if_pos one]
    rfl
  rw [if_neg (show ¬n ≤ 127 by omega), if_neg one]
  by_cases two : n < 0x800
  · rw [if_pos (show n ≤ 2047 by omega), if_pos two]
    rfl
  rw [if_neg (show ¬n ≤ 2047 by omega), if_neg two]
  by_cases three : n < 0x10000
  · rw [if_pos (show n ≤ 65535 by omega), if_pos three]
    rfl
  · rw [if_neg (show ¬n ≤ 65535 by omega), if_neg three]
    rfl

theorem size_append (first second : Text) : size (first ++ second) = size first + size second := by
  unfold size
  rw [List.foldl_append]
  generalize first.foldl (fun size point => size + pointSize point) 0 = start
  induction second generalizing start with
  | nil => rfl
  | cons point rest ih =>
    rw [List.foldl_cons, List.foldl_cons, ih, ih (0 + pointSize point)]
    omega

theorem size_cons (point : CodePoint) (rest : Text) : size (point :: rest) = pointSize point + size rest := by
  rw [← List.singleton_append, size_append]
  simp [size]

theorem size_of_spelled {path : Text} {bytes : Bytes} (spelled : Utf8.Spelled path bytes) :
    size path = bytes.length := by
  induction spelled with
  | nil => rfl
  | char c _ ih => rw [size_cons, ih, pointSize_char, List.length_append]
  | byte _ _ ih => rw [size_cons, ih, pointSize, List.length_cons, Nat.add_comm]

theorem decodeName_of_plain {path : Text} {bytes : Bytes} (spelled : Utf8.Spelled path bytes)
    (plain : path.any CodePoint.isSurrogate = false) : Utf8.decodeName bytes = path := by
  have all : path.Plain := by simpa [Text.Plain] using plain
  rw [spelled.unique (Utf8.spelled_of_plain all), Utf8.decodeName_bytesOf all]

/-- What a path is read as is decided by its bytes. -/
theorem accept_eq_ok_iff {path known : Text} :
    accept path = .ok known ↔
      ∃ bytes, Utf8.Spelled path bytes ∧ 0 ∉ bytes ∧ bytes.length ≤ pathLimit ∧
        known = Utf8.decodeName bytes := by
  unfold accept
  cases encoded : Utf8.encodeName path with
  | error run =>
    simp only [reduceCtorEq, false_iff, not_exists, not_and]
    intro bytes spelled
    rw [Utf8.encodeName_eq_ok_iff.mpr spelled] at encoded
    cases encoded
  | ok bytes =>
    have spelled := Utf8.encodeName_eq_ok_iff.mp encoded
    have same : (∃ other, Utf8.Spelled path other ∧ 0 ∉ other ∧ other.length ≤ pathLimit ∧
        known = Utf8.decodeName other) ↔
        0 ∉ bytes ∧ bytes.length ≤ pathLimit ∧ known = Utf8.decodeName bytes := by
      constructor
      · rintro ⟨other, spelling, rest⟩
        rwa [spelled.unique spelling]
      · exact fun rest => ⟨bytes, spelled, rest⟩
    rw [same, ← size_of_spelled spelled, ← spelled.null_iff]
    simp only [List.contains_iff_mem]
    split
    · simp_all
    split
    · simp only [reduceCtorEq, false_iff, not_and]
      omega
    rename_i sound short
    have reading : (if path.any CodePoint.isSurrogate then Utf8.decodeName bytes else path) =
        Utf8.decodeName bytes := by
      split
      · rfl
      · rename_i plain
        rw [decodeName_of_plain spelled (by simpa using plain)]
    rw [reading, Except.ok.injEq]
    exact ⟨fun eq => ⟨sound, by omega, eq.symm⟩, fun rest => rest.2.2.symm⟩

theorem accept_accepted {path known : Text} (accepted : accept path = .ok known) :
    accept known = .ok known := by
  obtain ⟨bytes, _, sound, short, rfl⟩ := accept_eq_ok_iff.mp accepted
  exact accept_eq_ok_iff.mpr ⟨bytes, Utf8.spelled_decodeName bytes, sound, short, rfl⟩

end ApiDocs.Path
