import ApiDocs.Proofs.Text.Encoding
import ApiDocs.Text.Case
import ApiDocs.Text.Slice

/-! No surrogate comes from anywhere but the texts that a text is made of: not from cutting, joining or
replacing, and not from a change of letter case. -/

set_option autoImplicit false

namespace ApiDocs.Text

variable {text : Text}

theorem Plain.upTo (plain : Plain text) (stop : Int) : Plain (upTo text stop) :=
  plain.of_subset (List.take_subset _ _)

theorem Plain.since (plain : Plain text) (start : Int) : Plain (since text start) :=
  plain.of_subset (List.drop_subset _ _)

theorem Plain.slice (plain : Plain text) (start stop : Int) : Plain (slice text start stop) :=
  plain.of_subset fun _ member => List.take_subset _ _ (List.drop_subset _ _ member)

theorem Plain.insertAt (plain : Plain text) (place : Int) {added : Text} (more : Plain added) :
    Plain (insertAt text place added) :=
  plain_append.mpr ⟨plain_append.mpr ⟨plain.upTo _, more⟩, plain.since _⟩

theorem Plain.afterLast (plain : Plain text) (mark : CodePoint) : Plain (afterLast mark text) :=
  plain.of_subset fun _ member =>
    List.mem_reverse.mp (List.takeWhile_subset _ (List.mem_reverse.mp member))

theorem plain_times {text : Text} (plain : Plain text) (count : Nat) : Plain (times count text) :=
  plain_flatten.mpr fun _ member => List.eq_of_mem_replicate member ▸ plain

theorem plain_consFirst {c : CodePoint} {pieces : List Text} (point : c.isSurrogate = false)
    (plain : ∀ piece ∈ pieces, Plain piece) : ∀ piece ∈ consFirst c pieces, Plain piece := by
  cases pieces with
  | nil => simp [consFirst, Plain, point]
  | cons first rest =>
    intro piece member
    rcases List.mem_cons.mp member with rfl | member
    · exact plain_cons.mpr ⟨point, plain first List.mem_cons_self⟩
    · exact plain piece (List.mem_cons_of_mem _ member)

theorem Plain.splitSkipping (plain : Plain text) (separator : Text) (skip : Nat) :
    ∀ piece ∈ splitSkipping separator skip text, Plain piece := by
  induction text generalizing skip with
  | nil => simp [Text.splitSkipping, Plain]
  | cons c rest ih =>
    obtain ⟨point, tail⟩ := plain_cons.mp plain
    cases skip with
    | succ skip => exact ih tail skip
    | zero =>
      simp only [Text.splitSkipping]
      split
      · intro piece member
        rcases List.mem_cons.mp member with rfl | member
        · exact .nil
        · exact ih tail _ piece member
      · exact plain_consFirst point (ih tail 0)

theorem Plain.split (plain : Plain text) (separator : Text) : ∀ piece ∈ split separator text, Plain piece :=
  plain.splitSkipping separator 0

theorem plain_join {separator : Text} (between : Plain separator) {pieces : List Text}
    (plain : ∀ piece ∈ pieces, Plain piece) : Plain (join separator pieces) := by
  induction pieces with
  | nil => exact .nil
  | cons piece pieces ih =>
    have first := plain piece List.mem_cons_self
    have rest := ih fun other member => plain other (List.mem_cons_of_mem _ member)
    cases pieces with
    | nil => exact first
    | cons _ _ => exact plain_append.mpr ⟨plain_append.mpr ⟨first, between⟩, rest⟩

theorem Plain.replace (plain : Plain text) (old : Text) {new : Text} (added : Plain new) :
    Plain (replace old new text) := by
  unfold Text.replace
  split
  · induction text with
    | nil => exact added
    | cons c rest ih =>
      obtain ⟨point, tail⟩ := plain_cons.mp plain
      exact plain_append.mpr ⟨added, plain_cons.mpr ⟨point, ih tail⟩⟩
  · exact plain_join added (plain.split old)

theorem Plain.lines (plain : Plain text) : ∀ line ∈ lines text, Plain line := by
  rw [← flatten_lines text, plain_flatten] at plain
  exact plain

theorem Plain.unifyNewlines (plain : Plain text) : Plain (unifyNewlines text) := by
  fun_induction Text.unifyNewlines text with
  | case1 => exact .nil
  | case2 rest ih =>
    obtain ⟨_, tail⟩ := plain_cons.mp plain
    exact plain_cons.mpr ⟨rfl, ih (plain_cons.mp tail).2⟩
  | case3 c rest _ ih =>
    obtain ⟨point, tail⟩ := plain_cons.mp plain
    refine plain_cons.mpr ⟨?_, ih tail⟩
    split
    · rfl
    · exact point

theorem Plain.wordsFrom (plain : Plain text) {word : Text} (before : Plain word) :
    ∀ piece ∈ wordsFrom word text, Plain piece := by
  have back : Plain word.reverse := before.of_subset fun _ => List.mem_reverse.mp
  induction text generalizing word with
  | nil =>
    unfold Text.wordsFrom
    split
    · simp
    · simpa using back
  | cons c rest ih =>
    obtain ⟨point, tail⟩ := plain_cons.mp plain
    unfold Text.wordsFrom
    split
    · intro piece member
      rcases List.mem_append.mp member with member | member
      · split at member
        · cases member
        · exact List.mem_singleton.mp member ▸ back
      · exact ih tail .nil .nil piece member
    · have more := plain_cons.mpr ⟨point, before⟩
      exact ih tail more (more.of_subset fun _ => List.mem_reverse.mp)

theorem isSurrogate_ofNat {code : Nat} (scalar : code < 0xD800 ∨ 0xE000 ≤ code) :
    (CodePoint.ofNat code).isSurrogate = false := by
  rw [CodePoint.ofNat, dif_neg (by omega)]
  rfl

theorem scalar_of_plain {c : CodePoint} (point : c.isSurrogate = false) : c.toNat < 0xD800 ∨ 0xE000 ≤ c.toNat := by
  cases c with
  | char c =>
    have valid : c.toNat < 0xD800 ∨ 0xDFFF < c.toNat ∧ c.toNat < 0x110000 := c.valid
    simp only [CodePoint.toNat]
    omega
  | surrogate offset => cases point

def RunsPlain (runs : List CaseRun) : Prop :=
  ∀ run ∈ runs, run.2.1 + run.2.2.2 < (0xD800 : Int) ∨ (0xE000 : Int) ≤ run.1 + run.2.2.2

def SpecialPlain (special : List (Nat × List Nat)) : Prop :=
  ∀ entry ∈ special, ∀ code ∈ entry.2, code < 0xD800 ∨ 0xE000 ≤ code

theorem plain_mapped {special : List (Nat × List Nat)} {runs : List CaseRun} (listed : SpecialPlain special)
    (shifted : RunsPlain runs) {c : CodePoint} (point : c.isSurrogate = false) : Plain (mapped special runs c) := by
  unfold mapped
  split
  · rename_i codes found
    intro other member
    obtain ⟨code, inside, rfl⟩ := List.mem_map.mp member
    obtain ⟨before, after, eq, _⟩ := List.lookup_eq_some_iff.mp found
    exact isSurrogate_ofNat (listed (c.toNat, codes) (by simp [eq]) code inside)
  · intro other member
    obtain rfl := List.mem_singleton.mp member
    apply isSurrogate_ofNat
    have scalar := scalar_of_plain point
    unfold shiftOf
    split
    · rename_i first last stride shift found
      have member := List.mem_of_find?_eq_some found
      have inside := List.find?_some found
      have range := shifted _ member
      simp only [Bool.and_eq_true, decide_eq_true_eq] at inside
      simp only at range
      omega
    · omega

theorem runsPlain_lower : RunsPlain lowerRuns := by unfold RunsPlain; decide +kernel
theorem runsPlain_title : RunsPlain titleRuns := by unfold RunsPlain; decide +kernel
theorem specialPlain_lower : SpecialPlain lowerSpecial := by unfold SpecialPlain; decide
theorem specialPlain_title : SpecialPlain titleSpecial := by unfold SpecialPlain; decide

theorem plain_lowerChar {c : CodePoint} (point : c.isSurrogate = false) : Plain (lowerChar c) := by
  unfold lowerChar
  split
  · exact plain_ofChars [_]
  · exact plain_mapped specialPlain_lower runsPlain_lower point

theorem plain_titleChar {c : CodePoint} (point : c.isSurrogate = false) : Plain (titleChar c) := by
  unfold titleChar
  split
  · exact plain_ofChars [_]
  · exact plain_mapped specialPlain_title runsPlain_title point

theorem Plain.lowerAfter (plain : Plain text) (before : Text) : Plain (lowerAfter before text) := by
  induction text generalizing before with
  | nil => exact .nil
  | cons c rest ih =>
    obtain ⟨point, tail⟩ := plain_cons.mp plain
    refine plain_append.mpr ⟨?_, ih tail _⟩
    split
    · unfold lowerSigma
      split
      · exact plain_ofChars _
      · exact plain_ofChars _
    · exact plain_lowerChar point

theorem Plain.capitalize (plain : Plain text) : Plain (capitalize text) := by
  cases text with
  | nil => exact .nil
  | cons c rest =>
    obtain ⟨point, tail⟩ := plain_cons.mp plain
    exact plain_append.mpr ⟨plain_titleChar point, tail.lowerAfter _⟩

end ApiDocs.Text
