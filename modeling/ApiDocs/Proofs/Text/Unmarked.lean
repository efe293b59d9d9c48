import ApiDocs.Proofs.File.Name
import ApiDocs.Proofs.Text.Plain
import ApiDocs.Proofs.Text.Replace

/-! Texts without marks: no slash, no colon and no line end. Letter case makes no such mark, so a title has one only if
the name that it is made of has it. -/

set_option autoImplicit false

namespace ApiDocs.Text

def RunsHigh (runs : List CaseRun) : Prop :=
  ∀ run ∈ runs, (0x41 : Int) ≤ run.1 + run.2.2.2 ∧ run.2.1 + run.2.2.2 < (0x110000 : Int)

def SpecialHigh (special : List (Nat × List Nat)) : Prop :=
  ∀ entry ∈ special, ∀ code ∈ entry.2, 0x41 ≤ code ∧ code < 0x110000

theorem toNat_ofNat {code : Nat} (valid : code < 0x110000) : (CodePoint.ofNat code).toNat = code := by
  rw [CodePoint.ofNat]
  split
  · rename_i surrogate
    show 0xD800 + (code - 0xD800) = code
    omega
  · exact Utf8.toNat_charOfNat (by omega)

theorem toNat_lt (c : CodePoint) : c.toNat < 0x110000 := by
  cases c with
  | char c =>
    have valid : c.toNat < 0xD800 ∨ 0xDFFF < c.toNat ∧ c.toNat < 0x110000 := c.valid
    show c.toNat < 0x110000
    omega
  | surrogate offset =>
    have bound := offset.isLt
    show 0xD800 + offset.val < 0x110000
    omega

theorem high_of_mapped {special : List (Nat × List Nat)} {runs : List CaseRun} (listed : SpecialHigh special)
    (shifted : RunsHigh runs) {c d : CodePoint} (high : 128 ≤ d.toNat) (member : c ∈ mapped special runs d) :
    0x41 ≤ c.toNat := by
  unfold mapped at member
  split at member
  · rename_i codes found
    obtain ⟨code, inside, rfl⟩ := List.mem_map.mp member
    obtain ⟨before, after, eq, _⟩ := List.lookup_eq_some_iff.mp found
    obtain ⟨low, valid⟩ := listed (d.toNat, codes) (by simp [eq]) code inside
    rwa [toNat_ofNat valid]
  · obtain rfl := List.mem_singleton.mp member
    have bound := toNat_lt d
    unfold shiftOf
    split
    · rename_i first last stride shift found
      have range := shifted _ (List.mem_of_find?_eq_some found)
      have inside := List.find?_some found
      simp only [Bool.and_eq_true, decide_eq_true_eq] at inside
      simp only at range
      rw [toNat_ofNat (by omega)]
      omega
    · rw [toNat_ofNat (by omega)]
      omega

theorem specialHigh_lower : SpecialHigh lowerSpecial := by unfold SpecialHigh; decide
theorem specialHigh_title : SpecialHigh titleSpecial := by unfold SpecialHigh; decide
theorem runsHigh_lower : RunsHigh lowerRuns := by unfold RunsHigh; decide +kernel
theorem runsHigh_title : RunsHigh titleRuns := by unfold RunsHigh; decide +kernel

theorem eq_of_cased {change : Char → Char} {special : List (Nat × List Nat)} {runs : List CaseRun}
    (ascii : ∀ code < 128, (change (Char.ofNat code)).toNat < 0x41 → change (Char.ofNat code) = Char.ofNat code)
    (listed : SpecialHigh special) (shifted : RunsHigh runs) {c d : CodePoint} (low : c.toNat < 0x41)
    (member : c ∈ if d.toNat < 128 then [.char (change d.toChar)] else mapped special runs d) : c = d := by
  split at member
  · rename_i small
    obtain rfl := List.mem_singleton.mp member
    cases d with
    | char d =>
      have same := ascii d.toNat small
      rw [Char.ofNat_toNat] at same
      exact congrArg CodePoint.char (same low)
    | surrogate offset =>
      have value : 0xD800 + offset.val < 128 := small
      omega
  · have high := high_of_mapped listed shifted (by omega) member
    omega

theorem eq_of_lowerChar {c d : CodePoint} (low : c.toNat < 0x41) (member : c ∈ lowerChar d) : c = d :=
  eq_of_cased (by decide) specialHigh_lower runsHigh_lower low member

theorem eq_of_titleChar {c d : CodePoint} (low : c.toNat < 0x41) (member : c ∈ titleChar d) : c = d :=
  eq_of_cased (by decide) specialHigh_title runsHigh_title low member

theorem mem_of_lowerAfter {c : CodePoint} (low : c.toNat < 0x41) {before text : Text}
    (member : c ∈ lowerAfter before text) :
    c ∈ text := by
  induction text generalizing before with
  | nil => cases member
  | cons d text ih =>
    rw [lowerAfter, List.mem_append] at member
    rcases member with here | later
    · split at here
      · -- neither lower case of a sigma is that low
        have sigma : c ∈ ("ς" : Text) ∨ c ∈ ("σ" : Text) := by
          unfold lowerSigma at here
          split at here
          · exact .inl here
          · exact .inr here
        rcases sigma with only | only <;> exact absurd (List.mem_singleton.mp only ▸ low) (by decide)
      · exact eq_of_lowerChar low here ▸ List.mem_cons_self
    · exact List.mem_cons_of_mem d (ih later)

theorem mem_of_capitalize {c : CodePoint} (low : c.toNat < 0x41) {text : Text} (member : c ∈ capitalize text) :
    c ∈ text := by
  cases text with
  | nil => cases member
  | cons d text =>
    rw [capitalize, List.mem_append] at member
    rcases member with here | later
    · exact eq_of_titleChar low here ▸ List.mem_cons_self
    · exact List.mem_cons_of_mem d (mem_of_lowerAfter low later)

def marks : Text := "/:\n\r"

def Unmarked (text : Text) : Prop := ∀ mark ∈ marks, mark ∉ text

instance (text : Text) : Decidable (Unmarked text) := inferInstanceAs (Decidable (∀ mark ∈ marks, mark ∉ text))

namespace Unmarked
variable {text : Text} (unmarked : Unmarked text)
include unmarked

theorem slashless : .char '/' ∉ text := unmarked _ (by decide)

theorem colonless : .char ':' ∉ text := unmarked _ (by decide)

theorem newline : .char '\n' ∉ text := unmarked _ (by decide)

theorem carriage : .char '\r' ∉ text := unmarked _ (by decide)

theorem replace {old new : Text} (proper : old ≠ []) (fresh : Unmarked new) : Unmarked (replace old new text) :=
  fun mark inside member => (mem_replace proper new member).elim (fresh mark inside) (unmarked mark inside)

theorem capitalize : Unmarked (capitalize text) := by
  have low : ∀ mark ∈ marks, mark.toNat < 0x41 := by decide
  exact fun mark inside member => unmarked mark inside (mem_of_capitalize (low mark inside) member)

end Unmarked
end ApiDocs.Text
