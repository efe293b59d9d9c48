import ApiDocs.Text.Blank
import ApiDocs.Text.CaseTable
import ApiDocs.Text.Split

/-! Letter case of whole texts. A character may have a lower or title case of several characters, and
a capital sigma that ends a word has a lower case of its own. -/

set_option autoImplicit false

namespace ApiDocs.Text

def inRanges (ranges : List (Nat × Nat)) (c : CodePoint) : Bool :=
  ranges.any fun (first, last) => first ≤ c.toNat && c.toNat ≤ last

def shiftOf (runs : List CaseRun) (code : Nat) : Int :=
  match runs.find? fun (first, last, stride, _) =>
      first ≤ code && code ≤ last && (code - first) % stride == 0 with
  | some (_, _, _, shift) => shift
  | none => 0

def mapped (special : List (Nat × List Nat)) (runs : List CaseRun) (c : CodePoint) : Text :=
  match special.lookup c.toNat with
  | some codes => codes.map CodePoint.ofNat
  | none => [CodePoint.ofNat (c.toNat + shiftOf runs c.toNat).toNat]

def lowerChar (c : CodePoint) : Text :=
  if c.toNat < 128 then [c.toChar.toLower] else mapped lowerSpecial lowerRuns c

def titleChar (c : CodePoint) : Text :=
  if c.toNat < 128 then [c.toChar.toUpper] else mapped titleSpecial titleRuns c

def nextIsCased (neighbours : Text) : Bool :=
  match neighbours.dropWhile (inRanges caseIgnorableRanges) with
  | [] => false
  | c :: _ => inRanges casedRanges c

/-- The lower case of a capital sigma between two texts, the first of them reversed. -/
def lowerSigma (before after : Text) : Text :=
  if nextIsCased before && !nextIsCased after then "ς" else "σ"

/-- The lower case of a text; `before` holds the characters in front of it, nearest first. -/
def lowerAfter (before : Text) : Text → Text
  | [] => []
  | c :: rest =>
    (if c = 'Σ' then lowerSigma before rest else lowerChar c) ++ lowerAfter (c :: before) rest

def lower (text : Text) : Text := lowerAfter [] text

def capitalize : Text → Text
  | [] => []
  | c :: rest => titleChar c ++ lowerAfter [c] rest

def capitalizeWords (text : Text) : Text := join " " ((words text).map capitalize)

end ApiDocs.Text
