import ApiDocs.Text.Basic

/-! White space, and the words that it separates. -/

set_option autoImplicit false

namespace ApiDocs.Text

def blankRanges : List (Nat × Nat) := [
    (0x9, 0xD), (0x1C, 0x20), (0x85, 0x85), (0xA0, 0xA0), (0x1680, 0x1680), (0x2000, 0x200A),
    (0x2028, 0x2029), (0x202F, 0x202F), (0x205F, 0x205F), (0x3000, 0x3000)]

def isBlank (c : CodePoint) : Bool :=
  blankRanges.any fun (first, last) => first ≤ c.toNat && c.toNat ≤ last

/-- The longest runs of characters that are not blank; `word` is the run that ends here, reversed. -/
def wordsFrom (word : Text) : Text → List Text
  | [] => if word.isEmpty then [] else [word.reverse]
  | c :: rest =>
    if isBlank c then (if word.isEmpty then [] else [word.reverse]) ++ wordsFrom [] rest
    else wordsFrom (c :: word) rest

def words (text : Text) : List Text := wordsFrom [] text

end ApiDocs.Text
