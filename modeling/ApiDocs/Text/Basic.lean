import ApiDocs.Text.CodePoint

/-! Text is a list of code points, so positions count code points and every operation is a plain
recursion. A string literal stands for the text of its characters. Searching is by the leftmost or
rightmost place; `mentions_iff` ties it to the infix relation of lists, and `isSome_index?` says that
a place is found exactly in a text that mentions the part. -/

set_option autoImplicit false

namespace ApiDocs

abbrev Text := List CodePoint

namespace Text

def ofChars (chars : List Char) : Text := chars.map .char

def toChars (text : Text) : List Char := text.map CodePoint.toChar

end Text

instance : Coe String Text := ⟨fun literal => Text.ofChars literal.toList⟩

namespace Text

def mentions (part : Text) : Text → Bool
  | [] => part.isEmpty
  | c :: rest => part.isPrefixOf (c :: rest) || mentions part rest

theorem mentions_iff {part text : Text} : mentions part text = true ↔ part <:+: text := by
  induction text with
  | nil => simp [mentions]
  | cons c rest ih => simp [mentions, ih, List.infix_cons_iff]

def index? (part : Text) : Text → Option Nat
  | [] => if part.isEmpty then some 0 else none
  | c :: rest => if part.isPrefixOf (c :: rest) then some 0 else (index? part rest).map (· + 1)

theorem isSome_index? {part text : Text} : (index? part text).isSome = mentions part text := by
  induction text with
  | nil => by_cases h : part.isEmpty <;> simp [index?, mentions, h]
  | cons c rest ih => by_cases h : part.isPrefixOf (c :: rest) <;> simp [index?, mentions, h, ih]

def lastIndex? (part : Text) : Text → Option Nat
  | [] => if part.isEmpty then some 0 else none
  | c :: rest => match lastIndex? part rest with
    | some place => some (place + 1)
    | none => if part.isPrefixOf (c :: rest) then some 0 else none

def signed : Option Nat → Int
  | some place => place
  | none => -1

def index (part text : Text) : Int := signed (index? part text)

def lastIndex (part text : Text) : Int := signed (lastIndex? part text)

/-- Every place of `part`, overlapping ones too, ascending; `start` is the place of the text's head. -/
def placesFrom (part : Text) (start : Nat) : Text → List Nat
  | [] => []
  | c :: rest =>
    if part.isPrefixOf (c :: rest) then start :: placesFrom part (start + 1) rest
    else placesFrom part (start + 1) rest

def places (part text : Text) : List Nat := placesFrom part 0 text

def beforeFirst (mark : CodePoint) (text : Text) : Text := text.takeWhile (· != mark)

def afterLast (mark : CodePoint) (text : Text) : Text := (text.reverse.takeWhile (· != mark)).reverse

def trimLeft (mark : CodePoint) (text : Text) : Text := text.dropWhile (· == mark)

def trim (mark : CodePoint) (text : Text) : Text :=
  ((trimLeft mark text).reverse.dropWhile (· == mark)).reverse

def times (count : Nat) (text : Text) : Text := (List.replicate count text).flatten

def rule (count : Nat) : Text := List.replicate count '='

end Text
end ApiDocs
