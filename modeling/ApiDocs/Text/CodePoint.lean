/-! Code points. Besides characters a text may hold half of a surrogate pair by itself, which the escapes
of a JSON string can spell. Such a text is compared and cut like any other, but has no encoding. -/

set_option autoImplicit false

namespace ApiDocs

inductive CodePoint where
  | char (c : Char)
  /-- Half of a pair, counted from the first one. -/
  | surrogate (offset : Fin 2048)
  deriving DecidableEq, Repr

namespace CodePoint

instance : Coe Char CodePoint := ⟨char⟩

def toNat : CodePoint → Nat
  | char c => c.toNat
  | surrogate offset => 0xD800 + offset

def ofNat (code : Nat) : CodePoint :=
  if h : 0xD800 ≤ code ∧ code < 0xE000 then surrogate ⟨code - 0xD800, by omega⟩
  else char (Char.ofNat code)

theorem ofNat_toNat (point : CodePoint) : ofNat point.toNat = point := by
  cases point with
  | char c =>
    have valid : c.toNat < 0xD800 ∨ 0xDFFF < c.toNat ∧ c.toNat < 0x110000 := c.valid
    rw [toNat, ofNat, dif_neg (by omega), Char.ofNat_toNat]
  | surrogate offset =>
    rw [toNat, ofNat, dif_pos (by omega)]
    exact congrArg surrogate (Fin.ext (Nat.add_sub_cancel_left ..))

def isSurrogate : CodePoint → Bool
  | char _ => false
  | surrogate _ => true

def isDigit : CodePoint → Bool
  | char c => c.isDigit
  | surrogate _ => false

def toChar : CodePoint → Char
  | char c => c
  | surrogate _ => '�'

end CodePoint
end ApiDocs
