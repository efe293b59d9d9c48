import ApiDocs.Text.Basic

/-! Cutting a text at a separator, and replacing one text by another. Cutting goes from left to right,
and the separators do not overlap; joining the pieces with the separator gives the text back
(`join_split`). -/

set_option autoImplicit false

namespace ApiDocs.Text

def consFirst (c : CodePoint) : List Text → List Text
  | [] => [[c]]
  | piece :: pieces => (c :: piece) :: pieces

/-- The pieces of a text after `skip` more characters of a separator have gone by. -/
def splitSkipping (separator : Text) : Nat → Text → List Text
  | _, [] => [[]]
  | skip + 1, _ :: rest => splitSkipping separator skip rest
  | 0, c :: rest =>
    if separator.isPrefixOf (c :: rest) then [] :: splitSkipping separator (separator.length - 1) rest
    else consFirst c (splitSkipping separator 0 rest)

def split (separator text : Text) : List Text := splitSkipping separator 0 text

def join (separator : Text) : List Text → Text
  | [] => []
  | [piece] => piece
  | piece :: pieces => piece ++ separator ++ join separator pieces

theorem splitSkipping_ne_nil (separator : Text) (skip : Nat) (text : Text) :
    splitSkipping separator skip text ≠ [] := by
  induction text generalizing skip with
  | nil => simp [splitSkipping]
  | cons c rest ih =>
    cases skip with
    | succ skip => simpa [splitSkipping] using ih skip
    | zero =>
      simp only [splitSkipping]
      split
      · simp
      · cases h : splitSkipping separator 0 rest <;> simp [consFirst]

theorem join_consFirst (separator : Text) (c : CodePoint) (pieces : List Text) :
    join separator (consFirst c pieces) = c :: join separator pieces := by
  match pieces with
  | [] => rfl
  | [_] => rfl
  | _ :: _ :: _ => simp [consFirst, join]

theorem join_nil_cons (separator : Text) {pieces : List Text} (h : pieces ≠ []) :
    join separator ([] :: pieces) = separator ++ join separator pieces := by
  cases pieces with
  | nil => exact absurd rfl h
  | cons _ _ => simp [join]

theorem join_splitSkipping {separator : Text} (proper : separator ≠ []) (skip : Nat) (text : Text) :
    join separator (splitSkipping separator skip text) = text.drop skip := by
  induction text generalizing skip with
  | nil => simp [splitSkipping, join]
  | cons c rest ih =>
    cases skip with
    | succ skip => simpa [splitSkipping] using ih skip
    | zero =>
      simp only [splitSkipping]
      split
      · rename_i starts
        obtain ⟨tail, eq⟩ := List.isPrefixOf_iff_prefix.mp starts
        rw [join_nil_cons _ (splitSkipping_ne_nil _ _ _), ih]
        cases separator with
        | nil => exact absurd rfl proper
        | cons d separator =>
          simp only [List.cons_append, List.cons.injEq] at eq
          simp [← eq.1, ← eq.2]
      · rw [join_consFirst, ih]; simp

theorem join_split {separator : Text} (proper : separator ≠ []) (text : Text) :
    join separator (split separator text) = text :=
  join_splitSkipping proper 0 text

/-- The text with every `old` replaced by `new`, from left to right. An empty `old` stands before each
character and at the end. -/
def replace (old new text : Text) : Text :=
  if old.isEmpty then text.foldr (fun c rest => new ++ c :: rest) new else join new (split old text)

def lines : Text → List Text
  | [] => []
  | c :: rest => if c = '\n' then [c] :: lines rest else consFirst c (lines rest)

theorem flatten_lines (text : Text) : (lines text).flatten = text := by
  induction text with
  | nil => rfl
  | cons c rest ih =>
    by_cases h : c = '\n'
    · simp [lines, h, ih]
    · simp only [lines, h, if_false]
      cases eq : lines rest <;> simp_all [consFirst]

/-- Carriage returns, alone or before a newline, become newlines. -/
def unifyNewlines : Text → Text
  | [] => []
  | '\r' :: '\n' :: rest => '\n' :: unifyNewlines rest
  | c :: rest => (if c = '\r' then '\n' else c) :: unifyNewlines rest

end ApiDocs.Text
