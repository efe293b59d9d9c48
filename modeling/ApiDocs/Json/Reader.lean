import ApiDocs.Json.Basic

/-! Reading JSON. A defect says what was expected and at which character; a reader returns the rest of
the text with the place where it begins. The readers of values take a depth that no text of fewer
characters can use up, and the number of lists and objects that may still be opened inside each other. -/

set_option autoImplicit false

namespace ApiDocs.Json

inductive Expected where
  | value
  | name
  | colon
  | comma
  | nothing
  | quote
  | visible
  | escape
  | codeUnit
  | plainStart
  deriving DecidableEq, Repr

inductive Container where
  | list
  | object
  deriving DecidableEq, Repr

inductive Defect where
  /-- Something else stands at a place. -/
  | at (expected : Expected) (line column place : Nat)
  /-- A number has more digits than can be read. -/
  | digits (count : Nat)
  /-- A list or an object lies inside too many others. -/
  | nested (container : Container)
  deriving DecidableEq, Repr

/-- A defect before its line and column are known. -/
inductive Finding where
  | at (expected : Expected) (place : Nat)
  | digits (count : Nat)
  | nested (container : Container)
  deriving DecidableEq, Repr

structure Rest where
  text : Text
  place : Nat

def Rest.tail (rest : Rest) : Rest := ⟨rest.text.tail, rest.place + 1⟩

def isSpace (c : CodePoint) : Bool := c = ' ' || c = '\t' || c = '\n' || c = '\r'

def Rest.skipSpace (rest : Rest) : Rest :=
  ⟨rest.text.dropWhile isSpace, rest.place + (rest.text.takeWhile isSpace).length⟩

def hexValue? (c : CodePoint) : Option Nat :=
  if 48 ≤ c.toNat && c.toNat ≤ 57 then some (c.toNat - 48)
  else if 97 ≤ c.toNat && c.toNat ≤ 102 then some (c.toNat - 87)
  else if 65 ≤ c.toNat && c.toNat ≤ 70 then some (c.toNat - 55)
  else none

def codeUnit? : Text → Option Nat
  | [a, b, c, d] => do
    return (← hexValue? a) * 4096 + (← hexValue? b) * 256 + (← hexValue? c) * 16 + (← hexValue? d)
  | _ => none

def escaped? : CodePoint → Option CodePoint
  | '"' => some '"'
  | '\\' => some '\\'
  | '/' => some '/'
  | 'b' => some '\x08'
  | 'f' => some '\x0c'
  | 'n' => some '\n'
  | 'r' => some '\r'
  | 't' => some '\t'
  | _ => none

def isHighSurrogate (unit : Nat) : Bool := 0xD800 ≤ unit && unit < 0xDC00

def isLowSurrogate (unit : Nat) : Bool := 0xDC00 ≤ unit && unit < 0xE000

def ofPair (high low : Nat) : CodePoint :=
  CodePoint.ofNat (0x10000 + (high - 0xD800) * 1024 + (low - 0xDC00))

/-- The text of a string after its opening quote at `start`. The first `skip` characters of the
text belong to an escape that has been read. -/
def readString (start : Nat) : (place skip : Nat) → Text → Except Finding (Text × Rest)
  | _, _, [] => .error (.at .quote start)
  | place, skip + 1, _ :: rest => readString start (place + 1) skip rest
  | place, 0, c :: rest =>
    if c = '"' then .ok ([], ⟨rest, place + 1⟩)
    else if c = '\\' then
      match rest with
      | [] => .error (.at .quote start)
      | 'u' :: digits =>
        if digits.length < 5 then .error (.at .codeUnit (place + 1))
        else match codeUnit? (digits.take 4) with
          | none => .error (.at .codeUnit (place + 1))
          | some unit =>
            let more := digits.drop 4
            if isHighSurrogate unit && more.length > 6 && ("\\u" : Text).isPrefixOf more then
              match codeUnit? ((more.drop 2).take 4) with
              | none => .error (.at .codeUnit (place + 7))
              | some low =>
                if isLowSurrogate low then
                  (readString start (place + 1) 11 rest).map fun (tail, after) =>
                    (ofPair unit low :: tail, after)
                else (readString start (place + 1) 5 rest).map fun (tail, after) =>
                  (CodePoint.ofNat unit :: tail, after)
            else (readString start (place + 1) 5 rest).map fun (tail, after) =>
              (CodePoint.ofNat unit :: tail, after)
      | e :: _ =>
        match escaped? e with
        | some d => (readString start (place + 1) 1 rest).map fun (tail, after) => (d :: tail, after)
        | none => .error (.at .escape place)
    else if c.toNat < 0x20 then .error (.at .visible place)
    else (readString start (place + 1) 0 rest).map fun (tail, after) => (c :: tail, after)

def digitLimit : Nat := 4300

def natOfDigits (digits : Text) : Nat := digits.foldl (fun n c => n * 10 + (c.toNat - 48)) 0

/-- The digits after a decimal point, with the point; none if no digit follows it. -/
def fraction (text : Text) : Text :=
  match text with
  | '.' :: rest =>
    let digits := rest.takeWhile CodePoint.isDigit
    if digits.isEmpty then [] else '.' :: digits
  | _ => []

def exponent (text : Text) : Text :=
  match text with
  | mark :: rest =>
    let sign := match rest with
      | s :: _ :: _ => if s = '-' || s = '+' then [s] else []
      | _ => []
    let digits := (rest.drop sign.length).takeWhile CodePoint.isDigit
    if (mark = 'e' || mark = 'E') && !digits.isEmpty then mark :: sign ++ digits else []
  | [] => []

/-- The digits before a decimal point: a zero stands alone. -/
def wholeDigits (text : Text) : Text :=
  match text with
  | '0' :: _ => ['0']
  | _ => text.takeWhile CodePoint.isDigit

def readNumber (rest : Rest) : Except Finding (Json × Rest) :=
  let negative := rest.text.head? == some '-'
  let unsigned := if negative then rest.text.tail else rest.text
  let whole := wholeDigits unsigned
  if whole.isEmpty then .error (.at .value rest.place)
  else
    let decimals := fraction (unsigned.drop whole.length)
    let power := exponent (unsigned.drop (whole.length + decimals.length))
    let length := (if negative then 1 else 0) + whole.length + decimals.length + power.length
    let after : Rest := ⟨rest.text.drop length, rest.place + length⟩
    if decimals.isEmpty && power.isEmpty then
      if whole.length > digitLimit then .error (.digits whole.length)
      else .ok (.int (if negative then -natOfDigits whole else natOfDigits whole), after)
    else .ok (.real (rest.text.take length), after)

def literal? (text : Text) : Option (Text × Json) :=
  [(("null" : Text), null), ("true", .bool true), ("false", .bool false), ("NaN", .real "NaN"),
    ("Infinity", .real "Infinity"), ("-Infinity", .real "-Infinity")].find? fun (word, _) =>
      word.isPrefixOf text

mutual

def readValue (nesting : Nat) : Nat → Rest → Except Finding (Json × Rest)
  | 0, rest => .error (.at .value rest.place)
  | depth + 1, rest =>
    match rest.text with
    | [] => .error (.at .value rest.place)
    | '"' :: after => (readString rest.place (rest.place + 1) 0 after).map fun (value, rest) =>
      (.text value, rest)
    | '{' :: after =>
      if nesting = 0 then .error (.nested .object)
      else
        let inside := (Rest.mk after (rest.place + 1)).skipSpace
        match inside.text with
        | '}' :: _ => .ok (.object [], inside.tail)
        | _ => (readMembers (nesting - 1) depth inside).map fun (members, rest) =>
          (.object (Table.ofList members), rest)
    | '[' :: after =>
      if nesting = 0 then .error (.nested .list)
      else
        let inside := (Rest.mk after (rest.place + 1)).skipSpace
        match inside.text with
        | ']' :: _ => .ok (.list [], inside.tail)
        | _ => (readItems (nesting - 1) depth inside).map fun (items, rest) => (.list items, rest)
    | _ =>
      match literal? rest.text with
      | some (word, value) => .ok (value, ⟨rest.text.drop word.length, rest.place + word.length⟩)
      | none => readNumber rest

def readItems (nesting : Nat) : Nat → Rest → Except Finding (List Json × Rest)
  | 0, rest => .error (.at .value rest.place)
  | depth + 1, rest => do
    let (item, rest) ← readValue nesting depth rest
    let rest := rest.skipSpace
    match rest.text with
    | ']' :: _ => return ([item], rest.tail)
    | ',' :: _ =>
      let (items, rest) ← readItems nesting depth rest.tail.skipSpace
      return (item :: items, rest)
    | _ => throw (.at .comma rest.place)

def readMembers (nesting : Nat) : Nat → Rest → Except Finding (List (Text × Json) × Rest)
  | 0, rest => .error (.at .value rest.place)
  | depth + 1, rest => do
    match rest.text with
    | '"' :: after =>
      let (name, rest) ← readString rest.place (rest.place + 1) 0 after
      let rest := rest.skipSpace
      if rest.text.head? != some ':' then throw (.at .colon rest.place)
      let (value, rest) ← readValue nesting depth rest.tail.skipSpace
      let rest := rest.skipSpace
      match rest.text with
      | '}' :: _ => return ([(name, value)], rest.tail)
      | ',' :: _ =>
        let (members, rest) ← readMembers nesting depth rest.tail.skipSpace
        return ((name, value) :: members, rest)
      | _ => throw (.at .comma rest.place)
    | _ => throw (.at .name rest.place)

end

def Finding.located (text : Text) : Finding → Defect
  | .digits count => .digits count
  | .nested container => .nested container
  | .at expected place =>
    let before := text.take place
    .at expected (before.count (.char '\n') + 1) ((Text.afterLast '\n' before).length + 1) place

def nestingLimit : Nat := 990

def readWhole (text : Text) : Except Finding Json := do
  if text.head? == some '﻿' then throw (.at .plainStart 0)
  let (value, rest) ← readValue nestingLimit (2 * text.length + 2) (Rest.mk text 0).skipSpace
  let rest := rest.skipSpace
  if rest.text.isEmpty then return value else throw (.at .nothing rest.place)

def read (text : Text) : Except Defect Json := (readWhole text).mapError (Finding.located text)

end ApiDocs.Json
