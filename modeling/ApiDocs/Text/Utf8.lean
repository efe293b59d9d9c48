import ApiDocs.Text.Basic

/-! UTF-8. Reading a sequence gives its character, or says how many bytes of it were sound and why
it cannot be completed; all ways of decoding share that step. A text has an encoding unless it holds
surrogates; in the name of a file some of these stand for bytes that are no text. -/

set_option autoImplicit false

namespace ApiDocs

abbrev Bytes := List UInt8

namespace Utf8

inductive Reason where
  | start
  | continuation
  | ended
  deriving DecidableEq, Repr

/-- What stands at the head of some bytes: a character and its length in bytes, or a defect and the
number of bytes that belong to it. -/
inductive Reading where
  | char (c : Char) (length : Nat)
  | defect (length : Nat) (reason : Reason)
  deriving DecidableEq, Repr

def isTail (b : UInt8) : Bool := 0x80 ≤ b && b ≤ 0xBF

/-- Whether `b` may follow `lead`: some leads leave out overlong forms, surrogates and code points
past the last one. -/
def follows (lead b : UInt8) : Bool :=
  isTail b && (lead != 0xE0 || 0xA0 ≤ b) && (lead != 0xED || b < 0xA0) &&
    (lead != 0xF0 || 0x90 ≤ b) && (lead != 0xF4 || b < 0x90)

def payload (b : UInt8) : Nat := b.toNat - 0x80

def reading (lead : UInt8) (rest : Bytes) : Reading :=
  if lead < 0x80 then .char (Char.ofNat lead.toNat) 1
  else if lead < 0xC2 then .defect 1 .start
  else if lead < 0xE0 then
    match rest with
    | [] => .defect 1 .ended
    | b :: _ =>
      if follows lead b then .char (Char.ofNat ((lead.toNat - 0xC0) * 64 + payload b)) 2
      else .defect 1 .continuation
  else if lead < 0xF0 then
    match rest with
    | [] => .defect 1 .ended
    | b :: rest =>
      if !follows lead b then .defect 1 .continuation
      else match rest with
        | [] => .defect 2 .ended
        | c :: _ =>
          if isTail c then
            .char (Char.ofNat ((lead.toNat - 0xE0) * 4096 + payload b * 64 + payload c)) 3
          else .defect 2 .continuation
  else if lead < 0xF5 then
    match rest with
    | [] => .defect 1 .ended
    | b :: rest =>
      if !follows lead b then .defect 1 .continuation
      else match rest with
        | [] => .defect 2 .ended
        | c :: rest =>
          if !isTail c then .defect 2 .continuation
          else match rest with
            | [] => .defect 3 .ended
            | d :: _ =>
              if isTail d then
                .char (Char.ofNat ((lead.toNat - 0xF0) * 262144 + payload b * 4096 +
                  payload c * 64 + payload d)) 4
              else .defect 3 .continuation
  else .defect 1 .start

structure Defect where
  place : Nat
  bytes : Bytes
  reason : Reason
  deriving DecidableEq, Repr

/-- The text of some bytes, of which the first `skip` have been read and the next stands at `place`. -/
def decodeFrom (place : Nat) : Nat → Bytes → Except Defect Text
  | _, [] => .ok []
  | skip + 1, _ :: rest => decodeFrom (place + 1) skip rest
  | 0, b :: rest =>
    match reading b rest with
    | .char c length => (decodeFrom (place + 1) (length - 1) rest).map (.char c :: ·)
    | .defect length reason => .error ⟨place, (b :: rest).take length, reason⟩

def decode (bytes : Bytes) : Except Defect Text := decodeFrom 0 0 bytes

def decodeLenientFrom : Nat → Bytes → Text
  | _, [] => []
  | skip + 1, _ :: rest => decodeLenientFrom skip rest
  | 0, b :: rest =>
    match reading b rest with
    | .char c length => c :: decodeLenientFrom (length - 1) rest
    | .defect length _ => '�' :: decodeLenientFrom (length - 1) rest

def decodeLenient (bytes : Bytes) : Text := decodeLenientFrom 0 bytes

def encodeChar (c : Char) : Bytes :=
  let n := c.toNat
  if n < 0x80 then [n.toUInt8]
  else if n < 0x800 then [(0xC0 + n / 64).toUInt8, (0x80 + n % 64).toUInt8]
  else if n < 0x10000 then
    [(0xE0 + n / 4096).toUInt8, (0x80 + n / 64 % 64).toUInt8, (0x80 + n % 64).toUInt8]
  else
    [(0xF0 + n / 262144).toUInt8, (0x80 + n / 4096 % 64).toUInt8, (0x80 + n / 64 % 64).toUInt8,
      (0x80 + n % 64).toUInt8]

structure Unencodable where
  place : Nat
  points : Text
  deriving DecidableEq, Repr

/-- The bytes of a text whose head stands at `place`; surrogates are encoded as `escape?` says. -/
def encodeFrom (escape? : Fin 2048 → Option UInt8) (place : Nat) : Text → Except Unencodable Bytes
  | [] => .ok []
  | .char c :: rest => (encodeFrom escape? (place + 1) rest).map (encodeChar c ++ ·)
  | .surrogate offset :: rest =>
    match escape? offset with
    | some byte => (encodeFrom escape? (place + 1) rest).map (byte :: ·)
    | none => .error ⟨place, .surrogate offset :: rest.takeWhile CodePoint.isSurrogate⟩

def encode (text : Text) : Except Unencodable Bytes := encodeFrom (fun _ => none) 0 text

/-- The byte that a surrogate stands for in a name: DC80 to DCFF stand for 80 to FF. -/
def escapedByte? (offset : Fin 2048) : Option UInt8 :=
  if 0x480 ≤ offset.val && offset.val < 0x500 then some (offset.val - 0x400).toUInt8 else none

def encodeName (name : Text) : Except Unencodable Bytes := encodeFrom escapedByte? 0 name

def decodeNameFrom : Nat → Bytes → Text
  | _, [] => []
  | skip + 1, _ :: rest => decodeNameFrom skip rest
  | 0, b :: rest =>
    match reading b rest with
    | .char c length => .char c :: decodeNameFrom (length - 1) rest
    | .defect _ _ => CodePoint.ofNat (0xDC00 + b.toNat) :: decodeNameFrom 0 rest

def decodeName (bytes : Bytes) : Text := decodeNameFrom 0 bytes

def blockSize : Nat := 8192

/-- The place of the sequence that holds byte `target`; `skip` bytes of a sequence that began at
`start` are still to come, and the next byte stands at `place`. -/
def sequenceStart (target : Nat) : (start place skip : Nat) → Bytes → Nat
  | start, place, _, [] => if target < place then start else place
  | start, place, skip + 1, _ :: rest =>
    if target ≤ place then start else sequenceStart target start (place + 1) skip rest
  | _, place, 0, b :: rest =>
    if target ≤ place then place
    else match reading b rest with
      | .char _ length => sequenceStart target place (place + 1) (length - 1) rest
      | .defect _ _ => place

/-- How many bytes after its first one have to be there before a defect shows. The first two bytes of a
surrogate wait for the third, as those of any other sequence of three do. -/
def Defect.delay (bytes : Bytes) (defect : Defect) : Nat :=
  match defect.reason, bytes.drop defect.place with
  | .start, _ => 0
  | .continuation, lead :: b :: _ => if lead = 0xED && isTail b then 2 else defect.bytes.length
  | _, _ => defect.bytes.length

/-- A defect as it is reported when lines are read: its place counts from the block in which it shows,
where a sequence that the block before left unfinished is carried over; one that has not shown by the
end is carried over the last block. -/
def Defect.inBlock (bytes : Bytes) (defect : Defect) : Defect :=
  let shown := defect.place + defect.delay bytes
  if bytes.length ≤ shown then { defect with place := 0 }
  else
    let start := sequenceStart (shown / blockSize * blockSize) 0 0 0 bytes
    { defect with place := defect.place - start }

def decodeLines (bytes : Bytes) : Except Defect Text :=
  match decode bytes with
  | .ok text => .ok text
  | .error defect => .error (defect.inBlock bytes)

end Utf8
end ApiDocs
