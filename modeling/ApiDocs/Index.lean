import ApiDocs.Toctree

/-! The index page as a head and the blocks of its tables of contents. A block reaches from its directive
to the next one. -/

set_option autoImplicit false

namespace ApiDocs

structure Index where
  head : Text
  blocks : List Text
  deriving DecidableEq, Repr

namespace Index

def startsBlock (line : Text) : Bool := Text.mentions ".. toctree::" line

def ofLines (lines : List Text) : Index :=
  lines.foldr (fun line rest =>
    if startsBlock line then ⟨[], (line ++ rest.head) :: rest.blocks⟩
    else ⟨line ++ rest.head, rest.blocks⟩) ⟨[], []⟩

def render (index : Index) : Text := index.head ++ index.blocks.flatten

def isMoved (block : Text) : Bool :=
  Text.mentions ":caption: Array" block || Text.mentions ":caption: Container" block ||
    Text.mentions ":caption: Stateful" block

/-- The blocks that stay: those up to the functions, and those after them. -/
def cut (index : Index) : Except Fault (List Text × List Text) :=
  let kept := index.blocks.filter (!isMoved ·)
  match kept.findIdx? (Text.mentions ":caption: Functions") with
  | some place => .ok (kept.take (place + 1), kept.drop (place + 1))
  | none => .error .functionsBlockMissing

end Index
end ApiDocs
