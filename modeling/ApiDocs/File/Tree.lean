import ApiDocs.File.Path
import ApiDocs.Table
import ApiDocs.Text.Order

/-! The files of a workspace: a list of places, each with a file's bytes or a directory. The root is a
directory and is not listed. Operations take places; `Site.locate` finds the place of a written
name, going through directories that exist. -/

set_option autoImplicit false

namespace ApiDocs

inductive Entry where
  | file (bytes : Bytes)
  | directory
  deriving DecidableEq, Repr

structure Tree where
  entries : Table Place Entry
  deriving DecidableEq, Repr

namespace Tree

def empty : Tree := ⟨[]⟩

def get? (tree : Tree) (place : Place) : Option Entry :=
  if place = [] then some .directory else tree.entries.get? place

def put (tree : Tree) (place : Place) (entry : Entry) : Tree := ⟨tree.entries.put place entry⟩

def erase (tree : Tree) (place : Place) : Tree :=
  ⟨tree.entries.filter fun (other, _) => !place.isPrefixOf other⟩

def below (tree : Tree) (place : Place) : List (Place × Entry) :=
  tree.entries.filterMap fun (other, entry) =>
    if place.isPrefixOf other then some (other.drop place.length, entry) else none

def names (tree : Tree) (place : Place) : List Text :=
  Text.sortDistinct ((tree.below place).filterMap fun (names, _) => match names with
    | [name] => some name
    | _ => none)

/-- The tree with the entries of one place copied to another, which holds none. -/
def graft (tree : Tree) (source target : Place) : Tree :=
  (tree.below source).foldl (fun tree (names, entry) => tree.put (target ++ names) entry) tree

def height (tree : Tree) : Nat := tree.entries.foldl (fun height (place, _) => max height place.length) 0

@[simp] theorem get?_root (tree : Tree) : tree.get? [] = some .directory := rfl

theorem get?_put (tree : Tree) (place other : Place) (entry : Entry) (proper : other ≠ []) :
    (tree.put place entry).get? other = if place = other then some entry else tree.get? other := by
  simp [get?, put, proper, Table.get?_put]

theorem get?_erase (tree : Tree) (place other : Place) (proper : other ≠ []) :
    (tree.erase place).get? other = if place.isPrefixOf other then none else tree.get? other := by
  simp only [get?, erase, proper, if_false]
  induction tree.entries with
  | nil => simp [Table.get?]
  | cons entry entries ih =>
    cases gone : place.isPrefixOf entry.1 with
    | true =>
      have apart : place.isPrefixOf other = false → entry.1 ≠ other := by
        intro stays same
        rw [same, stays] at gone
        exact absurd gone (by decide)
      rw [List.filter_cons_of_neg (by simp [gone]), ih]
      by_cases stays : place.isPrefixOf other = true
      · simp [stays]
      · rw [if_neg stays, if_neg stays, Table.get?, if_neg (apart (Bool.eq_false_iff.mpr stays))]
    | false =>
      rw [List.filter_cons_of_pos (by simp [gone]), Table.get?, Table.get?, ih]
      by_cases same : entry.1 = other
      · rw [← same, gone]; simp
      · simp [same]

end Tree

/-- Where a run takes place: how the root of the workspace is written, the directory that written names
start from, and the order in which the names of a directory are listed. -/
structure Site where
  root : Text
  start : Place
  arrange : Place → List Text → List Text
  arrange_perm : ∀ place names, (arrange place names).Perm names

namespace Site

def ascending (root : Text) (start : Place) : Site :=
  ⟨root, start, fun _ names => names, fun _ _ => .refl _⟩

def here (site : Site) : Text := Text.join "/" (site.root :: site.start)

/-- One name further. Names above the root do not exist. -/
def step (place : Place) (name : Text) : Except Refusal Place :=
  if name = "." then .ok place
  else if name = ".." then (if place = [] then .error .absent else .ok place.dropLast)
  else if Path.nameLimit < Path.size name then .error .tooLong
  else .ok (place ++ [name])

/-- The place that names lead to. All but the last must stand for directories. -/
def walk (tree : Tree) : Place → List Text → Except Refusal Place
  | place, [] => .ok place
  | place, name :: names =>
    match tree.get? place with
    | some .directory => do walk tree (← step place name) names
    | some (.file _) => .error .notDirectory
    | none => .error .absent

/-- The directory that a path starts from, and the path from there. Outside the workspace there is
nothing, whatever the names. -/
def origin (site : Site) (path : Text) : Except Refusal (Place × Text) :=
  if path.isEmpty then .error .absent
  else if path = site.root || (site.root ++ "/").isPrefixOf path then
    .ok ([], path.drop site.root.length)
  else if path.head? = some (.char '/') then
    .error (if (Path.names path).head?.any (Path.nameLimit < Path.size ·) then .tooLong else .absent)
  else .ok (site.start, path)

def locate (site : Site) (tree : Tree) (path : Text) : Except Refusal Place := do
  let (start, rest) ← site.origin (← Path.accept path)
  walk tree start (Path.names rest)

def find (site : Site) (tree : Tree) (path : Text) : Except Refusal (Place × Entry) := do
  let place ← site.locate tree path
  match tree.get? place with
  | some entry => .ok (place, entry)
  | none => .error .absent

end Site
end ApiDocs
