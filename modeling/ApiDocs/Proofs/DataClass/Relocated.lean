import ApiDocs.Proofs.Build.Anew
import ApiDocs.Proofs.Instance.Logos
import ApiDocs.Proofs.Pages.Closing

/-! Pages that move. The folders of the data classes move into a section of their own with all they hold. The pages of
the sections are written beside those that show the frameworks, and a page that loses its title keeps its logos. -/

set_option autoImplicit false

namespace ApiDocs

open Script Text

namespace Tree

/-- What moving leaves in a file's place was there before, or in the place that it was moved from. -/
theorem file_of_moved {tree : Tree} (sound : tree.Sound) (distinct : tree.Distinct) {origin destination place : Place}
    {bytes : Bytes} (inner : origin ≠ []) (vacant : tree.get? destination = none)
    (held : ((tree.graft origin destination).erase origin).get? place = some (.file bytes)) :
    (¬destination <+: place ∧ ¬origin <+: place ∧ tree.get? place = some (.file bytes)) ∨
      ∃ rest, place = destination ++ rest ∧ tree.get? (origin ++ rest) = some (.file bytes) := by
  have proper : place ≠ [] := by
    rintro rfl
    cases held
  rw [get?_erase _ _ _ proper] at held
  split at held
  · cases held
  rename_i outside
  by_cases below : destination <+: place
  · obtain ⟨rest, rfl⟩ := below
    rw [get?_graft_vacant distinct inner (sound.vacant_below vacant)] at held
    exact .inr ⟨rest, rfl, held⟩
  · rw [get?_graft_apart distinct origin below] at held
    exact .inl ⟨below, fun above => outside (List.isPrefixOf_iff_prefix.mpr above), held⟩

end Tree

namespace Pages

/-- Where a folder of pages lies once those of some kinds have moved into the section of data classes. -/
def moved (kinds : List Text) : Place → Place
  | [] => []
  | first :: rest => if kinds.contains first then "data_classes" :: first :: rest else first :: rest

theorem moved_nil : moved [] = id := by
  funext inner
  cases inner <;> rfl

theorem moved_of_mem {kinds : List Text} {first : Text} (moves : first ∈ kinds) (rest : Place) :
    moved kinds (first :: rest) = ("data_classes" : Text) :: first :: rest :=
  if_pos (List.contains_iff_mem.mpr moves)

theorem moved_of_not_mem {kinds : List Text} {first : Text} (stays : first ∉ kinds) (rest : Place) :
    moved kinds (first :: rest) = first :: rest :=
  if_neg (mt List.contains_iff_mem.mp stays)

theorem moved_other {kinds : List Text} {type first : Text} (differs : first ≠ type) (rest : Place) :
    moved (type :: kinds) (first :: rest) = moved kinds (first :: rest) := by
  have same : first ∈ type :: kinds ↔ first ∈ kinds := by rw [List.mem_cons, or_iff_right differs]
  by_cases moves : first ∈ kinds
  · rw [moved_of_mem moves, moved_of_mem (same.mpr moves)]
  · rw [moved_of_not_mem moves, moved_of_not_mem (mt same.mp moves)]

end Pages

namespace DataClass
open Pages Instance

/-- A kind of pages that is kept when a page loses its title. -/
def Untitling (fits : Place → Bytes → Prop) : Prop :=
  ∀ place bytes text, fits place bytes → Utf8.decodeLines bytes = .ok text → fits place (Utf8.bytesOf (untitled text))

def Unbound (site : Site) (fits : Place → Bytes → Prop) (path : Text) : Prop :=
  ∀ tree place, site.locate tree path = .ok place → ∀ bytes, fits place bytes

section
variable {site : Site} {fits : Place → Bytes → Prop} {path : Text}

theorem Unbound.writeText (unbound : Unbound site fits path) (text : Text) :
    Preserves site (Tree.Holds fits) (writeText path text) :=
  preserves_writeText_holds fun _ _ _ _ found =>
    ⟨unbound _ _ (locate_of_writable found) _, fun _ => unbound _ _ (locate_of_writable found) _⟩

theorem Unbound.appendText (unbound : Unbound site fits path) (text : Text) :
    Preserves site (Tree.Holds fits) (appendText path text) :=
  .appendText fun tree place _ holds found =>
    have any := unbound tree place (locate_of_writable found)
    ⟨holds.written (written_put found _) (any _), fun _ => holds.written (written_put found _) (any _)⟩

variable (untitling : Untitling fits)
include untitling

theorem preserves_dropTitle (page : Text) : Preserves site (Tree.Holds fits) (dropTitle page) := by
  refine fun tree holds => ⟨?_, fun _ _ => trivial⟩
  cases read : linesAt site tree page with
  | error fault =>
    rw [dropTitle, runOn_bind, runOn_readLines, read]
    exact holds
  | ok lines =>
    obtain ⟨place, bytes, text, found, decoded, _⟩ := (linesAt_eq_ok_iff _ _).mp read
    rw [runOn_dropTitle_of found decoded]
    obtain ⟨_, held⟩ := Site.find_eq_ok_iff.mp found
    exact holds.written (written_put (writable_of_find found) _)
      (untitling place bytes text (holds.every place bytes held) decoded)

theorem preserves_moveLine (directory submodule line : Text) :
    Preserves site (Tree.Holds fits) (moveLine directory submodule line) := by
  have entry : ∀ line, Preserves site (Tree.Holds fits) (moveEntry directory submodule line) := by
    intro line
    unfold moveEntry
    split
    · exact (preserves_dropTitle untitling _).then fun _ => .pure trivial
    · exact .pure trivial
  unfold moveLine
  split <;> exact (entry _).then fun _ => .pure trivial

theorem preserves_liftPage (unbound : Unbound site fits path) (source submodule : Text) :
    Preserves site (Tree.Holds fits) (liftPage path source submodule) := by
  unfold liftPage
  refine Preserves.then (.look (runOn_readLines site · _)) fun lines => ?_
  refine Preserves.then (.mapM fun line _ => preserves_moveLine untitling _ _ _) fun moved => ?_
  exact unbound.writeText _

theorem preserves_writePage (unbound : Unbound site fits path) (folder title dotted submodule : Text) :
    Preserves site (Tree.Holds fits) (writePage folder path title dotted submodule) := by
  have listing : Preserves site (Tree.Holds fits) (do
      let files := (← Script.names folder).filter fun file =>
        Text.mentions ".rst" file && !(["array.rst", "container.rst"] : List Text).contains file
      Toctree.append [(submodule, Text.sort files)] path (some title) true) :=
    (Maintains.names (fun _ holds => holds.sound) folder).bind fun _ _ => unbound.appendText _
  unfold writePage
  split
  · exact (preserves_liftPage untitling unbound _ _).then fun _ => listing
  split
  · exact (preserves_liftPage untitling unbound _ _).then fun _ => listing
  · exact (unbound.writeText _).then fun _ => listing

omit untitling in
theorem preserves_rearrangeIndex {pages : Text} (unbound : Unbound site fits (Path.join pages "index.rst")) :
    Preserves site (Tree.Holds fits) (rearrangeIndex pages) := by
  have listing : ∀ name title, Preserves site (Tree.Holds fits) (listInIndex pages name title) := by
    intro name title
    unfold listInIndex
    exact (Maintains.names (fun _ holds => holds.sound) _).bind fun _ _ => unbound.appendText _
  unfold rearrangeIndex
  refine Preserves.then (.look (runOn_readLines site · _)) fun lines => ?_
  refine Preserves.then (.ofExcept _ _) fun cut => ?_
  refine (unbound.writeText _).then fun _ => ?_
  refine (listing _ _).then fun _ => ?_
  refine (listing _ _).then fun _ => ?_
  exact unbound.appendText _

theorem preserves_writeSections {pages classes : Text} (unbound : ∀ path ∈ [Path.join pages "stateful.rst",
      Path.join classes "array.rst", Path.join classes "container.rst", Path.join pages "data_classes.rst",
        Path.join pages "index.rst"],
      Unbound site fits path) :
    Preserves site (Tree.Holds fits) (writeSections pages classes) := by
  unfold writeSections
  refine (preserves_writePage untitling (unbound _ (by simp)) _ _ _ _).then fun _ => ?_
  refine (preserves_writePage untitling (unbound _ (by simp)) _ _ _ _).then fun _ => ?_
  refine (preserves_writePage untitling (unbound _ (by simp)) _ _ _ _).then fun _ => ?_
  refine (preserves_writePage untitling (unbound _ (by simp)) _ _ _ _).then fun _ => ?_
  exact preserves_rearrangeIndex (unbound _ (by simp))

end

section
variable {site : Site} {settings : Settings} {lib : Place} {base tree after : Tree} {kinds : List Text}
    {kind : Place → Text → Prop}

theorem untitling_raised : Untitling (Shows site lib base (moved kinds) (Raised settings)) := by
  intro place bytes text shows decoded inner last illustrated eq
  obtain ⟨text', plain, rfl, up⟩ := shows inner last illustrated eq
  cases (Utf8.decodeLines_bytesOf plain).symm.trans decoded
  refine ⟨untitled text, plain_untitled decoded, rfl, up.unifyNewlines.of_infix ?_⟩
  refine ⟨((lines (unifyNewlines text)).take 3).flatten, [], ?_⟩
  rw [untitled, List.append_nil, ← List.flatten_append, List.take_append_drop, flatten_lines]

variable (clear : site.Clear) (above : ∀ name ∈ site.start, Path.Named name) (here : settings.here = site.here)
  (apart : ∀ inner last, Illustrated lib base inner last → inner.head? ≠ some ("data_classes" : Text))
include clear above here

theorem unbound_top {names : Place} (named : ∀ name ∈ names, Path.Named name)
    (beside : ∀ inner last, Illustrated lib base inner last → names ≠ moved kinds inner ++ [last]) :
    Unbound site (Shows site lib base (moved kinds) kind) (Path.walked settings.here (folder :: names)) := by
  intro tree place located bytes inner last illustrated eq
  have all : ∀ name ∈ folder :: names, Path.Named name := by
    intro name member
    rcases List.mem_cons.mp member with rfl | member
    · exact Path.named_of_isNamed (by decide)
    · exact named name member
  rw [here] at located
  have same := clear.eq_of_locate_here above all located
  rw [eq, top, Site.below, List.append_assoc, List.append_assoc, List.append_cancel_left_eq, List.singleton_append,
    List.cons.injEq] at same
  exact absurd same.2.symm (beside inner last illustrated)

include apart

omit clear above here in
theorem section_ne_moved {names : Place} (short : names.length = 1 ∨ ∃ page, names = [("data_classes" : Text), page])
    {inner : Place} {last : Text} (illustrated : Illustrated lib base inner last) :
    names ≠ moved kinds inner ++ [last] := by
  rintro rfl
  cases inner with
  | nil =>
    obtain ⟨front, stem, _, below⟩ := illustrated.below
    exact absurd (List.prefix_nil.mp below) (by simp)
  | cons head inner =>
    rw [moved] at short
    split at short
    · rcases short with one | ⟨page, two⟩
      · simp at one
      · simpa using congrArg List.length two
    · rcases short with one | ⟨page, two⟩
      · simp at one
      · exact apart _ last illustrated (congrArg some (List.cons.inj two).1)

omit apart in
theorem runOn_moveInto_class {type : Text} (classes : type = "array" ∨ type = "container")
    (run : (moveInto (Path.walked settings.here [folder, type]) (Path.walked settings.here [folder,
      "data_classes"])).runOn site tree =
      (.ok (), after)) :
    (∃ path, site.locate tree path = .ok (top site ++ [("data_classes" : Text), type])) ∧
      tree.get? (top site ++ [("data_classes" : Text), type]) = none ∧
      after = (tree.graft (top site ++ [type]) (top site ++ [("data_classes" : Text), type])).erase
        (top site ++ [type]) := by
  obtain ⟨origin, destination, ⟨_, found⟩, located, vacant, rfl⟩ := runOn_moveInto_ok run
  have slashless : .char '/' ∉ type := by rcases classes with rfl | rfl <;> decide
  have proper : type ≠ [] := by rcases classes with rfl | rfl <;> decide
  have source : origin = top site ++ [type] := by
    have named : ∀ name ∈ [folder, type], Path.Named name := by
      rcases classes with rfl | rfl <;> exact Path.named_of_all (by decide)
    rw [here] at found
    rw [clear.eq_of_locate_here above named (Site.find_eq_ok_iff.mp found).1, top, List.append_assoc]
    rfl
  have last : Path.base (Path.dropSlashes (Path.walked settings.here [folder, type])) = type := by
    have bare : (Path.walked settings.here [folder, type]).getLast? ≠ some (.char '/') := by
      obtain ⟨lead, cut⟩ := Path.suffix_join (Path.walked settings.here [folder]) type
      have whole : Path.walked settings.here [folder, type] = lead ++ type := cut.symm
      rw [whole, List.getLast?_append_of_ne_nil _ proper]
      exact fun last => slashless (List.mem_of_getLast? last)
    rw [Path.dropSlashes_open bare]
    exact Path.base_walked settings.here [folder] slashless
  have target : destination = top site ++ [("data_classes" : Text), type] := by
    have named : ∀ name ∈ [folder, ("data_classes" : Text), type], Path.Named name := by
      rcases classes with rfl | rfl <;> exact Path.named_of_all (by decide)
    rw [last, here] at located
    rw [clear.eq_of_locate_here above named located, top, List.append_assoc]
    rfl
  subst source target
  exact ⟨⟨_, located⟩, vacant, rfl⟩

theorem every_moveInto {type : Text} (classes : type = "array" ∨ type = "container") (first : type ∉ kinds)
    (sound : tree.Sound) (distinct : tree.Distinct) (every : tree.Every (Shows site lib base (moved kinds) kind))
    (run : (moveInto (Path.walked settings.here [folder, type]) (Path.walked settings.here [folder,
      "data_classes"])).runOn site tree =
      (.ok (), after)) :
    after.Sound ∧ after.Distinct ∧ after.Every (Shows site lib base (moved (type :: kinds)) kind) := by
  obtain ⟨⟨_, located⟩, vacant, rfl⟩ := runOn_moveInto_class clear above here classes run
  have rooted : top site ++ [type] ≠ [] := by simp
  have proper := (Site.locate_cases sound located).resolve_left (by rw [vacant]; intro eq; cases eq)
  refine ⟨(sound.graft distinct rooted (fun rest _ => sound.vacant_below vacant rest) (.inr proper)).erase _,
    (distinct.graft _ _).erase _, ?_⟩
  intro place bytes held inner last illustrated eq
  rcases Tree.file_of_moved sound distinct rooted vacant held with ⟨away, _, stayed⟩ | ⟨rest, rfl, came⟩
  · -- what has stayed is not of the moved folder
    cases inner with
    | nil => exact every place bytes stayed [] last illustrated eq
    | cons head inner =>
      by_cases own : head = type
      · rw [own, moved_of_mem List.mem_cons_self] at eq
        exact absurd ⟨inner ++ [last], by rw [eq, List.append_assoc, List.append_assoc]; rfl⟩ away
      · rw [moved_other own] at eq
        exact every place bytes stayed _ last illustrated eq
  · have cut : ("data_classes" : Text) :: type :: rest = moved (type :: kinds) inner ++ [last] := by
      rw [List.append_assoc, List.append_assoc] at eq
      exact List.append_cancel_left eq
    cases inner with
    | nil => simp [moved] at cut
    | cons head inner =>
      -- what has come lay in the moved folder, and no library has a module for the folder that it came to
      by_cases moves : head ∈ type :: kinds
      · rw [moved_of_mem moves] at cut
        obtain ⟨rfl, rfl⟩ := List.cons.inj (List.cons.inj cut).2
        refine every _ bytes came _ last illustrated ?_
        rw [moved_of_not_mem first, List.append_assoc, List.append_assoc]
        rfl
      · rw [moved_of_not_mem moves] at cut
        exact absurd (congrArg some (List.cons.inj cut).1.symm) (apart _ last illustrated)

/-- When the folders of the data classes have moved every page shows its logos as many levels up as it did before. -/
theorem holds_relocate (distinct : tree.Distinct) (holds : tree.Holds (Shows site lib base id (Raised settings)))
    (run : (relocate settings).runOn site tree = (.ok (), after)) :
    after.Holds (Shows site lib base (moved ["container", "array"]) (Raised settings)) := by
  rw [relocate_eq] at run
  obtain ⟨_, made, making, run⟩ := runOn_bind_ok run
  obtain ⟨_, halfway, arrays, run⟩ := runOn_bind_ok run
  obtain ⟨_, arranged, containers, sections⟩ := runOn_bind_ok run
  have opened := holds.widened (widened_makeDirectories making)
  have still : made.Every (Shows site lib base (moved []) (Raised settings)) := by
    rw [moved_nil]
    exact opened.every
  obtain ⟨sound, distinct, every⟩ := every_moveInto clear above here apart (.inl rfl) List.not_mem_nil opened.sound
    ((blind_makeDirectories _ _).distinct distinct making) still arrays
  obtain ⟨sound, distinct, every⟩ := every_moveInto clear above here apart (.inr rfl) (by decide) sound
    distinct every containers
  -- the pages of sections are none of a module, so any text may be written there
  have unbound : ∀ names : Place, (∀ name ∈ names, Path.Named name) →
      (names.length = 1 ∨ ∃ page, names = [("data_classes" : Text), page]) →
        Unbound site (Shows site lib base (moved ["container", "array"]) (Raised settings))
          (Path.walked settings.here (folder :: names)) :=
    fun names named short => unbound_top clear above here named fun inner last => section_ne_moved apart short
  have written : Preserves site (Tree.Holds (Shows site lib base (moved ["container", "array"]) (Raised settings)))
      (writeSections (Path.join settings.here folder) (Path.join (Path.join settings.here folder) "data_classes")) := by
    refine preserves_writeSections untitling_raised fun path member => ?_
    simp only [List.mem_cons, List.not_mem_nil, or_false] at member
    rcases member with rfl | rfl | rfl | rfl | rfl
    · exact unbound ["stateful.rst"] (Path.named_of_all (by decide)) (.inl rfl)
    · exact unbound ["data_classes", "array.rst"] (Path.named_of_all (by decide)) (.inr ⟨_, rfl⟩)
    · exact unbound ["data_classes", "container.rst"] (Path.named_of_all (by decide)) (.inr ⟨_, rfl⟩)
    · exact unbound ["data_classes.rst"] (Path.named_of_all (by decide)) (.inl rfl)
    · exact unbound ["index.rst"] (Path.named_of_all (by decide)) (.inl rfl)
  exact written.keeps ⟨sound, every⟩ sections

end

end DataClass
end ApiDocs
