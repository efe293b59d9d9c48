import ApiDocs.Pages
import ApiDocs.Proofs.File.Confined
import ApiDocs.Proofs.Module.Location

/-! Where pages lie. The names that lead from the library to a directory or module lead from the folder of the pages to
its page, whatever way the path of the page is cut out of the path of the source. -/

set_option autoImplicit false

namespace ApiDocs

theorem Path.flatMap_slash {names : Place} (proper : names ≠ []) :
    names.flatMap (.char '/' :: ·) = .char '/' :: Text.join "/" names := by
  induction names with
  | nil => exact absurd rfl proper
  | cons name names ih =>
    cases names with
    | nil => simp [Text.join]
    | cons next names =>
      rw [List.flatMap_cons, ih (List.cons_ne_nil _ _)]
      simp [Text.join, Text.ofChars]

theorem Text.join_snoc (separator : Text) (front : List Text) (last more : Text) :
    join separator (front ++ [last ++ more]) = join separator (front ++ [last]) ++ more := by
  by_cases alone : front = []
  · subst alone
    rfl
  · rw [join_last separator alone, join_last separator alone, List.append_assoc _ last more]

theorem Text.mem_join {separator : Text} {pieces : List Text} {c : CodePoint} (member : c ∈ join separator pieces) :
    c ∈ separator ∨ ∃ piece ∈ pieces, c ∈ piece := by
  induction pieces with
  | nil => exact absurd member List.not_mem_nil
  | cons piece pieces ih =>
    cases pieces with
    | nil => exact .inr ⟨piece, List.mem_cons_self, member⟩
    | cons next pieces =>
      rcases List.mem_append.mp member with front | rest
      · rcases List.mem_append.mp front with inside | between
        · exact .inr ⟨piece, List.mem_cons_self, inside⟩
        · exact .inl between
      · exact (ih rest).imp_right fun ⟨other, inside, here⟩ => ⟨other, List.mem_cons_of_mem _ inside, here⟩

namespace Module
open Text

/-- The library's last name stands in its path at the end only. -/
structure Rooted (settings : Settings) : Prop where
  proper : Path.base settings.library ≠ []
  last : index? (Path.base settings.library) settings.library =
    some (settings.library.length - (Path.base settings.library).length)

theorem split_slice_walked {library : Text} (proper : Path.base library ≠ []) {start : Nat}
    (inside : start ≤ library.length) {front : Place} {stem : Text}
    (named : ∀ name ∈ front ++ [stem ++ (".py" : Text)], Path.Named name) :
    split "/" (slice (Path.walked library (front ++ [stem ++ (".py" : Text)])) start (-3)) =
      split "/" (library.drop start) ++ (front ++ [stem]) := by
  obtain ⟨nonempty, bare⟩ := Path.open_of_base proper
  have ended : .char '/' :: join "/" (front ++ [stem ++ (".py" : Text)]) =
      (.char '/' :: join "/" (front ++ [stem])) ++ (".py" : Text) := by rw [join_snoc, List.cons_append]
  have length : (.char '/' :: join "/" (front ++ [stem ++ (".py" : Text)])).length =
      (.char '/' :: join "/" (front ++ [stem])).length + 3 := by rw [ended, List.length_append]; rfl
  have sliced : slice (Path.walked library (front ++ [stem ++ (".py" : Text)])) start (-(3 : Nat)) =
      library.drop start ++ .char '/' :: join "/" (front ++ [stem]) := by
    rw [Path.walked_eq nonempty bare named, Path.flatMap_slash (by simp),
      slice_append inside (by decide) (by rw [length]; omega), length, Nat.add_sub_cancel, ended, List.take_left]
  have slashless : ∀ name ∈ front ++ [stem], .char '/' ∉ name := by
    intro name member
    rcases List.mem_append.mp member with inside | last
    · exact (named name (List.mem_append_left _ inside)).noSlash
    · rw [List.mem_singleton.mp last]
      exact fun slash => (named _ (List.mem_append_right _ List.mem_cons_self)).noSlash (List.mem_append_left _ slash)
  calc split "/" (slice (Path.walked library (front ++ [stem ++ (".py" : Text)])) start (-3))
      = split [.char '/'] (library.drop start ++ .char '/' :: join [.char '/'] (front ++ [stem])) :=
        congrArg (split "/") sliced
    _ = split "/" (library.drop start) ++ (front ++ [stem]) := by
      rw [split_append, split_join (by simp) slashless]
      rfl

variable {settings : Settings} (rooted : Rooted settings)
include rooted

theorem Rooted.locate_walked {names : Place} (named : ∀ name ∈ names, Path.Named name) :
    locate settings (Path.walked settings.library names) =
      ⟨(settings.library.length - (Path.base settings.library).length : Nat),
        (Path.base settings.library).length + 1⟩ := by
  obtain ⟨proper, bare⟩ := Path.open_of_base rooted.proper
  obtain ⟨start, found, _, located⟩ := locate_start rooted.proper
  rw [rooted.last] at found
  rw [Path.walked_eq proper bare named, located, ← Option.some.inj found]

/-- The path below the library. -/
theorem Rooted.relative_walked {first names : Place} (named : ∀ name ∈ first, Path.Named name)
    (named' : ∀ name ∈ names, Path.Named name) :
    (locate settings (Path.walked settings.library first)).relative (Path.walked settings.library names) =
      join "/" names := by
  obtain ⟨proper, bare⟩ := Path.open_of_base rooted.proper
  obtain ⟨lead, cut, _⟩ := Path.base_suffix settings.library
  have length : (Path.base settings.library).length ≤ settings.library.length := by
    have whole := congrArg List.length cut
    rw [List.length_append] at whole
    omega
  have start : ((settings.library.length - (Path.base settings.library).length : Nat) : Int) +
      ((Path.base settings.library).length + 1) = (settings.library.length + 1 : Nat) := by omega
  rw [rooted.locate_walked named, Location.relative, Path.walked_eq proper bare named', start, since, bound_ofNat]
  by_cases empty : names = []
  · simp [empty, join]
  · rw [Path.flatMap_slash empty, List.length_append, List.length_cons, Nat.min_eq_left (by omega),
      List.drop_length_add_append]
    rfl

theorem Rooted.dotted_walked {first front : Place} {stem : Text} (named : ∀ name ∈ first, Path.Named name)
    (named' : ∀ name ∈ front ++ [stem ++ (".py" : Text)], Path.Named name) (count : Nat) :
    (locate settings (Path.walked settings.library first)).dotted count
        (Path.walked settings.library (front ++ [stem ++ (".py" : Text)])) =
      join "." ((Path.base settings.library :: (front ++ [stem])).take count) := by
  obtain ⟨lead, cut, free⟩ := Path.base_suffix settings.library
  have start : settings.library.length - (Path.base settings.library).length = lead.length := by
    have whole := congrArg List.length cut
    rw [List.length_append] at whole
    omega
  have tail : settings.library.drop lead.length = Path.base settings.library := by
    have dropped := congrArg (List.drop lead.length) cut
    rwa [List.drop_left] at dropped
  rw [rooted.locate_walked named, start, Location.dotted,
    split_slice_walked rooted.proper (List.IsPrefix.length_le ⟨_, cut.symm⟩) named', tail]
  rw [show split "/" (Path.base settings.library) = [Path.base settings.library] from split_free free]
  rfl

end Module

namespace Pages
open Text

def pagePath (names : Place) : Text := join "/" (folder :: names)

/-- The names of the page of a directory or module that these names lead to. -/
def pageNames (names : Place) : Place := names.dropLast ++ [names.getLastD [] ++ (".rst" : Text)]

theorem pageNames_snoc (front : Place) (last : Text) :
    pageNames (front ++ [last]) = front ++ [last ++ (".rst" : Text)] := by
  simp [pageNames, List.getLastD_eq_getLast?]

theorem pageNames_inj {first second : Place} (left : first ≠ []) (right : second ≠ [])
    (same : pageNames first = pageNames second) : first = second := by
  obtain ⟨front, last, rfl⟩ := (List.eq_nil_or_concat first).resolve_left left
  obtain ⟨front', last', rfl⟩ := (List.eq_nil_or_concat second).resolve_left right
  rw [List.concat_eq_append, List.concat_eq_append, pageNames_snoc, pageNames_snoc] at same
  obtain ⟨rfl, lasts⟩ := List.append_inj' same rfl
  rw [List.append_cancel_right (List.cons.inj lasts).1]

theorem word_folder : Path.Word folder :=
  ⟨Text.plain_ofChars _, by decide, by decide, by decide⟩

theorem pagePath_snoc (front : Place) (last more : Text) :
    pagePath (front ++ [last ++ more]) = pagePath (front ++ [last]) ++ more :=
  join_snoc "/" (folder :: front) last more

theorem single_folder {names : Place} (single : ∀ name ∈ names, Path.Single name) :
    ∀ name ∈ folder :: names, Path.Single name := by
  intro name member
  rcases List.mem_cons.mp member with rfl | inside
  · exact word_folder.single
  · exact single name inside

theorem join_pagePath {names : Place} (single : ∀ name ∈ names, Path.Single name) {last : Text}
    (relative : last.head? ≠ some (.char '/')) : Path.join (pagePath names) last = pagePath (names ++ [last]) :=
  Path.join_names (List.cons_ne_nil _ _) (single_folder single) relative

theorem join_folder {names : Place} (proper : names ≠ []) (single : ∀ name ∈ names, Path.Single name) :
    Path.join folder (join "/" names) = pagePath names := by
  have relative : (join "/" names).head? ≠ some (.char '/') := by
    obtain ⟨name, rest, rfl⟩ := List.exists_cons_of_ne_nil proper
    have first := single name List.mem_cons_self
    have other : name.head? ≠ some (.char '/') := fun slash => first.slashless (List.mem_of_head? slash)
    cases name with
    | nil => exact absurd rfl first.proper
    | cons c name =>
      cases rest with
      | nil => exact other
      | cons next rest => exact other
  rw [Path.join_open relative (by decide) (by decide), pagePath, join_cons proper, List.append_assoc]
  rfl

theorem directory_save {names : Place} (single : ∀ name ∈ names, Path.Single name) :
    Path.directory (Path.join folder (join "/" names)) = pagePath names.dropLast := by
  rcases List.eq_nil_or_concat names with rfl | ⟨front, last, rfl⟩
  · decide
  · rw [List.concat_eq_append] at single ⊢
    have final := single last (by simp)
    have inner : ∀ name ∈ front, Path.Single name := fun name member => single name (List.mem_append_left _ member)
    obtain ⟨proper, bare⟩ := Path.open_names (List.cons_ne_nil _ _) (single_folder inner)
    rw [join_folder (by simp) single, List.dropLast_concat,
      ← join_pagePath inner fun slash => final.slashless (List.mem_of_head? slash)]
    exact Path.directory_join proper bare final.slashless

theorem split_save {names : Place} (single : ∀ name ∈ names, Path.Single name) :
    (split "/" (Path.join folder (join "/" names))).getLastD [] = names.getLastD [] ∧
      Path.join (join "/" (split "/" (Path.join folder (join "/" names))).dropLast)
        (names.getLastD [] ++ (".rst" : Text)) =
        pagePath (pageNames names) := by
  rcases List.eq_nil_or_concat names with rfl | ⟨front, last, rfl⟩
  · decide
  · rw [List.concat_eq_append] at single ⊢
    have final := single last (by simp)
    have pieces : split "/" (Path.join folder (join "/" (front ++ [last]))) = folder :: (front ++ [last]) := by
      rw [join_folder (by simp) single]
      exact split_join (List.cons_ne_nil _ _) fun name member => (single_folder single name member).slashless
    have inner : ∀ name ∈ front, Path.Single name := fun name member => single name (List.mem_append_left _ member)
    have relative : (last ++ (".rst" : Text)).head? ≠ some (.char '/') := by
      obtain ⟨c, rest, eq⟩ := List.exists_cons_of_ne_nil final.proper
      rw [eq]
      rintro slash
      exact final.slashless (by rw [eq, Option.some.inj slash]; exact List.mem_cons_self)
    have ends : ∀ names : Place, (names ++ [last]).getLastD [] = last := by
      intro names
      rw [List.getLastD_eq_getLast?, List.getLast?_concat]
      rfl
    rw [pieces, ← List.cons_append, List.dropLast_concat, ends, ends, pageNames_snoc, ← join_pagePath inner relative]
    exact ⟨rfl, rfl⟩

theorem pagePath_pageNames {names : Place} (proper : names ≠ []) :
    pagePath (pageNames names) = pagePath names ++ (".rst" : Text) := by
  obtain ⟨front, last, rfl⟩ := (List.eq_nil_or_concat names).resolve_left proper
  rw [List.concat_eq_append, pageNames_snoc, pagePath_snoc]

theorem replace_part {names : Place} {stem : Text} (words : ∀ name ∈ names ++ [stem], Path.Word name) (count : Nat) :
    replace ".py" "" (Path.join folder (join "/" ((names ++ [stem ++ (".py" : Text)]).take (count + 1)))) =
      pagePath ((names ++ [stem]).take (count + 1)) := by
  have absent : ∀ {pieces : Place}, (∀ name ∈ pieces, Path.Word name) → ¬(".py" : Text) <:+: pagePath pieces := by
    intro pieces words inside
    obtain slash | ⟨piece, member, here⟩ := mem_join (inside.subset (List.mem_cons_self))
    · exact absurd slash (by decide)
    · rcases List.mem_cons.mp member with rfl | inside
      · exact word_folder.dotless here
      · exact (words piece inside).dotless here
  by_cases short : count + 1 ≤ names.length
  · -- a directory on the way
    have words' : ∀ name ∈ names.take (count + 1), Path.Word name := fun name member =>
      words name (List.mem_append_left _ (List.mem_of_mem_take member))
    have proper : names.take (count + 1) ≠ [] := by
      intro empty
      have length := congrArg List.length empty
      rw [List.length_take, List.length_nil] at length
      omega
    rw [List.take_append_of_le_length short, List.take_append_of_le_length short,
      join_folder proper fun name member => (words' name member).single]
    exact (replace_absent (by decide) (absent words') "").1
  · have long : names.length + 1 ≤ count + 1 := by omega
    have single : ∀ name ∈ names ++ [stem ++ (".py" : Text)], Path.Single name := by
      intro name member
      rcases List.mem_append.mp member with inside | last
      · exact (words name (List.mem_append_left _ inside)).single
      · rw [List.mem_singleton.mp last]
        exact Path.single_append (words stem (by simp)).slashless (by decide) (by decide)
    rw [List.take_of_length_le (by simpa using long), List.take_of_length_le (by simpa using long),
      join_folder (by simp) single, pagePath_snoc]
    have replaced := (replace_absent (by decide) (absent words) "").2
    rw [show (ofChars "".toList : Text) = [] from rfl, List.append_nil] at replaced
    exact replaced

theorem page_of_mem_targets {settings : Settings} {location : Module.Location} {path : Text} {target : Target}
    (member : target ∈ targets settings location path) : target.page = target.folder ++ ".rst" := by
  obtain ⟨i, _, eq⟩ := List.mem_filterMap.mp member
  dsimp only at eq
  split at eq
  · cases eq
  · cases eq
    rfl

theorem getLast?_targets {settings : Settings} {location : Module.Location} {path : Text}
    (unstepped : location.relative path ∉ settings.stepped) :
    (targets settings location path).getLast? =
      some ⟨replace ".py" "" (Path.join folder (location.relative path)) ++ ".rst",
        replace ".py" "" (Path.join folder (location.relative path)),
          location.dotted (location.depth path + 2) path⟩ := by
  have whole : join "/" ((split "/" (location.relative path)).take ((location.relative path).count (.char '/') + 2)) =
      location.relative path := by
    have length : (split "/" (location.relative path)).length = (location.relative path).count (.char '/') + 1 :=
      length_split (.char '/') (location.relative path)
    rw [List.take_of_length_le (by omega), join_split (by decide)]
  have kept : settings.stepped.contains (location.relative path) = false := by simpa using unstepped
  rw [targets, Module.Location.depth, List.range_succ, List.filterMap_append, List.getLast?_append]
  simp only [List.filterMap_cons, whole, kept]
  rfl

section
variable {settings : Settings} (rooted : Module.Rooted settings) {names : Place} {stem : Text}
  (named : ∀ name ∈ names ++ [stem ++ (".py" : Text)], Path.Named name)
    (words : ∀ name ∈ names ++ [stem], Path.Word name)
include rooted named words

omit words in
theorem depth_walked : (Module.locate settings (Path.walked settings.library names)).depth
    (Path.walked settings.library (names ++ [stem ++ (".py" : Text)])) = names.length + 1 := by
  have pieces : split "/" (join "/" (names ++ [stem ++ (".py" : Text)])) = names ++ [stem ++ (".py" : Text)] :=
    split_join (by simp) fun name member => (named name member).noSlash
  have count := length_split (.char '/') (join "/" (names ++ [stem ++ (".py" : Text)]))
  rw [Module.Location.depth, rooted.relative_walked (fun name member => named name (List.mem_append_left _ member))
    named, ← count]
  exact (congrArg List.length pieces).trans (by simp)

/-- The targets of a module, by how many names lead to them. -/
theorem targets_walked :
    targets settings (Module.locate settings (Path.walked settings.library names))
        (Path.walked settings.library (names ++ [stem ++ (".py" : Text)])) =
      (List.range (names.length + 1)).filterMap fun i =>
        if settings.stepped.contains (join "/" ((names ++ [stem ++ (".py" : Text)]).take (i + 2))) then none
        else some ⟨pagePath (pageNames ((names ++ [stem]).take (i + 2))), pagePath ((names ++ [stem]).take (i + 2)),
          join "." ((Path.base settings.library :: (names ++ [stem])).take (i + 3))⟩ := by
  have inside : ∀ name ∈ names, Path.Named name := fun name member => named name (List.mem_append_left _ member)
  have relative := rooted.relative_walked inside named
  have pieces : split "/" (join "/" (names ++ [stem ++ (".py" : Text)])) = names ++ [stem ++ (".py" : Text)] :=
    split_join (by simp) fun name member => (named name member).noSlash
  simp only [targets, relative, pieces, depth_walked rooted named]
  apply List.filterMap_congr
  intro i _
  have inner : (names ++ [stem]).take (i + 2) ≠ [] := by
    intro empty
    have length := congrArg List.length empty
    simp at length
  rw [replace_part words (i + 1), pagePath_pageNames inner, rooted.dotted_walked inside named]

theorem mem_targets {target : Target}
    (member : target ∈ targets settings (Module.locate settings (Path.walked settings.library names))
      (Path.walked settings.library (names ++ [stem ++ (".py" : Text)]))) :
    ∃ inner, inner ≠ [] ∧ inner <+: names ++ [stem] ∧ target.folder = pagePath inner ∧
      target.page = pagePath (pageNames inner) := by
  rw [targets_walked rooted named words] at member
  obtain ⟨i, _, made⟩ := List.mem_filterMap.mp member
  split at made
  · cases made
  · cases made
    refine ⟨_, fun empty => ?_, List.take_prefix _ _, rfl, rfl⟩
    have length := congrArg List.length empty
    simp at length

theorem getLast?_targets_walked (unstepped : join "/" (names ++ [stem ++ (".py" : Text)]) ∉ settings.stepped) :
    (targets settings (Module.locate settings (Path.walked settings.library names))
        (Path.walked settings.library (names ++ [stem ++ (".py" : Text)]))).getLast? =
      some ⟨pagePath (names ++ [stem ++ (".rst" : Text)]), pagePath (names ++ [stem]),
        join "." (Path.base settings.library :: (names ++ [stem]))⟩ := by
  have inside : ∀ name ∈ names, Path.Named name := fun name member => named name (List.mem_append_left _ member)
  have relative := rooted.relative_walked inside named
  have folder := replace_part words names.length
  rw [List.take_of_length_le (by simp), List.take_of_length_le (by simp)] at folder
  have all : (Path.base settings.library :: (names ++ [stem])).take (names.length + 3) =
      Path.base settings.library :: (names ++ [stem]) := List.take_of_length_le (by simp)
  rw [getLast?_targets (by rwa [relative]), depth_walked rooted named, relative, folder,
    rooted.dotted_walked inside named, all, pagePath_snoc]

end

def finishIndex (settings : Settings) (toctree : Toctree) : Script Unit := do
  let related := (← Script.readLines (Path.join settings.here "ivy_modules.txt")).map fun line =>
    Text.replace "\n" "" line ++ ".rst"
  Script.makeDirectories (folder ++ "/docs") true
  related.forM writeRelated
  Toctree.append (Table.put "docs" related toctree) (folder ++ "/index.rst") none true

def fillIndex (settings : Settings) (folders : Toctree) (head : Text) : Script Unit := do
  Script.writeText (folder ++ "/index.rst") head
  match settings.heading with
  | .byDirectory => finishIndex settings (sections folders)
  | .common title => do
    Toctree.append (sections folders) (folder ++ "/index.rst") (some title) true
    finishIndex settings []
  | .untitled => throw .titleMissing

theorem writeIndex_eq (settings : Settings) (folders : Toctree) :
    writeIndex settings folders = (do
      let before ← Script.readText "partial_source/index_prepend.rst"
      let readme ← Script.ofExcept id (Readme.indexText (← Script.readText "../README.rst"))
      if ← Script.present "partial_source/index_append.rst" then
        let after ← Script.readText "partial_source/index_append.rst"
        fillIndex settings folders (indexHead before readme after)
      else fillIndex settings folders (indexHead before readme [])) := by
  unfold writeIndex fillIndex finishIndex
  cases settings.heading <;> rfl

theorem runOn_write (settings : Settings) (directory : Text) (site : Site) (tree : Tree) :
    (write settings directory).runOn site tree =
      (writeUpTo settings (2 * (tree.height + 4)) directory).runOn site tree := by
  rw [write, Script.runOn_bind, Script.runOn_get, Script.andThen_ok]

end Pages
end ApiDocs
