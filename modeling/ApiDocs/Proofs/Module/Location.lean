import ApiDocs.Module
import ApiDocs.Proofs.File.Below
import ApiDocs.Proofs.Text.Search

/-! Where a library stands in the paths below it. Its name is looked for from the left, and is found at the same
place in the path of every directory and module of the library. -/

set_option autoImplicit false

namespace ApiDocs.Module

open Text

/-- None of the directories that names lead through is left out. -/
def Visited (settings : Settings) (names : Place) : Prop :=
  ∀ front name rest, names = front ++ name :: rest →
    excludedDirectories.contains (Path.base (Path.walked settings.library (front ++ [name]))) = false ∧
      (skippedDirectories settings).contains (Path.walked settings.library (front ++ [name])) = false

theorem visited_nil (settings : Settings) : Visited settings [] := by
  intro front name rest eq
  cases front <;> cases eq

theorem Visited.snoc {settings : Settings} {names : Place} (visited : Visited settings names) {name : Text}
    (kept : excludedDirectories.contains (Path.base (Path.walked settings.library (names ++ [name]))) = false)
    (unskipped : (skippedDirectories settings).contains (Path.walked settings.library (names ++ [name])) = false) :
    Visited settings (names ++ [name]) := by
  intro front other rest eq
  rcases List.eq_nil_or_concat rest with rfl | ⟨rest, last, rfl⟩
  · rw [← eq]
    exact ⟨kept, unskipped⟩
  · rw [List.concat_eq_append, ← List.cons_append, ← List.append_assoc] at eq
    exact visited front other rest (List.append_inj' eq rfl).1

theorem Visited.front {settings : Settings} {names rest : Place} (visited : Visited settings (names ++ rest)) :
    Visited settings names := by
  rintro front name more rfl
  exact visited front name (more ++ rest) (by simp)

theorem Visited.ne_docs {settings : Settings} {names : Place} (visited : Visited settings names) :
    names ≠ [("docs" : Text)] := by
  rintro rfl
  have kept := (visited [] "docs" [] rfl).1
  rw [Path.base_walked _ [] (by decide)] at kept
  exact absurd kept (by decide)

theorem visited_of_all {settings : Settings} {names : Place}
    (check : ∀ count < names.length,
      excludedDirectories.contains (Path.base (Path.walked settings.library (names.take (count + 1)))) = false ∧
        (skippedDirectories settings).contains (Path.walked settings.library (names.take (count + 1))) = false) :
    Visited settings names := by
  rintro front name rest rfl
  have part : (front ++ name :: rest).take (front.length + 1) = front ++ [name] := by
    rw [List.take_length_add_append]
    rfl
  have here := check front.length (by simp)
  rwa [part] at here

/-- The library's name is found in the paths of all directories below it where it is found in its own path. -/
theorem locate_start {settings : Settings} (rooted : Path.base settings.library ≠ []) :
    ∃ start : Nat, index? (Path.base settings.library) settings.library = some start ∧
      start + (Path.base settings.library).length ≤ settings.library.length ∧
      ∀ more, locate settings (settings.library ++ more) = ⟨start, (Path.base settings.library).length + 1⟩ := by
  obtain ⟨lead, cut, _⟩ := Path.base_suffix settings.library
  cases found : index? (Path.base settings.library) settings.library with
  | none => exact absurd ⟨lead, [], by rw [List.append_nil]; exact cut.symm⟩ (index?_eq_none_iff.mp found)
  | some start =>
    refine ⟨start, rfl, (index?_eq_some_iff.mp found).1.bound rooted, fun more => ?_⟩
    rw [locate, index, index?_append found rooted more]
    rfl

theorem Location.dotted_all {location : Location} {count : Nat} {path : Text}
    (enough : (slice path location.start (-3)).count (.char '/') + 1 ≤ count) :
    location.dotted count path = join "." (split "/" (slice path location.start (-3))) := by
  rw [Location.dotted, List.take_of_length_le]
  exact (length_split (.char '/') _).trans_le enough

theorem count_slice {path name : Text} {start : Nat} (stands : StandsAt name path start) (free : .char '/' ∉ name) :
    (slice path start (-3)).count (.char '/') ≤
      ((⟨start, name.length + 1⟩ : Location).relative path).count (.char '/') + 1 := by
  have inner : slice path start (-3) <+: path.drop start := by
    rw [slice, bound_ofNat, List.drop_take]
    have short : min start path.length = start ∨ path.drop start = [] ∧ path.drop (min start path.length) = [] := by
      by_cases inside : start ≤ path.length
      · exact .inl (Nat.min_eq_left inside)
      · refine .inr ⟨List.drop_eq_nil_of_le (by omega), List.drop_eq_nil_of_le (by omega)⟩
    rcases short with eq | ⟨first, second⟩
    · rw [eq]
      exact List.take_prefix _ _
    · rw [first, second, List.take_nil]
  -- behind the name only one character is dropped, so at most one slash is lost
  obtain ⟨rest, eq⟩ := stands
  have relative : (⟨start, name.length + 1⟩ : Location).relative path = rest.drop 1 := by
    rw [Location.relative, since, show ((start : Int) + ((name.length : Int) + 1)) =
      ((start + (name.length + 1) : Nat) : Int) by omega,
      bound_ofNat]
    have drops : path.drop (start + (name.length + 1)) = rest.drop 1 := by
      rw [← List.drop_drop, ← eq, ← List.drop_drop, List.drop_left]
    by_cases inside : start + (name.length + 1) ≤ path.length
    · rw [Nat.min_eq_left inside, drops]
    · rw [Nat.min_eq_right (by omega), List.drop_length, ← drops, List.drop_eq_nil_of_le (by omega)]
  calc (slice path start (-3)).count (.char '/') ≤ (path.drop start).count (.char '/') := inner.sublist.count_le _
    _ = rest.count (.char '/') := by rw [← eq, List.count_append, List.count_eq_zero_of_not_mem free, Nat.zero_add]
    _ ≤ (rest.drop 1).count (.char '/') + 1 := by
      cases rest with
      | nil => simp
      | cons c rest =>
        rw [List.count_cons, List.drop_one, List.tail_cons]
        split <;> omega
    _ = _ := by rw [relative]

theorem runOn_directories (site : Site) (tree : Tree) (paths : List Text) :
    (directories paths).runOn site tree =
      (.ok (paths.filter fun path =>
        (((Script.isDirectory path).runOn site tree).1.toOption.getD false) &&
          !excludedDirectories.contains (Path.base path)), tree) := by
  apply Script.runOn_filterM
  intro path _
  obtain ⟨answer, run, _⟩ := Script.runOn_isDirectory site tree path
  rw [Script.runOn_bind, run]
  rfl

def entryPaths (site : Site) (tree : Tree) (directory : Text) (place : Place) : List Text :=
  (sort (site.arrange place (tree.names place))).map (Path.join directory)

def innerDirectories (site : Site) (tree : Tree) (paths : List Text) : List Text :=
  paths.filter fun path => (((Script.isDirectory path).runOn site tree).1.toOption.getD false) &&
    !excludedDirectories.contains (Path.base path)

theorem mem_entryPaths {site : Site} {tree : Tree} {directory path : Text} {place : Place} :
    path ∈ entryPaths site tree directory place ↔
      ∃ name, (tree.get? (place ++ [name])).isSome = true ∧ path = Path.join directory name := by
  simp only [entryPaths, List.mem_map, (sort_perm _).mem_iff, (site.arrange_perm _ _).mem_iff, Tree.mem_names]
  exact exists_congr fun name => and_congr_right fun _ => eq_comm

theorem join_mem_innerDirectories_iff {site : Site} (placed : site.Sound) {tree : Tree} {directory name : Text}
    {place : Place} (named : Path.Named name) (located : site.locate tree directory = .ok place)
    (above : tree.get? place = some .directory) {paths : List Text} :
    Path.join directory name ∈ innerDirectories site tree paths ↔
      Path.join directory name ∈ paths ∧
        (tree.get? (place ++ [name]) = some .directory ∧ Path.size (Path.join directory name) ≤ Path.pathLimit) ∧
          excludedDirectories.contains (Path.base (Path.join directory name)) = false := by
  rw [innerDirectories, List.mem_filter, Script.runOn_isDirectory_join placed named located above]
  simp only [Except.toOption, Option.getD_some, Bool.and_eq_true, decide_eq_true_iff, Bool.not_eq_true']

theorem join_mem_innerDirectories {site : Site} (placed : site.Sound) {tree : Tree} {directory name : Text}
    {place : Place} (named : Path.Named name) (located : site.locate tree directory = .ok place)
    (held : tree.get? (place ++ [name]) = some .directory) (above : tree.get? place = some .directory)
    (short : Path.size (Path.join directory name) ≤ Path.pathLimit)
    (kept : excludedDirectories.contains (Path.base (Path.join directory name)) = false) :
    Path.join directory name ∈ innerDirectories site tree (entryPaths site tree directory place) :=
  (join_mem_innerDirectories_iff placed named located above).mpr
    ⟨mem_entryPaths.mpr ⟨name, Option.isSome_iff_exists.mpr ⟨_, held⟩, rfl⟩, ⟨held, short⟩, kept⟩

theorem isModule_join_iff (directory : Text) {name : Text} (slashless : .char '/' ∉ name) :
    isModule (Path.join directory name) = true ↔ ∃ stem, name = stem ++ (".py" : Text) ∧ stem ∉ excludedNames := by
  have three : ∀ stem : Text, upTo (stem ++ (".py" : Text)) (-3) = stem ∧ since (stem ++ (".py" : Text)) (-3) = ".py" :=
    fun stem => cut_ending stem (by decide)
  rw [isModule, Path.base_join directory slashless, Bool.and_eq_true, beq_iff_eq]
  constructor
  · rintro ⟨ends, kept⟩
    have suffix : (".py" : Text) <:+ Path.join directory name :=
      ⟨upTo (Path.join directory name) (-3), by rw [← ends]; exact upTo_append_since _ _⟩
    obtain ⟨stem, same⟩ : (".py" : Text) <:+ name :=
      Path.base_join directory slashless ▸ suffix_afterLast (by decide) suffix
    refine ⟨stem, same.symm, ?_⟩
    rw [← same, (three stem).1] at kept
    simpa using kept
  · rintro ⟨stem, rfl, kept⟩
    obtain ⟨lead, whole⟩ := Path.suffix_join directory (stem ++ (".py" : Text))
    rw [(three stem).1, ← whole, ← List.append_assoc]
    exact ⟨(three (lead ++ stem)).2, by simpa using kept⟩

end ApiDocs.Module
