import ApiDocs.Proofs.Pages.Complete
import ApiDocs.Proofs.Pages.Order

/-! Directories that are left out. No page is written for them or for what is below them, but the directory above lists
them with the others, on its page and in its section of the index. -/

set_option autoImplicit false

namespace ApiDocs.Pages
open Script Text ApiDocs.Module

theorem prefix_of_prefix_page {front inner : Place} {last name : Text} (dotless : .char '.' ∉ last)
    (leads : front ++ [last] <+: inner ++ [name ++ (".rst" : Text)]) : front ++ [last] <+: inner := by
  refine (List.prefix_concat_iff.mp leads).resolve_left fun same => dotless ?_
  rw [(List.cons.inj (List.append_inj' same rfl).2).1]
  exact List.mem_append_right _ (by decide)

theorem Touched.folder {site : Site} {lib : Place} {base : Tree} {names place : Place}
    (touched : Touched site lib base names place) :
    ∃ inner name, place = top site ++ (inner ++ [name ++ (".rst" : Text)]) ∧
      (inner <+: names ∨ (∃ stem, Documented lib base names stem ∧ inner = names ++ [stem]) ∨
        inner = [("docs" : Text)]) := by
  have onWay : ∀ {inner : Place}, inner <+: names → inner.dropLast <+: names :=
    fun way => (List.dropLast_prefix _).trans way
  cases touched with
  | module documented own =>
    cases own with
    | page => exact ⟨names, _, by rw [List.append_assoc], .inl (List.prefix_refl _)⟩
    | member name => exact ⟨_, name, by rw [List.append_assoc], .inr (.inl ⟨_, documented, rfl⟩)⟩
    | above way => exact ⟨_, _, rfl, .inl (onWay way)⟩
  | closing closing =>
    cases closing with
    | directory => exact ⟨_, _, rfl, .inl (onWay (List.prefix_refl _))⟩
    | index => exact ⟨[], "index", rfl, .inl (List.nil_prefix)⟩
    | related name => exact ⟨_, name, rfl, .inr (.inr rfl)⟩

section
variable {site : Site} {settings : Settings} {lib : Place} {base : Tree} (prepared : Prepared site settings lib base)
  {front : Place} {last : Text} (held : base.get? (lib ++ (front ++ [last])) = some .directory)
  (kept : excludedDirectories.contains last = false)
include prepared held kept

theorem Prepared.word_of_held : Path.Word last :=
  prepared.regular.directory front last (by rwa [List.append_assoc]) kept

/-- Nothing is written below the pages of a directory that no visit comes to. -/
theorem Prepared.untouched (unvisited : ∀ names, Way settings names → ¬front ++ [last] <+: names) {place : Place}
    (below : top site ++ (front ++ [last]) <+: place) : ¬TouchedBelow site settings lib base [] place := by
  rintro ⟨names, way, touched⟩
  rw [List.nil_append] at way touched
  obtain ⟨inner, name, rfl, folder⟩ := touched.folder
  have leads : front ++ [last] <+: inner :=
    prefix_of_prefix_page (prepared.word_of_held held kept).dotless ((List.prefix_append_right_inj _).mp below)
  rcases folder with onWay | ⟨stem, documented, rfl⟩ | rfl
  · exact unvisited names way (leads.trans onWay)
  · rcases List.prefix_concat_iff.mp leads with same | inside
    · exact prepared.not_on_way held documented ⟨[], by rw [List.append_nil, same]⟩
    · exact unvisited names way inside
  · -- the folder of the related libraries is named like a directory that is never one of the library
    have last : front = [] ∧ last = "docs" := by
      rcases front with _ | ⟨first, front⟩
      · exact ⟨rfl, (List.cons_prefix_cons.mp leads).1⟩
      · exact absurd leads.length_le (by simp)
    rw [last.2] at kept
    exact absurd kept (by decide)

variable (skipped : (skippedDirectories settings).contains (Path.walked settings.library (front ++ [last])) = true)
include skipped

omit prepared held kept in
theorem unvisited_of_skipped {names : Place} (way : Way settings names) : ¬front ++ [last] <+: names := by
  rintro ⟨rest, rfl⟩
  have unskipped := (way.visited front last rest (by simp)).2
  rw [skipped] at unskipped
  cases unskipped

theorem Prepared.unwritten (visited : Visited settings front) (unindexed : front = [] → last ≠ "index") {after : Tree}
    {result : List Text × List Text} (run : (write settings settings.library).runOn site base = (.ok result, after))
    {place : Place} (own : top site ++ (front ++ [last]) <+: place ∨
      place = top site ++ front ++ [last ++ (".rst" : Text)]) {bytes : Bytes}
    (there : after.get? place = some (.file bytes)) : base.get? place = some (.file bytes) := by
  rw [runOn_write] at run
  have confined : Tree.Confined (top site) (TouchedBelow site settings lib base []) base after :=
    prepared.confined_writeUpTo (Way.nil settings) (.refl _ _ base) run
  have untouched : ¬TouchedBelow site settings lib base [] place := by
    rcases own with below | rfl
    · exact prepared.untouched held kept (fun names way => unvisited_of_skipped skipped way) below
    · rintro ⟨names, way, touched⟩
      exact unvisited_of_skipped skipped way (prepared.touched_directory held visited unindexed touched)
  rcases confined.each place with same | ⟨touched, _⟩ | ⟨_, new, _⟩
  · rwa [← same]
  · exact absurd touched untouched
  · rw [new] at there
    cases there

end

section
variable {site : Site} {settings : Settings} {lib : Place} {base : Tree} (prepared : Prepared site settings lib base)
include prepared

section
variable {front : Place} (reached : Reached settings lib base front)
include reached

theorem Prepared.word_of_listed {name : Text}
    (member : name ∈ listedNames (directoriesIn site settings lib base front)
      (modulesIn site settings lib base front)) :
    Path.Word name := by
  have located := prepared.locate_on_way reached (List.append_nil front).symm
  have start : Underway site base base := .refl _ _ base
  rcases List.mem_append.mp member with first | second
  · obtain ⟨path, inside, rfl⟩ := List.mem_map.mp first
    obtain ⟨name, rfl, named, word, _⟩ := prepared.directory_of_mem start start located reached.held inside
    rwa [Path.base_walked _ front named.noSlash]
  · obtain ⟨path, inside, rfl⟩ := List.mem_map.mp second
    obtain ⟨stem, rfl, documented⟩ := prepared.module_of_mem start inside
    have cut : upTo (stem ++ (".py" : Text)) (-3) = stem := (cut_ending stem (by decide)).1
    rw [Path.base_walked _ front (prepared.regular.named documented _ (by simp)).noSlash, cut]
    exact prepared.regular.stem front stem documented

variable {last : Text} (held : base.get? (lib ++ (front ++ [last])) = some .directory)
  (kept : excludedDirectories.contains last = false)
  (short : Path.size (Path.walked settings.library (front ++ [last])) ≤ Path.pathLimit)
include held kept short

theorem Prepared.mem_directoriesIn :
    Path.walked settings.library (front ++ [last]) ∈ directoriesIn site settings lib base front := by
  have named := prepared.regular.sound.named_of_mem (Option.isSome_iff_exists.mpr ⟨_, held⟩) last (by simp)
  have located := prepared.locate_on_way reached (List.append_nil front).symm
  rw [← List.append_assoc] at held
  rw [Path.walked_snoc] at short ⊢
  refine join_mem_innerDirectories prepared.placed named located held reached.held short ?_
  rwa [Path.base_join _ named.noSlash]

theorem Prepared.mem_directoryPages (keyed : Build.Keyed settings.orders) :
    last ++ (".rst" : Text) ∈
      directoryPages settings (directoriesIn site settings lib base front)
        (modulesIn site settings lib base front) := by
  have named := prepared.regular.sound.named_of_mem (Option.isSome_iff_exists.mpr ⟨_, held⟩) last (by simp)
  have free : ∀ name ∈ listedNames (directoriesIn site settings lib base front)
      (modulesIn site settings lib base front),
      ¬(".rst" : Text) <:+: name := fun name member inside =>
    (prepared.word_of_listed reached member).dotless (inside.subset List.mem_cons_self)
  refine (directoryPages_perm free keyed).mem_iff.mpr (List.mem_map_of_mem (List.mem_append_left _ ?_))
  rw [← Path.base_walked settings.library front named.noSlash]
  exact List.mem_map_of_mem (prepared.mem_directoriesIn reached held kept short)

end

omit prepared in
theorem replace_walked (settings : Settings) (front : Place) {last : Text} (word : Path.Word last) :
    replace ".py" "" (Path.base (Path.walked settings.library (front ++ [last]))) = last := by
  rw [Path.base_walked _ front word.slashless]
  exact (replace_absent (by decide) (fun inside => word.dotless (inside.subset List.mem_cons_self)) "").1

theorem Prepared.folder_found {depth : Nat} {result : List Text × List Text} {folders : List (Text × List Text)}
    {tree made lower filled closed after : Tree}
    (visit : Visit site settings lib depth [] result folders tree made lower filled closed after)
    (state : Underway site base tree) {name : Text} (reached : Reached settings lib base [name])
    (outside : Outside site (lib ++ [name])) :
    ∀ visited ∈ folders, visited.1 = Path.walked settings.library [name] →
      visited.2 = directoriesIn site settings lib base [name] ++ modulesIn site settings lib base [name] := by
  refine (visit.visits.all (Underway site base) (fun visited _ => visited.1 = Path.walked settings.library [name] →
    visited.2 = directoriesIn site settings lib base [name] ++ modulesIn site settings lib base [name])
    (visit.ready state) ?_ (List.pairwise_of_forall fun _ _ _ _ _ _ found => found)).2
  rintro visited member now next before ⟨found, run, items⟩
  have listed : visited.1 ∈ nextDirectories site settings lib [] tree made := visit.kept ▸ List.mem_map_of_mem member
  obtain ⟨_, _, confined⟩ := prepared.confined_visit (Way.nil settings) visit state listed before ⟨found, run⟩
  refine ⟨before.next confined fun _ touched => touched.inside, fun own => ?_⟩
  rw [own] at run
  cases depth with
  | zero => cases run
  | succ depth =>
    obtain ⟨_, _, _, _, _, inner⟩ := prepared.visit (prepared.way_of_reached reached) before run
    obtain ⟨directories, modules⟩ := prepared.visit_found reached outside inner before
    rw [items, inner.found, directories, modules]

/-- At the end the index has one section for each directory of the library that is not left out. -/
theorem Prepared.index_sections (heading : settings.heading = .byDirectory) {after : Tree}
    {result : List Text × List Text} (run : (write settings settings.library).runOn site base = (.ok result, after)) :
    ∃ head related folders, after.get? (top site ++ [("index.rst" : Text)]) =
        some (.file (Utf8.bytesOf (head ++ Toctree.render none (Table.put "docs" related (sections folders))))) ∧
      (∀ visited ∈ folders, ∃ name, visited.1 = Path.walked settings.library [name] ∧ Way settings [name]) ∧
      ∀ name, Reached settings lib base [name] → Outside site (lib ++ [name]) →
        Path.walked settings.library [name] ∈ folders.map Prod.fst ∧
          ∀ visited ∈ folders, visited.1 = Path.walked settings.library [name] →
            visited.2 = directoriesIn site settings lib base [name] ++ modulesIn site settings lib base [name] := by
  have start : Underway site base base := .refl _ _ base
  have way := Way.nil settings
  -- the fuel exceeds the height of the tree, so there is a level to be spent on the library
  obtain ⟨depth, fuel⟩ : ∃ depth, 2 * (base.height + 4) = depth + 1 := ⟨2 * base.height + 7, by omega⟩
  rw [runOn_write, fuel] at run
  obtain ⟨folders, made, lower, filled, closed, visit⟩ := prepared.visit way start run
  have reachedLower := prepared.underway_lower way visit start
  have reachedFilled := reachedLower.next (prepared.confined_modules way visit start reachedLower)
    fun _ ⟨_, _, own⟩ => own.inside
  have page := (runOn_writeDirectory_ok prepared.placed prepared.free prepared.regular way.words
    way.named visit.closing).1
  have reachedClosed := reachedFilled.next page fun _ closing => closing.inside
  obtain ⟨_, index⟩ := visit.ending.resolve_left fun ⟨proper, _⟩ => proper rfl
  rw [if_pos heading] at index
  obtain ⟨head, related, written⟩ := index_by_directory prepared.placed prepared.free prepared.related
    reachedClosed heading index
  refine ⟨head, related, folders, written, fun visited member => ?_, fun name reached outside => ⟨?_, ?_⟩⟩
  · exact prepared.directory_of_next way visit start (visit.kept ▸ List.mem_map_of_mem member)
  · have here : Reached settings lib base ([] ++ name :: []) := reached
    rw [visit.kept]
    exact prepared.mem_nextDirectories here start visit.making.keeps
      (Site.locate_keeps visit.making.keeps visit.located)
  · exact prepared.folder_found visit start reached outside

end

section
variable {folders : Toctree} {name : Text} (unrelated : name ≠ "docs") (related : List Text)
include unrelated

theorem get?_sections :
    Table.get? name (Table.put ("docs" : Text) related (sections folders)) = Table.get? name (sections folders) := by
  rw [Table.get?_put, if_neg (Ne.symm unrelated)]

theorem exists_section {page : Text} (there : ∃ visited ∈ folders, Path.base visited.1 = name)
    (each : ∀ visited ∈ folders, Path.base visited.1 = name →
      page ∈ visited.2.map fun item => replace ".py" "" (Path.base item) ++ (".rst" : Text)) :
    ∃ pages, (name, pages) ∈ Table.put ("docs" : Text) related (sections folders) ∧ page ∈ pages := by
  have present : (Table.get? name (sections folders)).isSome = true := by
    obtain ⟨visited, member, own⟩ := there
    refine Table.isSome_get?_ofList ?_
    rw [List.map_map, ← own]
    exact List.mem_map_of_mem member
  obtain ⟨pages, found⟩ := Option.isSome_iff_exists.mp present
  refine ⟨pages, Table.mem_of_get? ((get?_sections unrelated related).trans found), ?_⟩
  refine Table.holds_of_get?_ofList (fun key pages => key = name → page ∈ pages) (fun entry member own => ?_) found rfl
  obtain ⟨visited, inside, rfl⟩ := List.mem_map.mp member
  exact each visited inside own

theorem no_section (absent : ∀ visited ∈ folders, Path.base visited.1 ≠ name) (pages : List Text) :
    (name, pages) ∉ Table.put ("docs" : Text) related (sections folders) := by
  intro member
  have present : (Table.get? name (Table.put ("docs" : Text) related (sections folders))).isSome = true :=
    Table.isSome_get?.mpr (List.mem_map_of_mem member)
  obtain ⟨found, there⟩ := Option.isSome_iff_exists.mp present
  rw [get?_sections unrelated related] at there
  refine Table.holds_of_get?_ofList (fun key _ => key ≠ name) (fun entry listed => ?_) there rfl
  obtain ⟨visited, inside, rfl⟩ := List.mem_map.mp listed
  exact absent visited inside

end

section
variable {site : Site} {settings : Settings} {lib : Place} {base : Tree} (prepared : Prepared site settings lib base)
  (heading : settings.heading = .byDirectory) {front : Place} (reached : Reached settings lib base front)
  (outside : Outside site (lib ++ front)) {last : Text} (held : base.get? (lib ++ (front ++ [last])) = some .directory)
  (kept : excludedDirectories.contains last = false)
  (short : Path.size (Path.walked settings.library (front ++ [last])) ≤ Path.pathLimit)
  (skipped : (skippedDirectories settings).contains (Path.walked settings.library (front ++ [last])) = true)
  {after : Tree} {result : List Text × List Text} (run : (write settings settings.library).runOn site base =
    (.ok result, after))
include prepared heading reached outside held kept short skipped run

/-- The index has no section for a directory of the library that is left out, but lists one that is left out further
down in the section of the directory above. -/
theorem Prepared.index_of_skipped :
    ∃ head toctree, after.get? (top site ++ [("index.rst" : Text)]) =
        some (.file (Utf8.bytesOf (head ++ Toctree.render none toctree))) ∧
      (front = [] → ∀ pages, (last, pages) ∉ toctree) ∧
      ∀ name, front = [name] → ∃ pages, (name, pages) ∈ toctree ∧ last ++ (".rst" : Text) ∈ pages := by
  obtain ⟨head, related, folders, written, visits, found⟩ := prepared.index_sections heading run
  -- sections are titled by the last names of visited folders, so a title gives the folder away
  have own : ∀ visited ∈ folders, ∀ name, Path.base visited.1 = name →
      visited.1 = Path.walked settings.library [name] ∧ Way settings [name] := by
    rintro visited member name rfl
    obtain ⟨other, path, way⟩ := visits visited member
    rw [path, show [other] = [] ++ [other] from rfl, Path.base_walked _ [] (way.named other (by simp)).noSlash]
    exact ⟨rfl, way⟩
  refine ⟨head, _, written, ?_, ?_⟩
  · rintro rfl pages
    have unrelated : last ≠ "docs" := by
      rintro rfl
      exact absurd kept (by decide)
    refine no_section unrelated related (fun visited member same => ?_) pages
    exact unvisited_of_skipped skipped (own visited member last same).2 (List.prefix_refl _)
  · rintro name rfl
    have way := prepared.way_of_reached reached
    have unrelated : name ≠ "docs" := by
      rintro rfl
      exact way.visited.ne_docs rfl
    obtain ⟨there, items⟩ := found name reached outside
    refine exists_section unrelated related ?_ fun visited member same => ?_
    · obtain ⟨visited, member, path⟩ := List.mem_map.mp there
      refine ⟨visited, member, ?_⟩
      rw [path]
      exact Path.base_walked _ [] (way.named name (by simp)).noSlash
    · rw [items visited member (own visited member name same).1]
      have listed := List.mem_map_of_mem (f := fun item => replace ".py" "" (Path.base item) ++ (".rst" : Text))
        (List.mem_append_left (modulesIn site settings lib base [name])
          (prepared.mem_directoriesIn reached held kept short))
      rwa [replace_walked settings [name] (prepared.word_of_held held kept)] at listed

end

/-- No file is written for a directory that is left out or for anything below it, and a directory of the library that is
left out has no section in the index. But the page of the directory above lists it, and so does the section of the
directory above in the index. -/
theorem skipped_unwritten_but_listed {site : Site} {settings : Settings} {lib : Place} {base : Tree}
    (prepared : Prepared site settings lib base) (keyed : Build.Keyed settings.orders) {front : Place}
    (reached : Reached settings lib base front) (outside : Outside site (lib ++ front)) {last : Text}
    (held : base.get? (lib ++ (front ++ [last])) = some .directory) (kept : excludedDirectories.contains last = false)
    (short : Path.size (Path.walked settings.library (front ++ [last])) ≤ Path.pathLimit)
    (skipped : (skippedDirectories settings).contains (Path.walked settings.library (front ++ [last])) = true)
    (unindexed : front = [] → last ≠ "index") {after : Tree} {result : List Text × List Text}
    (run : (write settings settings.library).runOn site base = (.ok result, after)) :
    (∀ place bytes, (top site ++ (front ++ [last]) <+: place ∨ place = top site ++ front ++ [last ++ (".rst" : Text)]) →
      after.get? place = some (.file bytes) → base.get? place = some (.file bytes)) ∧
    (front ≠ [] → front ≠ [("index" : Text)] → (base.get? (lib ++ front ++ [("README.rst" : Text)])).isSome = true →
      ∃ readme pages, after.get? (top site ++ pageNames front) =
          some (.file (Utf8.bytesOf (readme ++ Toctree.render none [(front.getLastD [], pages)]))) ∧
        last ++ (".rst" : Text) ∈ pages) ∧
    (settings.heading = .byDirectory → ∃ head toctree, after.get? (top site ++ [("index.rst" : Text)]) =
        some (.file (Utf8.bytesOf (head ++ Toctree.render none toctree))) ∧
      (front = [] → ∀ pages, (last, pages) ∉ toctree) ∧
      ∀ name, front = [name] → ∃ pages, (name, pages) ∈ toctree ∧ last ++ (".rst" : Text) ∈ pages) := by
  refine ⟨fun place bytes own there => ?_, fun below apart readme => ?_, fun heading => ?_⟩
  · exact prepared.unwritten held kept skipped reached.visited unindexed run own there
  · obtain ⟨text, _, page⟩ := prepared.directory_page reached below outside readme apart run
    exact ⟨text, _, page, prepared.mem_directoryPages reached held kept short keyed⟩
  · exact prepared.index_of_skipped heading reached outside held kept short skipped run

theorem skipped_unwritten_but_listed_sample :
    (∀ bytes, sampleAfter.get? ["docs", "autogenerated_source", "a", "b", "n.rst"] ≠ some (.file bytes)) ∧
      (∃ readme pages, sampleAfter.get? ["docs", "autogenerated_source", "a.rst"] =
        some (.file (Utf8.bytesOf (readme ++ Toctree.render none [("a", pages)]))) ∧
          ("b" : Text) ++ (".rst" : Text) ∈ pages) ∧
      ∃ head toctree, sampleAfter.get? ["docs", "autogenerated_source", "index.rst"] =
          some (.file (Utf8.bytesOf (head ++ Toctree.render none toctree))) ∧
        ∃ pages, (("a" : Text), pages) ∈ toctree ∧ ("b" : Text) ++ (".rst" : Text) ∈ pages := by
  have keyed : Build.Keyed sampleSettings.orders := fun key order found => nomatch found
  have outside : Outside sampleSite ([("lib" : Text)] ++ [("a" : Text)]) := by
    rintro name ⟨rest, eq⟩
    have first : some ("docs" : Text) = some "lib" := congrArg List.head? eq
    exact absurd first (by decide)
  have held : sampleTree.get? ([("lib" : Text)] ++ ([("a" : Text)] ++ [("b" : Text)])) = some .directory := by
    decide +kernel
  have vacant : sampleTree.get? ["docs", "autogenerated_source", "a", "b", "n.rst"] = none := by decide +kernel
  obtain ⟨unwritten, listed, index⟩ := skipped_unwritten_but_listed prepared_sample keyed reached_sample
    outside held (by decide)
    (by decide +kernel) (by decide +kernel) (by decide) runOn_sample
  refine ⟨fun bytes there => ?_, listed (by decide) (by decide) (by decide +kernel), ?_⟩
  · have before := unwritten _ bytes (.inl ⟨[("n.rst" : Text)], rfl⟩) there
    cases vacant.symm.trans before
  · obtain ⟨head, toctree, written, _, sections⟩ := index rfl
    exact ⟨head, toctree, written, sections "a" rfl⟩

end ApiDocs.Pages
