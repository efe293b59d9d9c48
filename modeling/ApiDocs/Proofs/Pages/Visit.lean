import ApiDocs.Proofs.Pages.Touched

/-! Visits of directories. A visit writes in its own directory's pages and below, so a page that only the visit of one
directory and those below it write is at the end what that visit has made of it. -/

set_option autoImplicit false

namespace ApiDocs.Pages
open Script Text ApiDocs.Module

theorem runOn_visit_ok {site : Site} {settings : Settings} {depth : Nat} {inner : Text} {now next : Tree}
    {found : Text × List Text} (run : (do
      let (directories, modules) ← writeUpTo settings depth inner
      return (inner, directories ++ modules) : Script (Text × List Text)).runOn site now = (.ok found, next)) :
    ∃ result, (writeUpTo settings depth inner).runOn site now = (.ok result, next) ∧
      found = (inner, result.1 ++ result.2) := by
  obtain ⟨result, _, visit, done⟩ := runOn_bind_ok run
  cases done
  exact ⟨result, visit, rfl⟩

theorem runOn_writeUpTo_steps {site : Site} {settings : Settings} {depth : Nat} {directory : Text} {tree after : Tree}
    {result : List Text × List Text}
    (run : (writeUpTo settings (depth + 1) directory).runOn site tree = (.ok result, after)) :
    ∃ place made folders lower filled closed, site.locate tree directory = .ok place ∧
      tree.get? place = some .directory ∧
      (makeDirectories (Path.directory (Path.join folder ((locate settings directory).relative directory))) true).runOn
        site tree = (.ok (), made) ∧
      result = (innerDirectories site made (entryPaths site tree directory place),
        (entryPaths site tree directory place).filter isModule) ∧
      folders.map Prod.fst = result.1.filter (!(skippedDirectories settings).contains ·) ∧
      Rounds (fun visited now next => ∃ found, (writeUpTo settings depth visited.1).runOn site now = (.ok found, next) ∧
        visited.2 = found.1 ++ found.2) folders made lower ∧
      Rounds (fun path now next => ∃ previous final,
          (writeModule settings (locate settings directory) (frameworksFor settings directory) previous path).runOn
            site now = (.ok final, next)) result.2 lower filled ∧
      (writeDirectory settings directory (Path.join folder ((locate settings directory).relative directory))
        (sort (site.arrange place (tree.names place))) result.1 result.2).runOn site filled = (.ok (), closed) ∧
      (directory ≠ settings.library ∧ after = closed ∨ directory = settings.library ∧
        (writeIndex settings (if settings.heading = .byDirectory then folders else [([], result.2)])).runOn
          site closed = (.ok (), after)) := by
  unfold writeUpTo at run
  obtain ⟨names, _, look, run⟩ := runOn_bind_ok run
  obtain ⟨unchanged, place, located, held, rfl⟩ := runOn_names_ok look
  rw [unchanged] at run
  obtain ⟨_, made, making, run⟩ := runOn_bind_ok run
  obtain ⟨directories, known, run⟩ := runOn_bind_look (runOn_directories site made _) run
  cases known
  obtain ⟨folders, lower, visits, run⟩ := runOn_bind_ok run
  obtain ⟨final, filled, modules, run⟩ := runOn_bind_ok run
  obtain ⟨_, closed, closing, run⟩ := runOn_bind_ok run
  -- a visit returns the folder with what it found there, so the list of results names the visited ones
  obtain ⟨kept, rounds⟩ := rounds_mapM Prod.fst (fun inner now found next visit => by
    obtain ⟨_, _, rfl⟩ := runOn_visit_ok visit
    rfl) visits
  have each := rounds.imp fun found _ now next visit => by
    obtain ⟨result, visit, eq⟩ := runOn_visit_ok visit
    exact (⟨result, visit, congrArg Prod.snd eq⟩ : ∃ result, (writeUpTo settings depth found.1).runOn site now =
      (.ok result, next) ∧
      found.2 = result.1 ++ result.2)
  split at run
  · rename_i library
    obtain ⟨_, _, index, done⟩ := runOn_bind_ok run
    cases done
    exact ⟨place, made, folders, lower, filled, closed, located, held, making, rfl, kept, each, rounds_foldlM modules,
      closing, .inr ⟨library, index⟩⟩
  · rename_i elsewhere
    cases run
    exact ⟨place, made, folders, lower, filled, after, located, held, making, rfl, kept, each, rounds_foldlM modules,
      closing, .inl ⟨elsewhere, rfl⟩⟩

/-- A workspace with a library that can be documented. -/
structure Prepared (site : Site) (settings : Settings) (lib : Place) (base : Tree) : Prop where
  placed : site.Sound
  free : site.root ≠ folder
  regular : Regular settings lib base
  located : site.locate base settings.library = .ok lib
  related : Related site settings base

/-- Names of directories that lead below the library, none of which is left out. -/
structure Way (settings : Settings) (names : Place) : Prop where
  named : ∀ name ∈ names, Path.Named name
  words : ∀ name ∈ names, Path.Word name
  visited : Visited settings names

theorem Way.nil (settings : Settings) : Way settings [] :=
  ⟨fun _ member => absurd member List.not_mem_nil, fun _ member => absurd member List.not_mem_nil, visited_nil settings⟩

theorem Way.snoc {settings : Settings} {names : Place} (way : Way settings names) {name : Text}
    (named : Path.Named name) (word : Path.Word name)
    (kept : excludedDirectories.contains (Path.base (Path.walked settings.library (names ++ [name]))) = false)
    (unskipped : (skippedDirectories settings).contains (Path.walked settings.library (names ++ [name])) = false) :
    Way settings (names ++ [name]) :=
  ⟨List.forall_mem_append.mpr ⟨way.named, List.forall_mem_singleton.mpr named⟩,
    List.forall_mem_append.mpr ⟨way.words, List.forall_mem_singleton.mpr word⟩, way.visited.snoc kept unskipped⟩

theorem Way.front {settings : Settings} {names rest : Place} (way : Way settings (names ++ rest)) :
    Way settings names :=
  ⟨fun name member => way.named name (List.mem_append_left _ member),
    fun name member => way.words name (List.mem_append_left _ member), way.visited.front⟩

section
variable {site : Site} {settings : Settings} {lib : Place} {base : Tree} (prepared : Prepared site settings lib base)
  {names : Place} (way : Way settings names) {tree made after : Tree}
include prepared

theorem Prepared.word_of_directory (state : Underway site base tree) {front : Place} {name : Text}
    (held : tree.get? (lib ++ front ++ [name]) = some .directory) (kept : excludedDirectories.contains name = false) :
    Path.Word name := by
  rcases state.each (lib ++ front ++ [name]) with same | ⟨_, _, bytes, file⟩ | ⟨_, _, _, last, ends, word⟩
  · exact prepared.regular.directory front name (same ▸ held) kept
  · rw [file] at held
    cases held
  · rw [List.getLast?_concat] at ends
    cases ends
    exact word

theorem Prepared.module_of_mem (state : Underway site base tree) {path : Text}
    (member : path ∈ (entryPaths site tree (Path.walked settings.library names) (lib ++ names)).filter isModule) :
    ∃ stem, path = Path.walked settings.library (names ++ [stem ++ (".py" : Text)]) ∧
      Documented lib base names stem := by
  obtain ⟨listed, module⟩ := List.mem_filter.mp member
  obtain ⟨name, present, rfl⟩ := mem_entryPaths.mp listed
  have named := (state.sound prepared.regular.sound).named _ name present
  obtain ⟨stem, rfl, kept⟩ := (isModule_join_iff _ named.noSlash).mp module
  rw [state.module] at present
  exact ⟨stem, (Path.walked_snoc _ _ _).symm, present, kept⟩

theorem Prepared.directory_of_mem (state : Underway site base tree) (next : Underway site base made)
    (located : site.locate made (Path.walked settings.library names) = .ok (lib ++ names))
    (above : made.get? (lib ++ names) = some .directory) {path : Text}
    (member : path ∈ innerDirectories site made
      (entryPaths site tree (Path.walked settings.library names) (lib ++ names))) :
    ∃ name, path = Path.walked settings.library (names ++ [name]) ∧ Path.Named name ∧ Path.Word name ∧
      excludedDirectories.contains (Path.base path) = false := by
  obtain ⟨name, present, rfl⟩ := mem_entryPaths.mp (List.mem_of_mem_filter member)
  have named := (state.sound prepared.regular.sound).named _ name present
  obtain ⟨_, ⟨held, _⟩, kept⟩ := (join_mem_innerDirectories_iff prepared.placed named located above).mp member
  refine ⟨name, (Path.walked_snoc _ _ _).symm, named, prepared.word_of_directory next held ?_, kept⟩
  rwa [Path.base_join _ named.noSlash] at kept

include way in
theorem Prepared.place (state : Underway site base tree) {place : Place}
    (located : site.locate tree (Path.walked settings.library names) = .ok place) : place = lib ++ names :=
  Site.locate_walked prepared.placed way.named (Site.locate_keeps state.keeps prepared.located) located

def nextDirectories (site : Site) (settings : Settings) (lib names : Place) (tree made : Tree) : List Text :=
  (innerDirectories site made (entryPaths site tree (Path.walked settings.library names) (lib ++ names))).filter
    (!(skippedDirectories settings).contains ·)

/-- The stages of the visit of a directory below the library, with what it gives and what the visits below it give. -/
structure Visit (site : Site) (settings : Settings) (lib : Place) (depth : Nat) (names : Place)
    (result : List Text × List Text) (folders : List (Text × List Text))
      (tree made lower filled closed after : Tree) : Prop where
  above : tree.get? (lib ++ names) = some .directory
  located : site.locate tree (Path.walked settings.library names) = .ok (lib ++ names)
  making : Tree.Confined (top site) (fun _ => False) tree made
  found : result = (innerDirectories site made
    (entryPaths site tree (Path.walked settings.library names) (lib ++ names)),
    (entryPaths site tree (Path.walked settings.library names) (lib ++ names)).filter isModule)
  kept : folders.map Prod.fst = nextDirectories site settings lib names tree made
  visits : Rounds (fun visited now next => ∃ found, (writeUpTo settings depth visited.1).runOn site now =
    (.ok found, next) ∧
    visited.2 = found.1 ++ found.2) folders made lower
  modules : Rounds (fun path now next => ∃ previous final,
      (writeModule settings (locate settings (Path.walked settings.library names))
        (frameworksFor settings (Path.walked settings.library names)) previous path).runOn site now = (.ok final, next))
    ((entryPaths site tree (Path.walked settings.library names) (lib ++ names)).filter isModule) lower filled
  closing : (writeDirectory settings (Path.walked settings.library names)
    (Path.join folder ((locate settings (Path.walked settings.library names)).relative
      (Path.walked settings.library names)))
    (sort (site.arrange (lib ++ names) (tree.names (lib ++ names))))
    (innerDirectories site made (entryPaths site tree (Path.walked settings.library names) (lib ++ names)))
    ((entryPaths site tree (Path.walked settings.library names) (lib ++ names)).filter isModule)).runOn site filled =
      (.ok (), closed)
  ending : names ≠ [] ∧ after = closed ∨ names = [] ∧
    (writeIndex settings (if settings.heading = .byDirectory then folders else [([], result.2)])).runOn site closed =
      (.ok (), after)

omit prepared in
theorem Visit.rounds {depth : Nat} {result : List Text × List Text} {folders : List (Text × List Text)}
    {lower filled closed : Tree} (visit : Visit site settings lib depth names result folders tree made lower
      filled closed after) :
    Rounds (fun inner now next => ∃ found, (writeUpTo settings depth inner).runOn site now = (.ok found, next))
      (nextDirectories site settings lib names tree made) made lower := by
  rw [← visit.kept]
  exact visit.visits.map fun visited _ now next ⟨found, visit, _⟩ => ⟨found, visit⟩

include prepared way

theorem Prepared.visit (state : Underway site base tree) {depth : Nat} {result : List Text × List Text}
    (run : (writeUpTo settings (depth + 1) (Path.walked settings.library names)).runOn site tree =
      (.ok result, after)) :
    ∃ folders made lower filled closed, Visit site settings lib depth names result folders tree made lower filled
      closed after := by
  obtain ⟨place, made, folders, lower, filled, closed, located, above, making, rfl, kept, visits, modules, closing,
      ending⟩ :=
    runOn_writeUpTo_steps run
  obtain rfl := prepared.place way state located
  have single : ∀ name ∈ names, Path.Single name := fun name member => (way.words name member).single
  rw [prepared.regular.rooted.relative_walked way.named way.named, directory_save single] at making
  refine ⟨folders, made, lower, filled, closed, above, located, ?_, rfl, kept, visits, modules, closing, ?_⟩
  · exact confined_makePages prepared.placed prepared.free
      (fun name member => way.words name (List.mem_of_mem_dropLast member)) making
  · obtain ⟨proper, bare⟩ := Path.open_of_base prepared.regular.rooted.proper
    have library : Path.walked settings.library names = settings.library ↔ names = [] := by
      rw [Path.walked_eq proper bare way.named]
      cases names with
      | nil => simp
      | cons name names => simp
    rwa [Ne, library] at ending

omit way prepared in
theorem Visit.ready {depth : Nat} {result : List Text × List Text} {folders : List (Text × List Text)}
    {lower filled closed : Tree} (visit : Visit site settings lib depth names result folders tree made lower filled
      closed after) (state : Underway site base tree) :
    Underway site base made :=
  state.next visit.making fun _ impossible => impossible.elim

theorem Prepared.directory_of_next {depth : Nat} {result : List Text × List Text} {folders : List (Text × List Text)}
    {lower filled closed : Tree} (visit : Visit site settings lib depth names result folders tree made lower
      filled closed after)
    (state : Underway site base tree)
    {path : Text} (member : path ∈ nextDirectories site settings lib names tree made) :
    ∃ name, path = Path.walked settings.library (names ++ [name]) ∧ Way settings (names ++ [name]) := by
  obtain ⟨listed, unskipped⟩ := List.mem_filter.mp member
  obtain ⟨name, rfl, named, word, kept⟩ := prepared.directory_of_mem state (visit.ready state)
    (Site.locate_keeps visit.making.keeps visit.located) (visit.making.keeps _ visit.above) listed
  exact ⟨name, rfl, way.snoc named word kept (by simpa using unskipped)⟩

end

section
variable {site : Site} {settings : Settings} {lib : Place} {base : Tree} (prepared : Prepared site settings lib base)
include prepared

theorem Prepared.confined_module {names : Place} (way : Way settings names) {tree now next : Tree}
    (listed : Underway site base tree) (state : Underway site base now) {path : Text}
    (member : path ∈ (entryPaths site tree (Path.walked settings.library names) (lib ++ names)).filter isModule)
    {previous result : Option Target}
    (run : (writeModule settings (locate settings (Path.walked settings.library names))
      (frameworksFor settings (Path.walked settings.library names)) previous path).runOn site now =
        (.ok result, next)) :
    ∃ stem, path = Path.walked settings.library (names ++ [stem ++ (".py" : Text)]) ∧ Documented lib base names stem ∧
      Tree.Confined (top site) (Own site names stem) now next := by
  obtain ⟨stem, rfl, documented⟩ := prepared.module_of_mem listed member
  exact ⟨stem, rfl, documented, (runOn_writeModule_ok prepared.placed prepared.free prepared.regular
    way.words documented
    prepared.located state run).1⟩

section
variable {names : Place} (way : Way settings names) {depth : Nat} {result : List Text × List Text}
    {folders : List (Text × List Text)}
  {tree made lower filled closed after : Tree}
    (visit : Visit site settings lib depth names result folders tree made lower filled closed after)
include way visit

theorem Prepared.confined_modules (listed : Underway site base tree) (state : Underway site base lower) :
    Tree.Confined (top site) (fun place => ∃ stem, Documented lib base names stem ∧
      Own site names stem place) lower filled := by
  refine visit.modules.confined fun path member now next before step => ?_
  obtain ⟨previous, result, step⟩ := step
  have reached := state.next before fun _ ⟨_, _, own⟩ => own.inside
  obtain ⟨stem, _, documented, own⟩ := prepared.confined_module way listed reached member step
  exact own.mono fun place own => ⟨stem, documented, own⟩

theorem Prepared.confined_closing (state : Underway site base filled) :
    Tree.Confined (top site) (Closing site names) filled after := by
  have page : Tree.Confined (top site) (Closing site names) filled closed :=
    (runOn_writeDirectory_ok prepared.placed prepared.free prepared.regular way.words way.named visit.closing).1
  rcases visit.ending with ⟨_, rfl⟩ | ⟨rfl, index⟩
  · exact page
  · have reached := state.next page fun _ closing => closing.inside
    exact page.trans (confined_writeIndex prepared.placed prepared.free prepared.related reached index)

theorem Prepared.confined_own (listed : Underway site base tree) (state : Underway site base lower) :
    Tree.Confined (top site) (Touched site lib base names) lower after := by
  have modules := prepared.confined_modules way visit listed state
  have closing := prepared.confined_closing way visit (state.next modules fun _ ⟨_, _, own⟩ => own.inside)
  exact .trans (modules.mono fun _ ⟨_, documented, own⟩ => .module documented own)
    (closing.mono fun _ last => .closing last)

end

def TouchedBelow (site : Site) (settings : Settings) (lib : Place) (base : Tree) (names place : Place) : Prop :=
  ∃ deeper, Way settings (names ++ deeper) ∧ Touched site lib base (names ++ deeper) place

omit prepared in
theorem TouchedBelow.inside {names place : Place} (touched : TouchedBelow site settings lib base names place) :
    Inside site place := by
  obtain ⟨_, _, touched⟩ := touched
  exact touched.inside

/-- A visit writes in the pages of its directory and below. -/
theorem Prepared.confined_writeUpTo {depth : Nat} : ∀ {names : Place}, Way settings names → ∀ {tree after : Tree},
    Underway site base tree → ∀ {result : List Text × List Text},
      (writeUpTo settings depth (Path.walked settings.library names)).runOn site tree = (.ok result, after) →
        Tree.Confined (top site) (TouchedBelow site settings lib base names) tree after := by
  induction depth with
  | zero =>
    intro names way tree after state result run
    cases run
  | succ depth ih =>
    intro names way tree after state result run
    obtain ⟨folders, made, lower, filled, closed, visit⟩ := prepared.visit way state run
    -- a visit stays inside the folder of pages, so the library is read as before by the next one
    have inside : ∀ place, TouchedBelow site settings lib base names place → Inside site place :=
      fun _ touched => touched.inside
    have ready := visit.ready state
    have visits : Tree.Confined (top site) (TouchedBelow site settings lib base names) made lower := by
      refine visit.rounds.confined fun inner member now next before ⟨result, step⟩ => ?_
      obtain ⟨name, rfl, further⟩ := prepared.directory_of_next way visit state member
      refine (ih further (ready.next before inside) step).mono fun place ⟨deeper, on, touched⟩ => ?_
      exact ⟨name :: deeper, by simpa using on, by simpa using touched⟩
    have own := prepared.confined_own way visit state (ready.next visits inside)
    refine .trans (visit.making.mono fun _ impossible => impossible.elim)
      (visits.trans (own.mono fun place touched => ?_))
    exact ⟨[], by rwa [List.append_nil], by rwa [List.append_nil]⟩

section
variable {names : Place} (way : Way settings names) {depth : Nat} {result : List Text × List Text}
    {folders : List (Text × List Text)}
  {tree made lower filled closed after : Tree}
    (visit : Visit site settings lib depth names result folders tree made lower filled closed after)
      (state : Underway site base tree)
include way visit state

theorem Prepared.confined_visit {inner : Text} (member : inner ∈ nextDirectories site settings lib names tree made)
    {now next : Tree} (before : Underway site base now)
    (step : ∃ result, (writeUpTo settings depth inner).runOn site now = (.ok result, next)) :
    ∃ other, inner = Path.walked settings.library (names ++ [other]) ∧
      Tree.Confined (top site) (TouchedBelow site settings lib base (names ++ [other])) now next := by
  obtain ⟨result, step⟩ := step
  obtain ⟨other, rfl, further⟩ := prepared.directory_of_next way visit state member
  exact ⟨other, rfl, prepared.confined_writeUpTo further before step⟩

theorem Prepared.underway_lower : Underway site base lower := by
  refine visit.rounds.keeps (Underway site base) (visit.ready state) fun inner member now next before step => ?_
  obtain ⟨_, _, confined⟩ := prepared.confined_visit way visit state member before step
  exact before.next confined fun _ touched => touched.inside

end

/-- A directory that is visited: it is there, none on the way to it is left out, and its path is not too long. -/
structure Reached (settings : Settings) (lib : Place) (base : Tree) (goal : Place) : Prop where
  held : base.get? (lib ++ goal) = some .directory
  visited : Visited settings goal
  short : Path.size (Path.walked settings.library goal) ≤ Path.pathLimit

theorem Prepared.held_on_way {goal front : Place} (reached : Reached settings lib base goal) (leads : front <+: goal) :
    base.get? (lib ++ front) = some .directory := by
  obtain ⟨rest, rfl⟩ := leads
  by_cases whole : rest = []
  · have held := reached.held
    rwa [whole, List.append_nil] at held
  · refine prepared.regular.sound.above whole ?_
    rw [List.append_assoc]
    exact Option.isSome_iff_exists.mpr ⟨_, reached.held⟩

theorem Prepared.way_of_reached {goal : Place} (reached : Reached settings lib base goal) : Way settings goal := by
  have named := prepared.regular.sound.named_of_mem (Option.isSome_iff_exists.mpr ⟨_, reached.held⟩)
  refine ⟨named, fun name member => ?_, reached.visited⟩
  obtain ⟨front, rest, rfl⟩ := List.append_of_mem member
  have held := prepared.held_on_way reached ⟨rest, (List.append_cons front name rest).symm⟩
  have kept := (reached.visited front name rest rfl).1
  rw [Path.base_walked _ front (named name member).noSlash] at kept
  rw [← List.append_assoc] at held
  exact prepared.regular.directory front name held kept

theorem Prepared.mem_nextDirectories {names rest : Place} {name : Text}
    (reached : Reached settings lib base (names ++ name :: rest)) {tree made : Tree} (state : Underway site base tree)
    (making : tree.KeepsDirectories made)
    (located : site.locate made (Path.walked settings.library names) = .ok (lib ++ names)) :
    Path.walked settings.library (names ++ [name]) ∈ nextDirectories site settings lib names tree made := by
  have way := prepared.way_of_reached reached
  have named : Path.Named name := way.named name (List.mem_append_right _ List.mem_cons_self)
  have here := prepared.held_on_way reached ⟨rest, (List.append_cons names name rest).symm⟩
  have above := prepared.held_on_way reached ⟨name :: rest, rfl⟩
  obtain ⟨kept, unskipped⟩ := reached.visited names name rest rfl
  have short : Path.size (Path.walked settings.library (names ++ [name])) ≤ Path.pathLimit := by
    refine Nat.le_trans ?_ reached.short
    rw [List.append_cons names name rest, Path.walked_append settings.library (names ++ [name]) rest]
    exact Path.size_le_walked _ fun other member =>
      way.named other (List.mem_append_right _ (List.mem_cons_of_mem _ member))
  rw [← List.append_assoc] at here
  rw [Path.walked_snoc] at kept unskipped short ⊢
  have listed : Path.join (Path.walked settings.library names) name ∈
      entryPaths site tree (Path.walked settings.library names) (lib ++ names) :=
    mem_entryPaths.mpr ⟨name, Option.isSome_iff_exists.mpr ⟨_, state.keeps _ here⟩, rfl⟩
  refine List.mem_filter.mpr ⟨(join_mem_innerDirectories_iff prepared.placed named located ?_).mpr ⟨listed, ⟨?_, short⟩,
    kept⟩, ?_⟩
  · exact making _ (state.keeps _ above)
  · exact making _ (state.keeps _ here)
  · rw [unskipped]
    rfl

/-- What the visit of a directory brings about is there at the end if only this visit and those below it can undo it. -/
theorem Prepared.settles {done : Tree → Prop} {goal : Place} (reached : Reached settings lib base goal)
    (kept : ∀ tree after, Tree.Confined (top site)
      (fun place => ∃ names, ¬goal <+: names ∧ Way settings names ∧ Touched site lib base names place) tree after →
        done tree → done after)
    (makes : ∀ depth tree after result, Underway site base tree →
      (writeUpTo settings (depth + 1) (Path.walked settings.library goal)).runOn site tree = (.ok result, after) →
        done after)
    {rest : Place} : ∀ {names : Place}, goal = names ++ rest → ∀ {depth : Nat} {tree after : Tree}
      {result : List Text × List Text}, Underway site base tree →
        (writeUpTo settings depth (Path.walked settings.library names)).runOn site tree = (.ok result, after) →
          done after := by
  have whole := prepared.way_of_reached reached
  induction rest with
  | nil =>
    intro names eq depth tree after result state run
    rw [List.append_nil] at eq
    subst eq
    cases depth with
    | zero => cases run
    | succ depth => exact makes depth tree after result state run
  | cons name rest ih =>
    intro names eq depth tree after result state run
    cases depth with
    | zero => cases run
    | succ depth =>
      have way : Way settings names := Way.front (eq ▸ whole)
      obtain ⟨folders, made, lower, filled, closed, visit⟩ := prepared.visit way state run
      have ready := visit.ready state
      have lowerDone : done lower := by
        refine visit.rounds.settles (Underway site base) done
          (prepared.mem_nextDirectories (eq ▸ reached) state visit.making.keeps
            (Site.locate_keeps visit.making.keeps visit.located)) ready ?_ ?_ ?_
        · intro inner member now next before step
          obtain ⟨other, _, confined⟩ := prepared.confined_visit way visit state member before step
          exact before.next confined fun _ touched => touched.inside
        · intro now next before step
          obtain ⟨result, step⟩ := step
          exact ih (by rw [eq, List.append_assoc, List.singleton_append]) before step
        · -- the visits beside it do not come to the directory
          intro inner member differs now next before step
          obtain ⟨other, rfl, confined⟩ := prepared.confined_visit way visit state member before step
          refine kept now next (confined.mono fun place ⟨deeper, on, touched⟩ => ⟨_, fun leads => differs ?_, on,
            touched⟩)
          rw [eq, List.append_assoc, List.prefix_append_right_inj, List.singleton_append] at leads
          rw [(List.cons_prefix_cons.mp leads).1]
      refine kept lower after ((prepared.confined_own way visit state (prepared.underway_lower way visit state)).mono
        fun place touched => ⟨names, fun leads => ?_, way, touched⟩) lowerDone
      have length := leads.length_le
      rw [eq, List.length_append, List.length_cons] at length
      omega

end

end ApiDocs.Pages
