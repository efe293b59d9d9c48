import ApiDocs.Proofs.Instance.Filed
import ApiDocs.Proofs.Text.Order

/-! Methods merged into the page of a function. Every page of a method that belongs to the function adds its directive
to the function's page, directly below the function's own; the first one also leaves a copy of the page as it was.
What the page shows is an invariant over all pages of methods, those of other functions among them. -/

set_option autoImplicit false

namespace ApiDocs.Instance

open Script

/-- What merging one page comes to: it is passed over, or filed under the function's page. -/
theorem runOn_mergePage_ok {site : Site} {tree after : Tree} {type path stubs functional file : Text}
    {result : Option Text} (run : (mergePage type path stubs functional file).runOn site tree = (.ok result, after)) :
    ∃ lines, linesAt site tree (Path.join path file) = .ok lines ∧
      ((result = none ∧ after = tree ∧ ∀ line raw folder, lines.find? isDirective = some line →
          directiveName line = .ok raw → moduleOf stubs raw ∉ unmergedModules →
          site.find tree (Path.join functional (moduleOf stubs raw)) = .ok (folder, .directory) →
          baseName raw ++ (".rst" : Text) ∉ tree.names folder) ∨
        ∃ line raw folder, lines.find? isDirective = some line ∧ directiveName line = .ok raw ∧
          moduleOf stubs raw ∉ unmergedModules ∧
          site.find tree (Path.join functional (moduleOf stubs raw)) = .ok (folder, .directory) ∧
          (filePage type (Path.join functional (moduleOf stubs raw)) file raw line lines).runOn site tree =
            (.ok result, after)) := by
  rw [mergePage_eq] at run
  obtain ⟨lines, read, rest⟩ := runOn_bind_look (runOn_readLines _ _ _) run
  refine ⟨lines, read, ?_⟩
  cases first : lines.find? isDirective with
  | none =>
    rw [first] at rest
    cases rest
    exact .inl ⟨rfl, rfl, fun _ _ _ some => by cases some⟩
  | some line =>
    rw [first] at rest
    obtain ⟨raw, named, rest⟩ := runOn_bind_look (runOn_ofExcept_id _ _ _) rest
    -- the page is passed over for its module, for a folder that is missing, or for a page that is missing in the folder
    have passed : (moduleOf stubs raw ∉ unmergedModules → ∀ folder,
        site.find tree (Path.join functional (moduleOf stubs raw)) = .ok (folder, .directory) →
        baseName raw ++ (".rst" : Text) ∉ tree.names folder) →
        ∀ line' raw' folder, some line = some line' → directiveName line' = .ok raw' →
          moduleOf stubs raw' ∉ unmergedModules →
          site.find tree (Path.join functional (moduleOf stubs raw')) = .ok (folder, .directory) →
          baseName raw' ++ (".rst" : Text) ∉ tree.names folder := by
      intro closed line' raw' folder same named' outside there
      cases same
      cases named.symm.trans named'
      exact closed outside folder there
    by_cases unmerged : unmergedModules.contains (moduleOf stubs raw) = true
    · rw [if_pos unmerged] at rest
      cases rest
      exact .inl ⟨rfl, rfl, passed fun outside => absurd (List.contains_iff_mem.mp unmerged) outside⟩
    · rw [if_neg unmerged] at rest
      obtain ⟨answer, seen, rest⟩ := runOn_bind_look (runOn_present _ _ _) rest
      cases seen
      cases found : site.find tree (Path.join functional (moduleOf stubs raw)) with
      | error refusal =>
        rw [found] at rest
        cases rest
        exact .inl ⟨rfl, rfl, passed fun _ folder there => by rw [found] at there; cases there⟩
      | ok item =>
        rw [found] at rest
        obtain ⟨listed, _, listing, rest⟩ := runOn_bind_ok (show (names _ >>= _).runOn site tree = _ from rest)
        obtain ⟨unchanged, folder, located, inside, arranged⟩ := runOn_names_ok listing
        rw [unchanged] at rest
        have there := Site.find_eq_ok_iff.mpr ⟨located, inside⟩
        have member : baseName raw ++ (".rst" : Text) ∈ listed ↔
            baseName raw ++ (".rst" : Text) ∈ tree.names folder := by
          rw [arranged]
          exact (site.arrange_perm folder _).mem_iff
        by_cases among : listed.contains (baseName raw ++ (".rst" : Text)) = true
        · rw [if_neg (by simpa using among)] at rest
          exact .inr ⟨line, raw, folder, rfl, named, fun inside => unmerged (List.contains_iff_mem.mpr inside), there,
            rest⟩
        · rw [if_pos (by simpa using among)] at rest
          cases rest
          refine .inl ⟨rfl, rfl, passed fun _ folder' there' => ?_⟩
          cases there.symm.trans there'
          exact fun inside => among (List.contains_iff_mem.mpr (member.mpr inside))

theorem baseName_suffix (name : Text) : baseName name <:+ name := by
  unfold baseName
  have whole := Text.join_split (show ("_" : Text) ≠ [] by decide) name
  split
  · rename_i first rest pieces
    split
    · rw [pieces] at whole
      cases rest with
      | nil => exact List.nil_suffix
      | cons second rest => exact ⟨first ++ "_", whole⟩
    · exact List.suffix_refl _
  · exact List.suffix_refl _

theorem function_of_directive {text line raw : Text} (plain : text.Plain) (member : line ∈ Text.lines text)
    (named : directiveName line = .ok raw) (proper : baseName raw ≠ []) (slashless : .char '/' ∉ baseName raw) :
    Path.Word (baseName raw) := by
  obtain ⟨inside, dotless⟩ := directiveName_eq_ok named
  refine ⟨?_, proper, slashless, fun dot => dotless ((baseName_suffix raw).subset dot)⟩
  refine (plain.lines line member).of_subset fun c point => ?_
  exact Text.trim_subset _ _ (inside ((baseName_suffix raw).subset point))

theorem retitle_eq_ok {logos title : Text} {lines content : List Text} (free : .char '\n' ∉ title)
    (retitled : retitle logos title lines = .ok content) :
    content = (title ++ "\n") :: Text.rule title.length :: (lines.drop 2).map (Text.replace "/logos" logos) := by
  have bare : Text.trim '\n' (title ++ "\n") = title := Text.trim_append free
  unfold retitle at retitled
  rw [bare] at retitled
  rw [List.map_drop]
  split at retitled
  · rename_i first second rest mapped
    rw [mapped]
    exact (Except.ok.inj retitled).symm
  · cases retitled

/-- The lines of a function's page with the directives that methods have added, the latest first. -/
def withMethods (before : List Text) (line : Text) (rest added : List Text) : List Text :=
  before ++ line :: (added.reverse.flatMap fun added => [("\n" : Text), added]) ++ rest

theorem withMethods_nil (before : List Text) (line : Text) (rest : List Text) :
    withMethods before line rest [] = before ++ line :: rest := by
  simp [withMethods]

theorem wholeLine_withMethods {before rest added : List Text} {line : Text}
    (whole : ∀ other ∈ before ++ line :: rest, Text.WholeLine other) (ended : ∀ other ∈ added, Text.WholeLine other) :
    ∀ other ∈ withMethods before line rest added, Text.WholeLine other := by
  have blank : Text.WholeLine "\n" := ⟨[], List.not_mem_nil, List.not_mem_nil, rfl⟩
  intro other member
  simp only [withMethods, List.mem_append, List.mem_cons, List.mem_flatMap, List.mem_reverse, List.not_mem_nil,
    or_false] at member
  rcases member with (inside | rfl | ⟨next, inside, rfl | rfl⟩) | inside
  · exact whole other (by simp [inside])
  · exact whole other (by simp)
  · exact blank
  · exact ended other inside
  · exact whole other (by simp [inside])

theorem insertDirective_withMethods {before rest added merged : List Text} {line next : Text}
    (others : ∀ other ∈ before, isDirective other = false) (directive : isDirective line = true)
    (inserted : insertDirective next (withMethods before line rest added) = .ok merged) :
    merged.flatten = (withMethods before line rest (added ++ [next])).flatten := by
  have place : (withMethods before line rest added).findIdx? isDirective = some before.length := by
    have none : before.findIdx? isDirective = none := List.findIdx?_eq_none_iff.mpr others
    rw [withMethods, List.append_assoc, List.findIdx?_append, none, List.cons_append, List.findIdx?_cons, directive]
    simp
  rw [insertDirective, place] at inserted
  cases inserted
  rw [withMethods, withMethods, List.append_assoc]
  simp [List.take_append, List.drop_append, List.take_of_length_le, List.drop_of_length_le, Text.ofChars]

/-- The page that shows a function by itself: the function's page under its own title, a folder further down. -/
def functionalCopy (name : Text) (lines : List Text) : List Text :=
  ("ivy." ++ name ++ "\n") :: Text.rule (("ivy." : Text) ++ name).length :: (lines.drop 2).map
    (Text.replace "/logos" "/../logos")

/-- The directive that a method's page adds to the page of a function in a module's folder, if the method belongs
there. -/
def contribution (site : Site) (tree : Tree) (folder : Place) (name path stubs functional file : Text) : Option Text :=
  do
  let lines ← (linesAt site tree (Path.join path file)).toOption
  let line ← lines.find? isDirective
  let raw ← (directiveName line).toOption
  let module := moduleOf stubs raw
  if module ∉ unmergedModules ∧ (site.locate tree (Path.join functional module)).toOption = some folder ∧
    baseName raw = name then
    some line
  else none

theorem toOption_eq_some_iff {ε α : Type} {outcome : Except ε α} {value : α} :
    outcome.toOption = some value ↔ outcome = .ok value := by
  cases outcome <;> simp [Except.toOption]

theorem contribution_eq_some_iff {site : Site} {tree : Tree} {folder : Place}
    {name path stubs functional file line : Text} :
    contribution site tree folder name path stubs functional file = some line ↔
      ∃ lines raw, linesAt site tree (Path.join path file) = .ok lines ∧ lines.find? isDirective = some line ∧
        directiveName line = .ok raw ∧ moduleOf stubs raw ∉ unmergedModules ∧
        site.locate tree (Path.join functional (moduleOf stubs raw)) = .ok folder ∧ baseName raw = name := by
  simp only [contribution, Option.bind_eq_bind, Option.bind_eq_some_iff, toOption_eq_some_iff,
    Option.ite_none_right_eq_some, Option.some.injEq]
  constructor
  · rintro ⟨lines, read, line', first, raw, named, ⟨merged, located, same⟩, rfl⟩
    exact ⟨lines, raw, read, first, named, merged, located, same⟩
  · rintro ⟨lines, raw, read, first, named, merged, located, same⟩
    exact ⟨lines, read, line, first, raw, named, ⟨merged, located, same⟩, rfl⟩

theorem contribution_of_directive {site : Site} {tree : Tree} {folder : Place}
    {name path stubs functional file line raw other : Text} {lines : List Text}
    (read : linesAt site tree (Path.join path file) = .ok lines) (first : lines.find? isDirective = some line)
    (named : directiveName line = .ok raw) :
    contribution site tree folder name path stubs functional file = some other ↔
      other = line ∧ moduleOf stubs raw ∉ unmergedModules ∧
        site.locate tree (Path.join functional (moduleOf stubs raw)) = .ok folder ∧ baseName raw = name := by
  rw [contribution_eq_some_iff]
  constructor
  · rintro ⟨_, _, read', first', named', rest⟩
    cases read.symm.trans read'
    cases first.symm.trans first'
    cases named.symm.trans named'
    exact ⟨rfl, rest⟩
  · rintro ⟨rfl, rest⟩
    exact ⟨lines, raw, read, first, named, rest⟩

/-- A page of a method that can be merged: it lies outside the functions' pages, its directive has come to its end, and
the directive's module and function can name a folder and a page. -/
structure Mergeable (site : Site) (tree : Tree) (outer : Place) (path stubs file : Text) : Prop where
  slashless : .char '/' ∉ file
  outside : ∃ place bytes, site.find tree (Path.join path file) = .ok (place, .file bytes) ∧ ¬outer <+: place
  ended : ∀ lines line, linesAt site tree (Path.join path file) = .ok lines → lines.find? isDirective = some line →
    line.getLast? = some (.char '\n')
  named : ∀ lines line raw, linesAt site tree (Path.join path file) = .ok lines → lines.find? isDirective = some line →
    directiveName line = .ok raw →
      (moduleOf stubs raw ≠ [] ∧ .char '/' ∉ moduleOf stubs raw) ∧ baseName raw ≠ [] ∧ .char '/' ∉ baseName raw

structure Filable (site : Site) (tree : Tree) (outer : Place) (path stubs file : Text) : Prop where
  slashless : .char '/' ∉ file
  outside : ∃ place bytes, site.find tree (Path.join path file) = .ok (place, .file bytes) ∧ ¬outer <+: place
  named : ∀ lines line raw, linesAt site tree (Path.join path file) = .ok lines → lines.find? isDirective = some line →
    directiveName line = .ok raw →
      (moduleOf stubs raw ≠ [] ∧ .char '/' ∉ moduleOf stubs raw) ∧ baseName raw ≠ [] ∧ .char '/' ∉ baseName raw

theorem Mergeable.filable {site : Site} {tree : Tree} {outer : Place} {path stubs file : Text}
    (mergeable : Mergeable site tree outer path stubs file) : Filable site tree outer path stubs file :=
  ⟨mergeable.slashless, mergeable.outside, mergeable.named⟩

structure Beside (base : Tree) (outer : Place) (now : Tree) : Prop where
  sound : now.Sound
  keeps : base.KeepsDirectories now
  outside : ∀ place, ¬outer <+: place → now.get? place = base.get? place

/-- What holds after some pages of methods have been merged, of which those of one function have added their
directives. -/
structure Merging (base : Tree) (outer : Place) (module name : Text) (before : List Text) (line : Text)
    (rest added : List Text) (now : Tree) : Prop extends Beside base outer now where
  ended : ∀ other ∈ added, Text.WholeLine other
  page : ∃ bytes text, now.get? (outer ++ [module, name ++ (".rst" : Text)]) = some (.file bytes) ∧
    Utf8.decodeLines bytes = .ok text ∧ Text.lines (Text.unifyNewlines text) = withMethods before line rest added
  written : added ≠ [] → now.get? (outer ++ [module, name ++ (".rst" : Text)]) =
    some (.file (Utf8.bytesOf (withMethods before line rest added).flatten))
  uncopied : added = [] → now.get? (copyPlace (outer ++ [module]) name) = none
  copied : added ≠ [] → now.get? (copyPlace (outer ++ [module]) name) =
    some (.file (Utf8.bytesOf (functionalCopy name (before ++ line :: rest)).flatten))

section
variable {base now after : Tree} {outer : Place} {type module name line : Text} {before rest added : List Text}

theorem Filed.outside {folder : Text} {function next : Text} {lines : List Text} {method : Except Fault (List Text)}
    (filed : Filed type (outer ++ [folder]) function next lines method now after) {place : Place}
    (apart : ¬outer <+: place) :
    after.get? place = now.get? place := by
  have away : ∀ further, place ≠ outer ++ [folder] ++ further := by
    rintro further rfl
    exact apart ⟨[folder] ++ further, by simp⟩
  exact filed.others place (away _) (away _) (away _) fun _ _ => away _

theorem Beside.filed (beside : Beside base outer now) {folder : Text} {function next : Text} {lines : List Text}
    {method : Except Fault (List Text)} (filed : Filed type (outer ++ [folder]) function next lines method now after) :
    Beside base outer after where
  sound := filed.sound
  keeps := beside.keeps.trans filed.keeps
  outside := fun place away => (filed.outside away).trans (beside.outside place away)

theorem Filed.otherPage {folder function next : Text} {lines : List Text} {method : Except Fault (List Text)}
    (filed : Filed type (outer ++ [folder]) function next lines method now after) (named : Path.Word function)
    (apart : ¬(folder = module ∧ function = name)) :
    after.get? (outer ++ [module, name ++ (".rst" : Text)]) =
      now.get? (outer ++ [module, name ++ (".rst" : Text)]) := by
  apply filed.others
  · intro same
    have dotted : name ++ (".rst" : Text) = function := by simpa using congrArg List.getLast? same
    exact named.dotless (dotted ▸ List.mem_append_right _ (by decide))
  · intro same
    simp only [List.append_assoc, List.append_cancel_left_eq, List.cons_append, List.nil_append,
      List.cons.injEq] at same
    exact apart ⟨same.1.symm, (List.append_cancel_right same.2.1).symm⟩
  · simp
  · simp

/-- Merging a method of another function keeps what holds. -/
theorem Merging.other {folder function next : Text} {lines : List Text} {method : Except Fault (List Text)}
    (classes : type = "array" ∨ type = "container") (named : Path.Word function)
    (apart : ¬(folder = module ∧ function = name)) (merging : Merging base outer module name before line rest added now)
    (filed : Filed type (outer ++ [folder]) function next lines method now after) :
    Merging base outer module name before line rest added after := by
  have page := filed.otherPage named apart
  have copy : after.get? (copyPlace (outer ++ [module]) name) = now.get? (copyPlace (outer ++ [module]) name) := by
    apply filed.others
    · simp
    · simp
    · intro same
      simp only [List.append_assoc, List.append_cancel_left_eq, List.cons_append, List.nil_append,
        List.cons.injEq] at same
      exact apart ⟨same.1.symm, same.2.1.symm⟩
    · intro last ends same
      simp only [List.append_assoc, List.append_cancel_left_eq, List.cons_append, List.nil_append,
        List.cons.injEq] at same
      exact ending_apart classes ends same.2.2.1.symm
  exact {
    toBeside := merging.toBeside.filed filed
    ended := merging.ended
    page := by rw [page]; exact merging.page
    written := fun some => page.trans (merging.written some)
    uncopied := fun none => copy.trans (merging.uncopied none)
    copied := fun some => copy.trans (merging.copied some) }

/-- Merging a method of the function adds its directive. -/
theorem Merging.own {next : Text} {method : Except Fault (List Text)}
    (whole : ∀ other ∈ before ++ line :: rest, Text.WholeLine other)
    (others : ∀ other ∈ before, isDirective other = false) (directive : isDirective line = true)
    (ended : Text.WholeLine next) (free : .char '\n' ∉ name)
    (merging : Merging base outer module name before line rest added now)
    (filed : Filed type (outer ++ [module]) name next (withMethods before line rest added) method now after) :
    Merging base outer module name before line rest (added ++ [next]) after := by
  have grown : ∀ other ∈ added ++ [next], Text.WholeLine other := by
    intro other member
    rcases List.mem_append.mp member with inside | last
    · exact merging.ended other inside
    · rwa [List.mem_singleton.mp last]
  obtain ⟨merged, inserted, plain, page⟩ := filed.page
  rw [insertDirective_withMethods others directive inserted] at page plain
  rw [List.append_assoc] at page
  have copied : after.get? (copyPlace (outer ++ [module]) name) =
      some (.file (Utf8.bytesOf (functionalCopy name (before ++ line :: rest)).flatten)) := by
    by_cases first : added = []
    · -- the copy is made of the page as it was
      obtain ⟨content, retitled, _, held⟩ := filed.copied (merging.uncopied first)
      have title : .char '\n' ∉ ("ivy." : Text) ++ name :=
        fun member => (List.mem_append.mp member).elim (by decide) free
      rw [first, withMethods_nil] at retitled
      rw [held, retitle_eq_ok title retitled]
      rfl
    · exact filed.copyKept _ (merging.copied first)
  exact {
    toBeside := merging.toBeside.filed filed
    ended := grown
    page := ⟨_, _, page, Utf8.decodeLines_bytesOf plain, Text.lines_wholeLines (wholeLine_withMethods whole grown)⟩
    written := fun _ => page
    uncopied := fun none => absurd none (by simp)
    copied := fun _ => copied }

end

section
variable {site : Site} {base now after : Tree} {functional type module name line path stubs file : Text} {outer : Place}
  {before rest added : List Text}

theorem Beside.linesAt (beside : Beside base outer now) (filable : Filable site base outer path stubs file) :
    Script.linesAt site now (Path.join path file) = Script.linesAt site base (Path.join path file) := by
  obtain ⟨place, bytes, found, apart⟩ := filable.outside
  obtain ⟨located, held⟩ := Site.find_eq_ok_iff.mp found
  have found' : site.find now (Path.join path file) = .ok (place, .file bytes) :=
    Site.find_eq_ok_iff.mpr ⟨Site.locate_keeps beside.keeps located, by rw [beside.outside place apart, held]⟩
  unfold Script.linesAt bytesAt
  rw [found, found']

theorem single_moduleOf {raw : Text} (proper : moduleOf stubs raw ≠ []) (slashless : .char '/' ∉ moduleOf stubs raw) :
    Path.Single (moduleOf stubs raw) :=
  Path.single_of_dotless proper slashless (Text.afterLast_spec _ _).1

theorem Merging.readPage {page : Text} {lines : List Text}
    (merging : Merging base outer module name before line rest added now)
    (located : site.locate now page = .ok (outer ++ [module] ++ [name ++ (".rst" : Text)]))
    (read : Script.linesAt site now page = .ok lines) : lines = withMethods before line rest added := by
  obtain ⟨_, bytes, text, found, decoded, rfl⟩ := (linesAt_eq_ok_iff _ _).mp read
  obtain ⟨located', held⟩ := Site.find_eq_ok_iff.mp found
  obtain ⟨bytes', text', held', decoded', shown⟩ := merging.page
  cases located.symm.trans located'
  rw [List.append_assoc, List.singleton_append, held'] at held
  cases held
  cases decoded.symm.trans decoded'
  exact shown

variable (placed : site.Sound) (located : site.locate base functional = .ok outer)
    (opened : base.get? outer = some .directory)
include placed located opened

theorem locate_module (keeps : base.KeepsDirectories now) {text : Text} (single : Path.Single text) {folder : Place} :
    site.locate base (Path.join functional text) = .ok folder ↔
      site.locate now (Path.join functional text) = .ok folder :=
  Site.locate_join_below placed single located opened (Site.locate_keeps keeps located) (keeps _ opened)

theorem Beside.merged {result : Option Text} (classes : type = "array" ∨ type = "container")
    (filable : Filable site base outer path stubs file) (beside : Beside base outer now)
    (run : (mergePage type path stubs functional file).runOn site now = (.ok result, after)) :
    ∃ lines, Script.linesAt site base (Path.join path file) = .ok lines ∧
      ((result = none ∧ after = now ∧ ∀ line raw folder, lines.find? isDirective = some line →
          directiveName line = .ok raw → moduleOf stubs raw ∉ unmergedModules →
          site.find now (Path.join functional (moduleOf stubs raw)) = .ok (folder, .directory) →
          baseName raw ++ (".rst" : Text) ∉ now.names folder) ∨
        ∃ line raw folder pageLines, lines.find? isDirective = some line ∧ directiveName line = .ok raw ∧
          moduleOf stubs raw ∉ unmergedModules ∧
          site.locate base (Path.join functional (moduleOf stubs raw)) = .ok (outer ++ [folder]) ∧
          Path.Word (baseName raw) ∧
          result = some (Path.join (Path.join functional (moduleOf stubs raw)) (baseName raw ++ ".rst")) ∧
          site.locate now (Path.join (Path.join functional (moduleOf stubs raw)) (baseName raw ++ ".rst")) =
            .ok (outer ++ [folder] ++ [baseName raw ++ (".rst" : Text)]) ∧
          Script.linesAt site now (Path.join (Path.join functional (moduleOf stubs raw)) (baseName raw ++ ".rst")) =
            .ok pageLines ∧
          Filed type (outer ++ [folder]) (baseName raw) line pageLines
            (retitle "/../../logos" ("ivy." ++ Text.capitalize type ++ "." ++ raw) lines) now after) := by
  obtain ⟨lines, read, outcome⟩ := runOn_mergePage_ok run
  rw [beside.linesAt filable] at read
  refine ⟨lines, read, outcome.imp_right ?_⟩
  rintro ⟨line, raw, folder, first, named, merged, there, filing⟩
  obtain ⟨⟨proper, slashless⟩, nonempty, bare⟩ := filable.named lines line raw read first named
  have single := single_moduleOf proper slashless
  have found := (locate_module placed located opened beside.keeps single).mpr (Site.find_eq_ok_iff.mp there).1
  obtain ⟨folder, _, _, _, rfl⟩ := (Site.locate_join_iff placed single located opened).mp found
  obtain ⟨_, _, text, _, decoded, rfl⟩ := (linesAt_eq_ok_iff _ _).mp read
  have function : Path.Word (baseName raw) := function_of_directive (Utf8.plain_of_decodeLines decoded).unifyNewlines
    (List.mem_of_find?_eq_some first) named nonempty bare
  have base' : Path.base (Path.join functional (moduleOf stubs raw)) ≠ [] := by
    rw [Path.base_join _ slashless]
    exact proper
  obtain ⟨rfl, paged, pageLines, readPage, filed⟩ :=
    filed_filePage placed beside.sound there base' function filable.slashless classes filing
  exact ⟨line, raw, folder, pageLines, first, named, merged, found, function, rfl, paged, readPage, filed⟩

theorem Merging.step {result : Option Text} (inner : base.get? (outer ++ [module]) = some .directory)
    (whole : ∀ other ∈ before ++ line :: rest, Text.WholeLine other)
    (others : ∀ other ∈ before, isDirective other = false) (directive : isDirective line = true)
    (classes : type = "array" ∨ type = "container") (mergeable : Mergeable site base outer path stubs file)
    (merging : Merging base outer module name before line rest added now)
    (run : (mergePage type path stubs functional file).runOn site now = (.ok result, after)) :
    Merging base outer module name before line rest
        (added ++ (contribution site base (outer ++ [module]) name path stubs functional file).toList) after ∧
      ((∃ page, result = some page ∧ site.locate base page = .ok (outer ++ [module, name ++ (".rst" : Text)])) ↔
        (contribution site base (outer ++ [module]) name path stubs functional file).isSome = true) := by
  obtain ⟨lines, read, outcome⟩ := merging.toBeside.merged placed located opened classes mergeable.filable run
  rcases outcome with ⟨rfl, rfl, passed⟩ |
    ⟨next, raw, folder, pageLines, first, named, merged, found, function, rfl, paged, readPage, filed⟩
  · -- a page that is passed over has nothing to contribute: its function would have been found
    have none : contribution site base (outer ++ [module]) name path stubs functional file = none := by
      rw [Option.eq_none_iff_forall_ne_some]
      intro next contributed
      obtain ⟨_, raw, read', first, named, merged, found, same⟩ := contribution_eq_some_iff.mp contributed
      cases read.symm.trans read'
      obtain ⟨⟨proper, slashless⟩, _⟩ := mergeable.named lines next raw read first named
      have found' := (locate_module placed located opened merging.keeps (single_moduleOf proper slashless)).mp found
      have there := Site.find_eq_ok_iff.mpr ⟨found', merging.keeps _ inner⟩
      refine passed next raw _ first named merged there ?_
      obtain ⟨bytes, _, held, _⟩ := merging.page
      rw [same, Tree.mem_names, List.append_assoc]
      exact Option.isSome_iff_exists.mpr ⟨_, held⟩
    rw [none]
    simpa using merging
  · obtain ⟨_, _, text, _, decoded, rfl⟩ := (linesAt_eq_ok_iff _ _).mp read
    have member := List.mem_of_find?_eq_some first
    -- the page is filed, under the function in question or under another one
    by_cases own : folder = module ∧ baseName raw = name
    · obtain ⟨rfl, rfl⟩ := own
      have contributed : contribution site base (outer ++ [folder]) (baseName raw) path stubs functional file =
          some next :=
        (contribution_of_directive read first named).mpr ⟨rfl, merged, found, rfl⟩
      rw [merging.readPage paged readPage] at filed
      have ended := Text.wholeLine_of_mem member (mergeable.ended _ next read first)
      have free : .char '\n' ∉ baseName raw := fun newline =>
        directiveName_line member named ((baseName_suffix raw).subset newline)
      have pageSingle : Path.Single (baseName raw ++ (".rst" : Text)) :=
        Path.single_append function.slashless (by decide) (by decide)
      have pagedBase := (Site.locate_join_below placed pageSingle found inner (Site.locate_keeps merging.keeps found)
        (merging.keeps _ inner)).mpr paged
      rw [List.append_assoc] at pagedBase
      rw [contributed]
      exact ⟨merging.own whole others directive ended free filed, fun _ => rfl, fun _ => ⟨_, rfl, pagedBase⟩⟩
    · have none : contribution site base (outer ++ [module]) name path stubs functional file = none := by
        rw [Option.eq_none_iff_forall_ne_some]
        intro next' contributed
        obtain ⟨_, _, found', same⟩ := (contribution_of_directive read first named).mp contributed
        have sameFolder := Except.ok.inj (found.symm.trans found')
        exact own ⟨by simpa using sameFolder, same⟩
      rw [none]
      refine ⟨by simpa using merging.other classes function own filed, ?_⟩
      constructor
      · rintro ⟨_, same, aimed⟩
        cases same
        have samePage := Except.ok.inj (paged.symm.trans (Site.locate_keeps merging.keeps aimed))
        simp only [List.append_assoc, List.append_cancel_left_eq, List.cons_append, List.nil_append,
          List.cons.injEq] at samePage
        exact absurd ⟨samePage.1, List.append_cancel_right samePage.2.1⟩ own
      · intro some
        cases some

/-- Merging pages one after the other adds what they contribute, in their order. -/
theorem Merging.run {files pages : List Text} (inner : base.get? (outer ++ [module]) = some .directory)
    (whole : ∀ other ∈ before ++ line :: rest, Text.WholeLine other)
    (others : ∀ other ∈ before, isDirective other = false) (directive : isDirective line = true)
    (classes : type = "array" ∨ type = "container")
    (mergeable : ∀ file ∈ files, Mergeable site base outer path stubs file)
    (merging : Merging base outer module name before line rest added now)
    (run : (files.filterMapM (mergePage type path stubs functional)).runOn site now = (.ok pages, after)) :
    Merging base outer module name before line rest
        (added ++ files.filterMap (contribution site base (outer ++ [module]) name path stubs functional)) after ∧
      ((∃ page ∈ pages, site.locate base page = .ok (outer ++ [module, name ++ (".rst" : Text)])) ↔
        files.filterMap (contribution site base (outer ++ [module]) name path stubs functional) ≠ []) := by
  induction files generalizing added now pages with
  | nil =>
    cases run
    simpa using merging
  | cons file files ih =>
    obtain ⟨result, between, others', first, later, rfl⟩ := runOn_filterMapM_cons_ok run
    obtain ⟨merging', gives⟩ := merging.step placed located opened inner whole others directive classes
      (mergeable file List.mem_cons_self) first
    obtain ⟨done, given⟩ := ih (fun file member => mergeable file (List.mem_cons_of_mem _ member)) merging' later
    have cut : (file :: files).filterMap (contribution site base (outer ++ [module]) name path stubs functional) =
        (contribution site base (outer ++ [module]) name path stubs functional file).toList ++
          files.filterMap (contribution site base (outer ++ [module]) name path stubs functional) := by
      cases contributed : contribution site base (outer ++ [module]) name path stubs functional file <;>
        simp [contributed]
    rw [cut, ← List.append_assoc]
    refine ⟨done, ?_⟩
    -- a page is given by this file or by a later one
    calc (∃ page ∈ result.toList ++ others', site.locate base page = .ok (outer ++ [module, name ++ (".rst" : Text)]))
      _ ↔ (∃ page, result = some page ∧ site.locate base page = .ok (outer ++ [module, name ++ (".rst" : Text)])) ∨
          ∃ page ∈ others', site.locate base page = .ok (outer ++ [module, name ++ (".rst" : Text)]) := by
        cases result <;> simp
      _ ↔ _ := or_congr gives given
      _ ↔ _ := by
        cases contribution site base (outer ++ [module]) name path stubs functional file <;> simp

end

/-- A function's page gets the directives of all methods that belong to the function, the latest directly below the
function's own, and a copy shows the page as it was. The page is among those that a call gives exactly if one of the
call's methods belongs to it, and nothing outside the functions' pages changes. -/
theorem merged_pages {site : Site} {tree between after : Tree} {functional module name line text : Text} {outer : Place}
    {before rest : List Text} {bytes : Bytes} {containerPath containerStubs arrayPath arrayStubs : Text}
    {containerFiles arrayFiles fromContainers fromArrays : List Text} (placed : site.Sound) (sound : tree.Sound)
    (located : site.locate tree functional = .ok outer)
    (page : tree.get? (outer ++ [module, name ++ (".rst" : Text)]) = some (.file bytes))
    (decoded : Utf8.decodeLines bytes = .ok text)
    (lined : Text.lines (Text.unifyNewlines text) = before ++ line :: rest)
    (ended : ∀ other ∈ before ++ line :: rest, other.getLast? = some (.char '\n'))
    (first : isDirective line = true ∧ ∀ other ∈ before, isDirective other = false)
    (uncopied : tree.get? (copyPlace (outer ++ [module]) name) = none)
    (containers : ∀ file ∈ containerFiles, Mergeable site tree outer containerPath containerStubs file)
    (arrays : ∀ file ∈ arrayFiles, Mergeable site tree outer arrayPath arrayStubs file)
    (runContainers : (merge "container" containerPath containerFiles containerStubs functional).runOn site tree =
      (.ok fromContainers, between))
    (runArrays : (merge "array" arrayPath arrayFiles arrayStubs functional).runOn site between =
      (.ok fromArrays, after))
    {containerLines arrayLines : List Text}
    (byContainers : containerLines =
      containerFiles.filterMap (contribution site tree (outer ++ [module]) name containerPath
        containerStubs functional))
    (byArrays : arrayLines =
      arrayFiles.filterMap (contribution site tree (outer ++ [module]) name arrayPath arrayStubs functional))
    (contributed : containerLines ++ arrayLines ≠ []) :
    after.get? (outer ++ [module, name ++ (".rst" : Text)]) = some (.file (Utf8.bytesOf (before ++ line ::
        ((containerLines ++ arrayLines).reverse.flatMap fun added => [("\n" : Text), added]) ++ rest).flatten)) ∧
      after.get? (outer ++ [module, name, name ++ ("_functional.rst" : Text)]) =
        some (.file (Utf8.bytesOf (functionalCopy name (before ++ line :: rest)).flatten)) ∧
      ((∃ path ∈ fromContainers, site.locate tree path = .ok (outer ++ [module, name ++ (".rst" : Text)])) ↔
        containerLines ≠ []) ∧
      ((∃ path ∈ fromArrays, site.locate tree path = .ok (outer ++ [module, name ++ (".rst" : Text)])) ↔
        arrayLines ≠ []) ∧
      ∀ place, ¬outer <+: place → after.get? place = tree.get? place := by
  have inner : tree.get? (outer ++ [module]) = some .directory :=
    sound.parent (outer ++ [module]) _ (by rw [List.append_assoc]; exact Option.isSome_iff_exists.mpr ⟨_, page⟩)
  have opened : tree.get? outer = some .directory := sound.parent outer module (Option.isSome_iff_exists.mpr ⟨_, inner⟩)
  have whole : ∀ other ∈ before ++ line :: rest, Text.WholeLine other := by
    intro other member
    exact Text.wholeLine_of_mem (lined ▸ member) (ended other member)
  have start : Merging tree outer module name before line rest [] tree := {
    sound := sound
    keeps := fun _ held => held
    outside := fun _ _ => rfl
    ended := fun _ member => absurd member List.not_mem_nil
    page := ⟨bytes, text, page, decoded, by rw [lined, withMethods_nil]⟩
    written := fun none => absurd rfl none
    uncopied := fun _ => uncopied
    copied := fun none => absurd rfl none }
  obtain ⟨containerPages, _, rounds, sorted⟩ := runOn_bind_ok runContainers
  cases sorted
  obtain ⟨halfway, gaveContainers⟩ := start.run placed located opened inner whole first.2 first.1 (.inr rfl)
    containers rounds
  obtain ⟨arrayPages, _, rounds', sorted'⟩ := runOn_bind_ok runArrays
  cases sorted'
  obtain ⟨merged, gaveArrays⟩ := halfway.run placed located opened inner whole first.2 first.1 (.inl rfl) arrays rounds'
  rw [List.nil_append, ← byContainers, ← byArrays] at merged
  rw [← byContainers] at gaveContainers
  rw [← byArrays] at gaveArrays
  have copied := merged.copied contributed
  rw [copyPlace, List.append_assoc] at copied
  simp only [Text.mem_sortDistinct]
  exact ⟨merged.written contributed, copied, gaveContainers, gaveArrays, merged.outside⟩

theorem mergeable_of_read {site : Site} {tree : Tree} {outer place : Place} {path stubs file line raw : Text}
    {lines : List Text} {bytes : Bytes} (slashless : .char '/' ∉ file)
    (found : site.find tree (Path.join path file) = .ok (place, .file bytes)) (apart : ¬outer <+: place)
    (read : linesAt site tree (Path.join path file) = .ok lines) (first : lines.find? isDirective = some line)
    (named : directiveName line = .ok raw) (ended : line.getLast? = some (.char '\n'))
    (module : moduleOf stubs raw ≠ [] ∧ .char '/' ∉ moduleOf stubs raw)
    (function : baseName raw ≠ [] ∧ .char '/' ∉ baseName raw) : Mergeable site tree outer path stubs file where
  slashless := slashless
  outside := ⟨place, bytes, found, apart⟩
  ended := by
    intro lines' line' read' first'
    cases read.symm.trans read'
    cases first.symm.trans first'
    exact ended
  named := by
    intro lines' line' raw' read' first' named'
    cases read.symm.trans read'
    cases first.symm.trans first'
    cases named.symm.trans named'
    exact ⟨module, function⟩

def ownLine : Text := ".. autofunction:: ivy.add\n"

def containerLine : Text := ".. autofunction:: ivy.static_add\n"

def arrayLine : Text := ".. autofunction:: ivy.Array.add\n"

def mergeTree : Tree := ⟨[(["f"], .directory), (["f", "m"], .directory),
  (["f", "m", "add.rst"], .file (Utf8.bytesOf ("a\n=\n" ++ ownLine ++ "../logos\n"))),
  (["c"], .directory), (["c", "s.rst"], .file (Utf8.bytesOf ("a\n=\n" ++ containerLine))),
  (["a"], .directory), (["a", "a.rst"], .file (Utf8.bytesOf ("a\n=\n" ++ arrayLine)))]⟩

def mergeSite : Site := .ascending "/workspace" []

def containerMethods : Text := "#ivy.container.m\ndef static_add(x):\n"

def arrayMethods : Text := "#ivy.array.m\ndef add(self):\n"

def mergeBetween : Tree := ((merge "container" "c" ["s.rst"] containerMethods "f").runOn mergeSite mergeTree).2

def mergeAfter : Tree := ((merge "array" "a" ["a.rst"] arrayMethods "f").runOn mergeSite mergeBetween).2

theorem runOn_merge_sample :
    (merge "container" "c" ["s.rst"] containerMethods "f").runOn mergeSite mergeTree =
      (.ok ["f/m/add.rst"], mergeBetween) ∧
      (merge "array" "a" ["a.rst"] arrayMethods "f").runOn mergeSite mergeBetween =
        (.ok ["f/m/add.rst"], mergeAfter) := by
  have containers : ((merge "container" "c" ["s.rst"] containerMethods "f").runOn mergeSite mergeTree).1 =
      .ok ["f/m/add.rst"] := by decide +kernel
  have arrays : ((merge "array" "a" ["a.rst"] arrayMethods "f").runOn mergeSite mergeBetween).1 =
      .ok ["f/m/add.rst"] := by
    decide +kernel
  constructor
  · rw [mergeBetween, ← containers]
  · rw [mergeAfter, ← arrays]

theorem merged_pages_sample :
    mergeAfter.get? ["f", "m", "add.rst"] = some (.file (Utf8.bytesOf
        ("a\n=\n" ++ ownLine ++ "\n" ++ arrayLine ++ "\n" ++ containerLine ++ "../logos\n"))) ∧
      mergeAfter.get? ["f", "m", "add", "add_functional.rst"] =
        some (.file (Utf8.bytesOf ("ivy.add\n=======" ++ ownLine ++ "../../logos\n"))) := by
  have placed : mergeSite.Sound := .inr (by decide)
  have sound : mergeTree.Sound := Tree.sound_of_isSound (by decide +kernel)
  have located : mergeSite.locate mergeTree "f" = .ok ["f"] := by decide +kernel
  have container : ∀ file ∈ [("s.rst" : Text)], Mergeable mergeSite mergeTree ["f"] "c" containerMethods file := by
    intro file member
    rw [List.mem_singleton.mp member]
    have found : mergeSite.find mergeTree (Path.join "c" "s.rst") =
        .ok (["c", "s.rst"], .file (Utf8.bytesOf ("a\n=\n" ++ containerLine))) := by decide +kernel
    have read : linesAt mergeSite mergeTree (Path.join "c" "s.rst") = .ok ["a\n", "=\n", containerLine] := by
      decide +kernel
    have first : [("a\n" : Text), "=\n", containerLine].find? isDirective = some containerLine := by decide +kernel
    have named : directiveName containerLine = .ok "static_add" := by decide +kernel
    exact mergeable_of_read (by decide) found (by decide) read first named (by decide) (by decide +kernel)
      (by decide +kernel)
  have array : ∀ file ∈ [("a.rst" : Text)], Mergeable mergeSite mergeTree ["f"] "a" arrayMethods file := by
    intro file member
    rw [List.mem_singleton.mp member]
    have found : mergeSite.find mergeTree (Path.join "a" "a.rst") =
        .ok (["a", "a.rst"], .file (Utf8.bytesOf ("a\n=\n" ++ arrayLine))) := by decide +kernel
    have read : linesAt mergeSite mergeTree (Path.join "a" "a.rst") = .ok ["a\n", "=\n", arrayLine] := by decide +kernel
    have first : [("a\n" : Text), "=\n", arrayLine].find? isDirective = some arrayLine := by decide +kernel
    have named : directiveName arrayLine = .ok "add" := by decide +kernel
    exact mergeable_of_read (by decide) found (by decide) read first named (by decide) (by decide +kernel)
      (by decide +kernel)
  have page : mergeTree.get? ((["f"] : Place) ++ [("m" : Text), "add" ++ ".rst"]) =
      some (.file (Utf8.bytesOf ("a\n=\n" ++ ownLine ++ "../logos\n"))) := by decide +kernel
  have decoded : Utf8.decodeLines (Utf8.bytesOf ("a\n=\n" ++ ownLine ++ "../logos\n")) =
      .ok ("a\n=\n" ++ ownLine ++ "../logos\n") := by decide +kernel
  have lined : Text.lines (Text.unifyNewlines ("a\n=\n" ++ ownLine ++ "../logos\n")) =
      [("a\n" : Text), "=\n"] ++ ownLine :: [("../logos\n" : Text)] := by decide +kernel
  have byContainers : [containerLine] =
      [("s.rst" : Text)].filterMap (contribution mergeSite mergeTree ["f", "m"] "add" "c" containerMethods "f") := by
    decide +kernel
  have byArrays : [arrayLine] =
      [("a.rst" : Text)].filterMap (contribution mergeSite mergeTree ["f", "m"] "add" "a" arrayMethods "f") := by
    decide +kernel
  obtain ⟨merged, copied, _⟩ := merged_pages placed sound located page decoded lined (by decide) (by decide +kernel)
    (by decide +kernel) container array runOn_merge_sample.1 runOn_merge_sample.2 byContainers byArrays
      (List.cons_ne_nil _ _)
  have pagePlace : (["f"] : Place) ++ [("m" : Text), "add" ++ ".rst"] = ["f", "m", "add.rst"] := by decide
  have copiedPlace : (["f"] : Place) ++ [("m" : Text), "add", "add" ++ "_functional.rst"] =
      ["f", "m", "add", "add_functional.rst"] := by decide
  have pageText : ([("a\n" : Text), "=\n"] ++ ownLine ::
      (([containerLine] ++ [arrayLine]).reverse.flatMap fun added => [("\n" : Text), added]) ++
        [("../logos\n" : Text)]).flatten =
      "a\n=\n" ++ ownLine ++ "\n" ++ arrayLine ++ "\n" ++ containerLine ++ "../logos\n" := by decide +kernel
  have copyText : (functionalCopy "add" ([("a\n" : Text), "=\n"] ++ ownLine :: [("../logos\n" : Text)])).flatten =
      "ivy.add\n=======" ++ ownLine ++ "../../logos\n" := by decide +kernel
  rw [pagePlace, pageText] at merged
  rw [copiedPlace, copyText] at copied
  exact ⟨merged, copied⟩

end ApiDocs.Instance
