import ApiDocs.Proofs.Module.Contents
import ApiDocs.Proofs.Pages.Layout
import ApiDocs.Proofs.Text.Replace

/-! Where the pages of a directory are written. The visit of a directory writes the pages of its modules, of their
functions and classes, and of the directories on the way to it; the visit of the library writes the index besides. -/

set_option autoImplicit false

namespace ApiDocs

theorem Place.not_isPage_module (front : Place) (stem : Text) : ¬Place.IsPage (front ++ [stem ++ (".py" : Text)]) := by
  rintro ⟨before, name, eq, ends⟩
  obtain ⟨_, last⟩ := List.append_inj' eq rfl
  obtain rfl := (List.cons.inj last).1
  have inside : (".py" : Text) <:+ (".rst" : Text) := List.suffix_of_suffix_length_le ⟨stem, rfl⟩ ends (by decide)
  exact absurd inside (by decide)

namespace Pages
open Script Text

def top (site : Site) : Place := site.start ++ [folder]

/-- A module that gets pages, by the names of its directory and its own. -/
structure Documented (lib : Place) (base : Tree) (names : Place) (stem : Text) : Prop where
  present : (base.get? (lib ++ names ++ [stem ++ (".py" : Text)])).isSome = true
  kept : stem ∉ Module.excludedNames

/-- A library that is called by its last name only, whose directories and modules have names without dots that differ,
whose modules are not stepped over and give every definition a name. -/
structure Regular (settings : Settings) (lib : Place) (base : Tree) : Prop where
  rooted : Module.Rooted settings
  sound : base.Sound
  directory : ∀ names name, base.get? (lib ++ names ++ [name]) = some .directory →
    Module.excludedDirectories.contains name = false → Path.Word name
  stem : ∀ names stem, Documented lib base names stem → Path.Word stem
  apart : ∀ names stem, Documented lib base names stem → base.get? (lib ++ names ++ [stem]) ≠ some .directory
  unstepped : ∀ names stem, Documented lib base names stem →
    join "/" (names ++ [stem ++ (".py" : Text)]) ∉ settings.stepped
  titled : ∀ names stem bytes, Documented lib base names stem →
    base.get? (lib ++ names ++ [stem ++ (".py" : Text)]) = some (.file bytes) →
      Module.Titled "def " (unifyNewlines (Utf8.decodeLenient bytes)) ∧
        Module.Titled "class " (unifyNewlines (Utf8.decodeLenient bytes))

def isRegularEntry (settings : Settings) (lib : Place) (base : Tree) (names : Place) (entry : Entry) : Bool :=
  let name := names.getLastD []
  let stem := upTo name (-3)
  (entry != .directory || Module.excludedDirectories.contains name || Path.isWord name) &&
    (since name (-3) != ".py" || Module.excludedNames.contains stem ||
      Path.isWord stem && base.get? (lib ++ names.dropLast ++ [stem]) != some .directory &&
        !settings.stepped.contains (join "/" names) &&
        match entry with
        | .directory => true
        | .file bytes => Module.isTitled "def " (unifyNewlines (Utf8.decodeLenient bytes)) &&
          Module.isTitled "class " (unifyNewlines (Utf8.decodeLenient bytes)))

def isRegular (settings : Settings) (lib : Place) (base : Tree) : Bool :=
  base.entries.all fun entry => !lib.isPrefixOf entry.1 || entry.1 == lib ||
    isRegularEntry settings lib base (entry.1.drop lib.length) entry.2

theorem isRegularEntry_of_isRegular {settings : Settings} {lib : Place} {base : Tree}
    (check : isRegular settings lib base = true) {names : Place} {name : Text} {entry : Entry}
    (held : base.get? (lib ++ names ++ [name]) = some entry) :
    isRegularEntry settings lib base (names ++ [name]) entry = true := by
  rw [List.append_assoc] at held
  have member : (lib ++ (names ++ [name]), entry) ∈ base.entries := by
    refine Table.mem_of_get? ?_
    rwa [Tree.get?, if_neg (by simp)] at held
  have checked := List.all_eq_true.mp check _ member
  have below : lib.isPrefixOf (lib ++ (names ++ [name])) = true :=
    List.isPrefixOf_iff_prefix.mpr (List.prefix_append _ _)
  have proper : (lib ++ (names ++ [name]) == lib) = false := by simp
  rwa [below, proper, List.drop_left, Bool.not_true, Bool.false_or, Bool.false_or] at checked

theorem regular_of_isRegular {settings : Settings} {lib : Place} {base : Tree} (rooted : Module.Rooted settings)
    (sound : base.Sound) (check : isRegular settings lib base = true) : Regular settings lib base := by
  have last : ∀ (names : Place) (name : Text), (names ++ [name]).getLastD [] = name ∧
      (names ++ [name]).dropLast = names := by
    intro names name
    rw [List.getLastD_eq_getLast?, List.getLast?_concat, List.dropLast_concat]
    exact ⟨rfl, rfl⟩
  have ending : ∀ stem : Text, upTo (stem ++ (".py" : Text)) (-3) = stem ∧
      since (stem ++ (".py" : Text)) (-3) = ".py" :=
    fun stem => cut_ending stem (by decide)
  -- what the check of a documented module's own entry gives
  have modules : ∀ {names stem}, Documented lib base names stem → Path.isWord stem = true ∧
      base.get? (lib ++ names ++ [stem]) ≠ some .directory ∧
      join "/" (names ++ [stem ++ (".py" : Text)]) ∉ settings.stepped ∧
      ∀ bytes, base.get? (lib ++ names ++ [stem ++ (".py" : Text)]) = some (.file bytes) →
        Module.isTitled "def " (unifyNewlines (Utf8.decodeLenient bytes)) = true ∧
          Module.isTitled "class " (unifyNewlines (Utf8.decodeLenient bytes)) = true := by
    intro names stem documented
    obtain ⟨entry, held⟩ := Option.isSome_iff_exists.mp documented.present
    have checked := isRegularEntry_of_isRegular check held
    simp only [isRegularEntry, last, ending, Bool.and_eq_true, Bool.or_eq_true, bne_self_eq_false, Bool.false_eq_true,
      false_or, bne_iff_ne, ne_eq, Bool.not_eq_true', List.contains_eq_mem, decide_eq_false_iff_not, decide_eq_true_eq,
      documented.kept] at checked
    obtain ⟨_, ⟨⟨word, apart⟩, unstepped⟩, titled⟩ := checked
    refine ⟨word, apart, unstepped, fun bytes file => ?_⟩
    cases held.symm.trans file
    simpa using titled
  constructor
  · exact rooted
  · exact sound
  · intro names name held kept
    have checked := isRegularEntry_of_isRegular check held
    simp only [isRegularEntry, last, Bool.and_eq_true, Bool.or_eq_true, bne_self_eq_false, Bool.false_eq_true, false_or,
      kept] at checked
    exact Path.word_of_isWord checked.1
  · exact fun names stem documented => Path.word_of_isWord (modules documented).1
  · exact fun names stem documented => (modules documented).2.1
  · exact fun names stem documented => (modules documented).2.2.1
  · intro names stem bytes documented held
    obtain ⟨functions, classes⟩ := (modules documented).2.2.2 bytes held
    exact ⟨Module.titled_of_isTitled functions, Module.titled_of_isTitled classes⟩

section
variable {settings : Settings} {lib : Place} {base : Tree} (regular : Regular settings lib base) {names : Place}
    {stem : Text}
  (documented : Documented lib base names stem)
include regular documented

theorem Regular.named : ∀ name ∈ names ++ [stem ++ (".py" : Text)], Path.Named name := by
  have present := documented.present
  rw [List.append_assoc] at present
  exact regular.sound.named_of_mem present

theorem Regular.words (words : ∀ name ∈ names, Path.Word name) : ∀ name ∈ names ++ [stem], Path.Word name := by
  intro name member
  rcases List.mem_append.mp member with inside | last
  · exact words name inside
  · rw [List.mem_singleton.mp last]
    exact regular.stem names stem documented

end

def dottedName (settings : Settings) (names : Place) : Text := join "." (Path.base settings.library :: names)

theorem afterLast_dottedName (settings : Settings) (names : Place) {stem : Text} (dotless : .char '.' ∉ stem) :
    afterLast '.' (dottedName settings (names ++ [stem])) = stem := by
  rw [dottedName, ← List.cons_append, join_last _ (List.cons_ne_nil _ _)]
  exact afterLast_dotted _ dotless

theorem toctree_eq {target : Target} {settings : Settings} {names : Place} {stem : Text} (dotless : .char '.' ∉ stem)
    (own : target.dotted = dottedName settings (names ++ [stem])) {dotted : Text} {functions classes : List Text}
    (words : ∀ name ∈ functions ++ classes, Path.Word name) :
    target.toctree (functions.map (dotted ++ "." ++ ·)) (classes.map (dotted ++ "." ++ ·)) =
      [(stem, (functions ++ classes).map (· ++ (".rst" : Text)))] := by
  rw [Target.toctree, Target.name, own, afterLast_dottedName settings names dotless, ← List.map_append, List.map_map]
  congr 2
  refine List.map_congr_left fun name member => ?_
  rw [Function.comp, afterLast_dotted dotted (words name member).dotless]

def modulePage (settings : Settings) (names : Place) (stem text : Text) : Text :=
  header (replace "_" " " stem) (dottedName settings (names ++ [stem])) ++
    Toctree.render none [(stem, (Module.functionNames text ++ Module.classNames text).map (· ++ (".rst" : Text)))]

structure Paged (site : Site) (settings : Settings) (names : Place) (stem text : Text) (tree : Tree) : Prop where
  page : tree.get? (top site ++ names ++ [stem ++ (".rst" : Text)]) =
    some (.file (Utf8.bytesOf (modulePage settings names stem text)))
  functions : ∀ name ∈ Module.functionNames text,
    tree.get? (top site ++ (names ++ [stem]) ++ [name ++ (".rst" : Text)]) =
      some (.file (Utf8.bytesOf (functionPage
        (functionTitle (pagePath (names ++ [stem] ++ [name ++ (".rst" : Text)])) name)
        (dottedName settings (names ++ [stem]) ++ "." ++ name)
          (frameworksFor settings (Path.walked settings.library names)))))
  classes : ∀ name ∈ Module.classNames text,
    tree.get? (top site ++ (names ++ [stem]) ++ [name ++ (".rst" : Text)]) =
      some (.file (Utf8.bytesOf (classPage name
        (dottedName settings (names ++ [stem]) ++ "." ++ name)
          (frameworksFor settings (Path.walked settings.library names)))))

/-- Where the pages of a module are written, and those on the way to it. -/
inductive Own (site : Site) (names : Place) (stem : Text) : Place → Prop where
  | page : Own site names stem (top site ++ names ++ [stem ++ (".rst" : Text)])
  | member (name : Text) : Own site names stem (top site ++ (names ++ [stem]) ++ [name ++ (".rst" : Text)])
  | above {inner : Place} (way : inner <+: names) : Own site names stem (top site ++ pageNames inner)

def Begun (site : Site) (names place : Place) : Prop := ∃ inner, inner <+: names ∧ place = top site ++ pageNames inner

theorem Begun.own {site : Site} {names : Place} {stem : Text} {place : Place}
    (heading : Begun site (names ++ [stem]) place) :
    Own site names stem place := by
  obtain ⟨inner, way, rfl⟩ := heading
  rcases List.prefix_concat_iff.mp way with rfl | inside
  · rw [pageNames_snoc, ← List.append_assoc]
    exact .page
  · exact .above inside

/-- Where the visit of a directory writes after its modules. -/
inductive Closing (site : Site) : Place → Place → Prop where
  | directory (names : Place) : Closing site names (top site ++ pageNames names)
  | index : Closing site [] (top site ++ [("index.rst" : Text)])
  | related (name : Text) : Closing site [] (top site ++ [("docs" : Text), name ++ (".rst" : Text)])

/-- Where the visit of a directory writes, apart from the visits below it. -/
inductive Touched (site : Site) (lib : Place) (base : Tree) (names place : Place) : Prop where
  | module {stem : Text} (documented : Documented lib base names stem) (own : Own site names stem place)
  | closing (closing : Closing site names place)

def Inside (site : Site) (place : Place) : Prop := place.IsPage ∧ top site <+: place

theorem inside_snoc (site : Site) (front : Place) (name : Text) :
    Inside site (top site ++ front ++ [name ++ (".rst" : Text)]) :=
  ⟨⟨top site ++ front, _, rfl, name, rfl⟩, ⟨front ++ [name ++ (".rst" : Text)], by rw [List.append_assoc]⟩⟩

theorem inside_pageNames (site : Site) (names : Place) : Inside site (top site ++ pageNames names) := by
  rw [pageNames, ← List.append_assoc]
  exact inside_snoc site _ _

theorem Own.inside {site : Site} {names : Place} {stem : Text} {place : Place} (own : Own site names stem place) :
    Inside site place := by
  cases own with
  | page => exact inside_snoc site names stem
  | member name => exact inside_snoc site (names ++ [stem]) name
  | above => exact inside_pageNames site _

theorem Closing.inside {site : Site} {names place : Place} (closing : Closing site names place) :
    Inside site place := by
  cases closing with
  | directory => exact inside_pageNames site names
  | index => exact ⟨⟨top site, "index.rst", rfl, "index", by decide⟩, ⟨_, rfl⟩⟩
  | related name => exact ⟨⟨top site ++ [("docs" : Text)], _, by simp, name, rfl⟩, ⟨_, rfl⟩⟩

theorem Touched.inside {site : Site} {lib : Place} {base : Tree} {names place : Place}
    (touched : Touched site lib base names place) : Inside site place := by
  cases touched with
  | module _ own => exact own.inside
  | closing closing => exact closing.inside

/-- Pages have been written, and nothing else has changed. -/
abbrev Underway (site : Site) (base tree : Tree) : Prop := Tree.Confined (top site) (Inside site) base tree

theorem Underway.next {site : Site} {base tree after : Tree} (state : Underway site base tree) {touched : Place → Prop}
    (step : Tree.Confined (top site) touched tree after) (inside : ∀ place, touched place → Inside site place) :
    Underway site base after :=
  state.trans (step.mono inside)

theorem Underway.module {site : Site} {base tree : Tree} (state : Underway site base tree) (front : Place)
    (stem : Text) :
    tree.get? (front ++ [stem ++ (".py" : Text)]) = base.get? (front ++ [stem ++ (".py" : Text)]) :=
  state.same (fun touched => Place.not_isPage_module front stem touched.1) (List.mem_append_right _ (by decide))

/-- The related libraries are listed, and none of their names leads elsewhere. -/
def Related (site : Site) (settings : Settings) (base : Tree) : Prop :=
  ∃ lines, linesAt site base (Path.join settings.here "ivy_modules.txt") = .ok lines ∧ ∀ line ∈ lines, .char '/' ∉ line

theorem Related.confined {site : Site} {settings : Settings} {base tree : Tree} (related : Related site settings base)
    (state : Underway site base tree) {lines : List Text}
    (read : linesAt site tree (Path.join settings.here "ivy_modules.txt") = .ok lines) :
    ∀ line ∈ lines, .char '/' ∉ line := by
  obtain ⟨known, there, slashless⟩ := related
  obtain ⟨place, bytes, text, found, decoded, rfl⟩ := (linesAt_eq_ok_iff site base).mp there
  obtain ⟨located, held⟩ := Site.find_eq_ok_iff.mp found
  have now : site.find tree (Path.join settings.here "ivy_modules.txt") = .ok (place, .file bytes) := by
    refine Site.find_eq_ok_iff.mpr ⟨Site.locate_keeps state.keeps located, ?_⟩
    rcases Site.locate_join_last (Path.named_of_isNamed (by decide)) located with rfl | ⟨front, rfl⟩
    · cases held
    · refine state.kept ?_ held
      rintro ⟨⟨before, name, eq, ends⟩, _⟩
      obtain ⟨_, last⟩ := List.append_inj' eq rfl
      rw [← (List.cons.inj last).1] at ends
      exact absurd ends (by decide)
  have same : linesAt site tree (Path.join settings.here "ivy_modules.txt") = .ok (Text.lines (unifyNewlines text)) :=
    (linesAt_eq_ok_iff site tree).mpr ⟨place, bytes, text, now, decoded, rfl⟩
  cases same.symm.trans read
  exact slashless

theorem runOn_writeModule_steps {site : Site} {settings : Settings} {location : Module.Location}
    {frameworks path : Text} {previous result : Option Target} {tree after : Tree}
    (run : (writeModule settings location frameworks previous path).runOn site tree = (.ok result, after)) :
    ∃ target begun listed filled functions classes place bytes,
      ((targets settings location path).getLast? <|> previous) = some target ∧ result = some target ∧
      ((targets settings location path).forM Target.begin).runOn site tree = (.ok (), begun) ∧
      site.find begun path = .ok (place, .file bytes) ∧
      Module.contents (unifyNewlines (Utf8.decodeLenient bytes)) target.dotted = .ok (functions, classes) ∧
      (appendText target.page (Toctree.render none (target.toctree functions classes))).runOn site begun =
        (.ok (), listed) ∧
      (functions.forM (writeFunction target frameworks)).runOn site listed = (.ok (), filled) ∧
      (classes.forM (writeClass target frameworks)).runOn site filled = (.ok (), after) := by
  obtain ⟨_, begun, begins, rest⟩ := runOn_bind_ok run
  cases own : (targets settings location path).getLast? <|> previous with
  | none =>
    rw [own] at rest
    cases rest
  | some target =>
    rw [own] at rest
    obtain ⟨found, between, reading, rest⟩ := runOn_bind_ok rest
    obtain ⟨unchanged, place, bytes, there, read⟩ := Module.runOn_read_ok reading
    rw [unchanged] at rest
    obtain ⟨_, listed, append, rest⟩ := runOn_bind_ok rest
    obtain ⟨_, filled, functions, rest⟩ := runOn_bind_ok rest
    obtain ⟨_, done, classes, rest⟩ := runOn_bind_ok rest
    cases rest
    exact ⟨target, begun, listed, filled, found.1, found.2, place, bytes, rfl, rfl, begins, there, read, append,
      functions, classes⟩

theorem join_page {inner : Place} (words : ∀ name ∈ inner, Path.Word name) {name : Text} (word : Path.Word name) :
    Path.join (pagePath inner) name ++ (".rst" : Text) = pagePath (inner ++ [name ++ (".rst" : Text)]) := by
  rw [join_pagePath (fun name member => (words name member).single) fun slash =>
    word.slashless (List.mem_of_head? slash),
    pagePath_snoc]

theorem literal_page {front : Place} (words : ∀ name ∈ front, Path.Word name) {last : Text} (page : Path.Literal last) :
    ∀ name ∈ front ++ [last], Path.Literal name := by
  intro name member
  rcases List.mem_append.mp member with inside | final
  · exact (words name inside).literal
  · rwa [List.mem_singleton.mp final]

theorem literal_pageNames {names : Place} (words : ∀ name ∈ names, Path.Word name) :
    ∀ name ∈ pageNames names, Path.Literal name := by
  rcases List.eq_nil_or_concat names with rfl | ⟨front, last, rfl⟩
  · intro name member
    rw [List.mem_singleton.mp member]
    exact ⟨Path.single_append List.not_mem_nil (by decide) (by decide), plain_ofChars _⟩
  · rw [List.concat_eq_append] at words ⊢
    rw [pageNames_snoc]
    exact literal_page (fun name member => words name (List.mem_append_left _ member)) (words last (by simp)).page

theorem word_docs : ∀ name ∈ [("docs" : Text)], Path.Word name := by
  intro name member
  rw [List.mem_singleton.mp member]
  exact ⟨plain_ofChars _, by decide, by decide, by decide⟩

theorem index_path : folder ++ ("/index.rst" : Text) = pagePath [("index.rst" : Text)] := by
    simp [pagePath, join, ofChars]

theorem literal_index : ∀ name ∈ [("index.rst" : Text)], Path.Literal name := by
  intro name member
  rw [List.mem_singleton.mp member]
  exact ⟨⟨by decide, by decide, by decide, by decide⟩, plain_ofChars _⟩

theorem runOn_writeIndex_ok {site : Site} {settings : Settings} {tree after : Tree} {folders : Toctree}
    (run : (writeIndex settings folders).runOn site tree = (.ok (), after)) :
    ∃ head, (fillIndex settings folders head).runOn site tree = (.ok (), after) := by
  rw [writeIndex_eq] at run
  obtain ⟨before, _, run⟩ := runOn_bind_look (runOn_readText site tree _) run
  obtain ⟨text, _, run⟩ := runOn_bind_look (runOn_readText site tree _) run
  obtain ⟨readme, _, run⟩ := runOn_bind_look (runOn_ofExcept_id site tree _) run
  obtain ⟨there, _, run⟩ := runOn_bind_look (runOn_present site tree _) run
  cases there with
  | true =>
    obtain ⟨appendix, _, run⟩ := runOn_bind_look (runOn_readText site tree _) run
    exact ⟨_, run⟩
  | false => exact ⟨_, run⟩

section
variable {site : Site} (placed : site.Sound) (free : site.root ≠ folder) {tree after : Tree}
include placed free

theorem locate_pagePath {names place : Place} (literal : ∀ name ∈ names, Path.Literal name)
    (located : site.locate tree (pagePath names) = .ok place) : place = top site ++ names := by
  have all : ∀ name ∈ folder :: names, Path.Literal name := by
    intro name member
    rcases List.mem_cons.mp member with rfl | inside
    · exact word_folder.literal
    · exact literal name inside
  rw [Site.locate_names placed free all located, top, List.append_assoc, List.singleton_append]

theorem written_page {names : Place} (literal : ∀ name ∈ names, Path.Literal name) {text : Text}
    (run : (writeText (pagePath names) text).runOn site tree = (.ok (), after)) :
    Tree.Written (top site ++ names) (Utf8.bytesOf text) tree after := by
  obtain ⟨_, place, bytes, found, written⟩ := written_writeText run
  rwa [locate_pagePath placed free literal (locate_of_writable found)] at written

theorem appended_page {names : Place} (literal : ∀ name ∈ names, Path.Literal name) {text : Text}
    (run : (appendText (pagePath names) text).runOn site tree = (.ok (), after)) :
    ∃ bytes, (tree.get? (top site ++ names) = some (.file bytes) ∨ tree.get? (top site ++ names) = none ∧ bytes = []) ∧
      Tree.Written (top site ++ names) (bytes ++ Utf8.bytesOf text) tree after := by
  obtain ⟨_, place, bytes, found, written⟩ := written_appendText run
  obtain rfl := locate_pagePath placed free literal (locate_of_writable found)
  exact ⟨bytes, writable_spec found, written⟩

theorem appended_written {names : Place} (literal : ∀ name ∈ names, Path.Literal name) {text : Text} {held : Bytes}
    (there : tree.get? (top site ++ names) = some (.file held))
    (run : (appendText (pagePath names) text).runOn site tree = (.ok (), after)) :
    Tree.Written (top site ++ names) (held ++ Utf8.bytesOf text) tree after := by
  obtain ⟨bytes, before, written⟩ := appended_page placed free literal run
  rw [there] at before
  rcases before with same | ⟨none, _⟩
  · cases same
    exact written
  · cases none

theorem confined_makePages {names : Place} (words : ∀ name ∈ names, Path.Word name) {touched : Place → Prop}
    (run : (makeDirectories (pagePath names) true).runOn site tree = (.ok (), after)) :
    Tree.Confined (top site) touched tree after := by
  refine confined_makeDirectories placed free (fun name member => ?_) run
  rcases List.mem_cons.mp member with rfl | inside
  · exact word_folder
  · exact words name inside

theorem runOn_begin_ok (touched : Place → Prop) {inner : Place} (words : ∀ name ∈ inner, Path.Word name)
    {target : Target} (own : target.folder = pagePath inner) (page : target.page = pagePath (pageNames inner))
    (run : target.begin.runOn site tree = (.ok (), after)) :
    ∃ made, Tree.Confined (top site) touched tree made ∧ Tree.Written (top site ++ pageNames inner)
      (Utf8.bytesOf (header (replace "_" " " target.name) target.dotted)) made after := by
  obtain ⟨_, made, folders, write⟩ := runOn_bind_ok run
  rw [own] at folders
  rw [page] at write
  exact ⟨made, confined_makePages placed free words folders, written_page placed free (literal_pageNames words) write⟩

omit placed free in
def MemberWritten (site : Site) (inner : Place) (name text : Text) (tree after : Tree) : Prop :=
  text.Plain ∧ Tree.Written (top site ++ inner ++ [name ++ (".rst" : Text)]) (Utf8.bytesOf text) tree after

theorem written_member {inner : Place} (words : ∀ name ∈ inner, Path.Word name) {name text : Text}
    (word : Path.Word name) (run : (writeText (Path.join (pagePath inner) name ++ (".rst" : Text)) text).runOn site
      tree = (.ok (), after)) :
    Tree.Written (top site ++ inner ++ [name ++ (".rst" : Text)]) (Utf8.bytesOf text) tree after := by
  rw [join_page words word] at run
  rw [List.append_assoc]
  exact written_page placed free (literal_page words word.page) run

section
variable {inner : Place} (words : ∀ name ∈ inner, Path.Word name) {target : Target}
    (own : target.folder = pagePath inner)
  {dotted frameworks : Text} {list : List Text} (proper : ∀ name ∈ list, Path.Word name)
include words own proper

theorem rounds_functions
    (run : ((list.map (dotted ++ "." ++ ·)).forM (writeFunction target frameworks)).runOn site tree = (.ok (), after)) :
    Rounds (fun name tree after => MemberWritten site inner name
      (functionPage (functionTitle (pagePath (inner ++ [name ++ (".rst" : Text)])) name)
        (dotted ++ "." ++ name) frameworks) tree after) list tree after := by
  rw [forM_map] at run
  refine (rounds_forM run).imp fun name member tree after step => ?_
  have word := proper name member
  simp only [writeFunction, afterLast_dotted dotted word.dotless, own] at step
  rw [← join_page words word]
  exact ⟨(written_writeText step).1, written_member placed free words word step⟩

theorem rounds_classes
    (run : ((list.map (dotted ++ "." ++ ·)).forM (writeClass target frameworks)).runOn site tree = (.ok (), after)) :
    Rounds (fun name tree after => MemberWritten site inner name (classPage name (dotted ++ "." ++ name) frameworks)
      tree after) list tree after := by
  rw [forM_map] at run
  refine (rounds_forM run).imp fun name member tree after step => ?_
  have word := proper name member
  simp only [writeClass, afterLast_dotted dotted word.dotless, own] at step
  exact ⟨(written_writeText step).1, written_member placed free words word step⟩

end

section
variable {settings : Settings} {lib : Place} {base : Tree} (regular : Regular settings lib base) {names : Place}
  (words : ∀ name ∈ names, Path.Word name)
include regular words

section
variable {stem : Text} (documented : Documented lib base names stem)
include documented

theorem runOn_begins_ok
    (run : ((targets settings (Module.locate settings (Path.walked settings.library names))
      (Path.walked settings.library (names ++ [stem ++ (".py" : Text)]))).forM Target.begin).runOn site tree =
        (.ok (), after)) :
    Tree.Confined (top site) (Begun site (names ++ [stem])) tree after ∧
      after.get? (top site ++ names ++ [stem ++ (".rst" : Text)]) =
        some (.file (Utf8.bytesOf (header (replace "_" " " stem) (dottedName settings (names ++ [stem]))))) := by
  have named := regular.named documented
  have all := regular.words documented words
  have rounds := rounds_forM run
  constructor
  · refine rounds.confined fun target member now next _ step => ?_
    obtain ⟨inner, _, way, own, page⟩ := mem_targets regular.rooted named all member
    obtain ⟨made, folders, written⟩ :=
      runOn_begin_ok placed free (Begun site (names ++ [stem])) (fun name inside => all name (way.subset inside)) own
        page step
    exact folders.trans (written.changed ⟨inner, way, rfl⟩)
  · have last := getLast?_targets_walked regular.rooted named all (regular.unstepped names stem documented)
    obtain ⟨front, own⟩ := List.getLast?_eq_some_iff.mp last
    rw [own] at rounds
    obtain ⟨between, _, final⟩ := rounds.last
    obtain ⟨made, _, written⟩ :=
      runOn_begin_ok placed free (fun _ => True) all rfl (congrArg pagePath (pageNames_snoc names stem).symm) final
    have here := written.here
    rwa [pageNames_snoc, ← List.append_assoc, Target.name, ← dottedName,
      afterLast_dottedName settings names (regular.stem names stem documented).dotless] at here

/-- The page of a module is written after those on the way to it, then those of its functions, and of its classes. -/
theorem runOn_writeModule_stages (located : site.locate base settings.library = .ok lib)
    (state : Underway site base tree) {previous result : Option Target}
    (run : (writeModule settings (Module.locate settings (Path.walked settings.library names))
      (frameworksFor settings (Path.walked settings.library names)) previous
      (Path.walked settings.library (names ++ [stem ++ (".py" : Text)]))).runOn site tree = (.ok result, after)) :
    ∃ listed filled bytes text, text = unifyNewlines (Utf8.decodeLenient bytes) ∧
      base.get? (lib ++ names ++ [stem ++ (".py" : Text)]) = some (.file bytes) ∧
      Tree.Confined (top site) (Begun site (names ++ [stem])) tree listed ∧
      listed.get? (top site ++ names ++ [stem ++ (".rst" : Text)]) =
        some (.file (Utf8.bytesOf (modulePage settings names stem text))) ∧
      Rounds (fun name tree after => MemberWritten site (names ++ [stem]) name
        (functionPage (functionTitle (pagePath (names ++ [stem] ++ [name ++ (".rst" : Text)])) name)
          (dottedName settings (names ++ [stem]) ++ "." ++ name)
            (frameworksFor settings (Path.walked settings.library names)))
        tree after) (Module.functionNames text) listed filled ∧
      Rounds (fun name tree after => MemberWritten site (names ++ [stem]) name
        (classPage name (dottedName settings (names ++ [stem]) ++ "." ++ name)
          (frameworksFor settings (Path.walked settings.library names))) tree after) (Module.classNames text)
            filled after := by
  have named := regular.named documented
  have all := regular.words documented words
  have word := regular.stem names stem documented
  obtain ⟨target, begun, listed, filled, functions, classes, place, bytes, own, _, begins, found, read, append, first,
      second⟩ :=
    runOn_writeModule_steps run
  rw [getLast?_targets_walked regular.rooted named all (regular.unstepped names stem documented)] at own
  obtain rfl := Option.some.inj own
  obtain ⟨before, head⟩ := runOn_begins_ok placed free regular words documented begins
  -- the module's file is as it was before any page was written
  have now : Underway site base begun := state.next before fun _ heading => heading.own.inside
  obtain ⟨there, held⟩ := Site.find_eq_ok_iff.mp found
  obtain rfl := Site.locate_walked placed named (Site.locate_keeps now.keeps located) there
  rw [← List.append_assoc, now.module] at held
  obtain ⟨functionsTitled, classesTitled⟩ := regular.titled names stem bytes documented held
  rw [Module.contents_eq functionsTitled] at read
  obtain ⟨rfl, rfl⟩ := Prod.mk.inj (Except.ok.inj read)
  have functionWords : ∀ name ∈ Module.functionNames (unifyNewlines (Utf8.decodeLenient bytes)), Path.Word name :=
    fun name member => functionsTitled.word name (List.mem_of_mem_filter member)
  have both : ∀ name ∈ Module.functionNames (unifyNewlines (Utf8.decodeLenient bytes)) ++
      Module.classNames (unifyNewlines (Utf8.decodeLenient bytes)), Path.Word name := fun name member =>
    (List.mem_append.mp member).elim (functionWords name) (classesTitled.word name)
  rw [toctree_eq word.dotless rfl both] at append
  have page := appended_written placed free (literal_page words word.page)
    (by rw [← List.append_assoc]; exact head) append
  rw [← List.append_assoc, ← Utf8.bytesOf_append] at page
  refine ⟨listed, filled, bytes, _, rfl, held, before.trans (page.changed ⟨names ++ [stem], List.prefix_refl _, ?_⟩),
    page.here, rounds_functions placed free all rfl functionWords first,
      rounds_classes placed free all rfl classesTitled.word second⟩
  rw [pageNames_snoc, List.append_assoc]

/-- The pages of a module are written, and nothing else. -/
theorem runOn_writeModule_ok (located : site.locate base settings.library = .ok lib)
    (state : Underway site base tree) {previous result : Option Target}
    (run : (writeModule settings (Module.locate settings (Path.walked settings.library names))
      (frameworksFor settings (Path.walked settings.library names)) previous
      (Path.walked settings.library (names ++ [stem ++ (".py" : Text)]))).runOn site tree = (.ok result, after)) :
    Tree.Confined (top site) (Own site names stem) tree after ∧
      ∃ bytes, base.get? (lib ++ names ++ [stem ++ (".py" : Text)]) = some (.file bytes) ∧
        ((Module.functionNames (unifyNewlines (Utf8.decodeLenient bytes)) ++
            Module.classNames (unifyNewlines (Utf8.decodeLenient bytes))).Nodup →
          Paged site settings names stem (unifyNewlines (Utf8.decodeLenient bytes)) after) := by
  obtain ⟨listed, filled, bytes, _, rfl, held, before, page, functions, classes⟩ :=
    runOn_writeModule_stages placed free regular words documented located state run
  have functions := functions.imp fun _ _ _ _ written => written.2
  have classes := classes.imp fun _ _ _ _ written => written.2
  refine ⟨?_, bytes, held, fun distinct => ?_⟩
  · have filling : Tree.Confined (top site) (Own site names stem) listed filled :=
      functions.confined fun _ _ _ _ _ written => written.changed (.member _)
    have closing : Tree.Confined (top site) (Own site names stem) filled after :=
      classes.confined fun _ _ _ _ _ written => written.changed (.member _)
    exact ((before.mono fun _ heading => heading.own).trans filling).trans closing
  · -- pages of different names lie in different places, so none is written over
    obtain ⟨functionsDistinct, classesDistinct, disjoint⟩ := List.nodup_append.mp distinct
    have apart : ∀ {list : List Text}, list.Nodup → list.Pairwise fun name other =>
        top site ++ (names ++ [stem]) ++ [name ++ (".rst" : Text)] ≠ top site ++ (names ++ [stem]) ++
          [other ++ (".rst" : Text)] :=
      fun nodup => nodup.imp fun differs same => differs (by simpa using same)
    have member : ∀ name, top site ++ names ++ [stem ++ (".rst" : Text)] ≠ top site ++ (names ++ [stem]) ++
        [name ++ (".rst" : Text)] := by
      intro name same
      have length := congrArg List.length same
      simp at length
    refine ⟨?_, fun name member => ?_, fun name member => classes.written.2 (apart classesDistinct) name member⟩
    · rw [classes.written.1 _ fun name _ => member name, functions.written.1 _ fun name _ => member name]
      exact page
    · rw [classes.written.1 _ fun other inside same => ?_]
      · exact functions.written.2 (apart functionsDistinct) name member
      · exact disjoint name member other inside (by simpa using same)

end

theorem runOn_writeDirectory_ok (named : ∀ name ∈ names, Path.Named name) {contents directories modules : List Text}
    (run : (writeDirectory settings (Path.walked settings.library names)
      (Path.join folder ((Module.locate settings (Path.walked settings.library names)).relative
        (Path.walked settings.library names))) contents directories modules).runOn site tree = (.ok (), after)) :
    Tree.Confined (top site) (Closing site names) tree after ∧
      (contents.contains "README.rst" = true →
        ∃ text, textAt site tree (Path.join (Path.walked settings.library names) "README.rst") = .ok text ∧
          after.get? (top site ++ pageNames names) = some (.file (Utf8.bytesOf
            (text ++ Toctree.render none [(names.getLastD [], directoryPages settings directories modules)])))) := by
  have single : ∀ name ∈ names, Path.Single name := fun name member => (words name member).single
  have literal := literal_pageNames words
  rw [regular.rooted.relative_walked named named] at run
  unfold writeDirectory at run
  split at run
  · obtain ⟨final, page⟩ := split_save single
    simp only [final, page] at run
    -- the readme is copied first, and the toctree comes behind its text
    by_cases readme : contents.contains "README.rst" = true
    · rw [if_pos readme] at run
      obtain ⟨_, copied, copy, append⟩ := runOn_bind_ok run
      obtain ⟨text, read, write⟩ := runOn_bind_look (runOn_readText site tree _) copy
      have first := written_page placed free literal write
      have second := appended_written placed free literal first.here append
      rw [← Utf8.bytesOf_append] at second
      exact ⟨(first.again second).changed (.directory names), fun _ => ⟨text, read, second.here⟩⟩
    · rw [if_neg readme] at run
      obtain ⟨_, _, written⟩ := appended_page placed free literal run
      exact ⟨written.changed (.directory names), fun held => absurd held readme⟩
  · rename_i without
    cases run
    refine ⟨.refl _ _ _, fun held => absurd ?_ without⟩
    rw [held, Bool.true_or]

end

theorem confined_writeRelated {line : Text} (slashless : .char '/' ∉ line) (plain : line.Plain)
    (run : (writeRelated (replace "\n" "" line ++ (".rst" : Text))).runOn site tree = (.ok (), after)) :
    Tree.Confined (top site) (fun place => ∃ name, place = top site ++ [("docs" : Text), name ++ (".rst" : Text)]) tree
      after := by
  have path : folder ++ ("/docs/" : Text) ++ (replace "\n" "" line ++ (".rst" : Text)) =
      pagePath [("docs" : Text), replace "\n" "" line ++ (".rst" : Text)] := by
    simp [pagePath, join, ofChars]
  have free' : .char '/' ∉ replace "\n" "" line := fun slash =>
    (mem_replace (show ("\n" : Text) ≠ [] by decide) "" slash).elim List.not_mem_nil slashless
  have page : Path.Literal (replace "\n" "" line ++ (".rst" : Text)) :=
    ⟨Path.single_append free' (by decide) (by decide),
      plain_append.mpr ⟨plain.replace _ Plain.nil, plain_ofChars _⟩⟩
  unfold writeRelated at run
  rw [path] at run
  exact (written_page placed free (literal_page word_docs page) run).changed ⟨_, rfl⟩

theorem confined_append {toctree : Toctree} {common : Option Text}
    (run : (toctree.append (folder ++ "/index.rst") common true).runOn site tree = (.ok (), after)) :
    Tree.Confined (top site) (Closing site []) tree after := by
  rw [index_path] at run
  obtain ⟨_, _, written⟩ := appended_page placed free literal_index run
  exact written.changed .index

section
variable {settings : Settings} {base : Tree} (related : Related site settings base) (state : Underway site base tree)
include related state

theorem runOn_finishIndex_ok {toctree : Toctree}
    (run : (finishIndex settings toctree).runOn site tree = (.ok (), after)) :
    ∃ related filled, Tree.Confined (top site) (fun place => ∃ name, place = top site ++ [("docs" : Text),
      name ++ (".rst" : Text)])
        tree filled ∧
      (Toctree.append (Table.put "docs" related toctree) (folder ++ "/index.rst") none true).runOn site filled =
        (.ok (), after) := by
  unfold finishIndex at run
  obtain ⟨lines, read, run⟩ := runOn_bind_look (runOn_readLines site tree _) run
  have slashless := related.confined state read
  have plain := plain_linesAt site tree read
  obtain ⟨_, made, folders, run⟩ := runOn_bind_ok run
  obtain ⟨_, filled, pages, append⟩ := runOn_bind_ok run
  rw [forM_map] at pages
  refine ⟨_, filled, ?_, append⟩
  exact (confined_makePages placed free word_docs folders).trans ((rounds_forM pages).confined
    fun line member _ _ _ step =>
    confined_writeRelated placed free (slashless line member) (plain line member) step)

theorem confined_finishIndex {toctree : Toctree}
    (run : (finishIndex settings toctree).runOn site tree = (.ok (), after)) :
    Tree.Confined (top site) (Closing site []) tree after := by
  obtain ⟨_, filled, pages, append⟩ := runOn_finishIndex_ok placed free related state run
  refine (pages.mono ?_).trans (confined_append placed free append)
  rintro _ ⟨name, rfl⟩
  exact .related name

theorem confined_fillIndex {folders : Toctree} {head : Text}
    (run : (fillIndex settings folders head).runOn site tree = (.ok (), after)) :
    Tree.Confined (top site) (Closing site []) tree after := by
  unfold fillIndex at run
  rw [index_path] at run
  obtain ⟨_, headed, write, run⟩ := runOn_bind_ok run
  have heading : Tree.Confined (top site) (Closing site []) tree headed :=
    (written_page placed free literal_index write).changed .index
  have now := state.next heading fun _ closing => closing.inside
  split at run
  · exact heading.trans (confined_finishIndex placed free related now run)
  · obtain ⟨_, listed, append, run⟩ := runOn_bind_ok run
    rw [← index_path] at append
    have listing : Tree.Confined (top site) (Closing site []) headed listed := confined_append placed free append
    have now := now.next listing fun _ closing => closing.inside
    exact (heading.trans listing).trans (confined_finishIndex placed free related now run)
  · cases run

theorem confined_writeIndex {folders : Toctree}
    (run : (writeIndex settings folders).runOn site tree = (.ok (), after)) :
    Tree.Confined (top site) (Closing site []) tree after := by
  obtain ⟨_, run⟩ := runOn_writeIndex_ok run
  exact confined_fillIndex placed free related state run

theorem index_finished {bytes : Bytes}
    (held : tree.get? (top site ++ [("index.rst" : Text)]) = some (.file bytes)) {toctree : Toctree}
    (run : (finishIndex settings toctree).runOn site tree = (.ok (), after)) :
    ∃ others, Text.Plain (Toctree.render none (Table.put "docs" others toctree)) ∧
      after.get? (top site ++ [("index.rst" : Text)]) =
        some (.file (bytes ++ Utf8.bytesOf (Toctree.render none (Table.put "docs" others toctree)))) := by
  obtain ⟨others, filled, pages, append⟩ := runOn_finishIndex_ok placed free related state run
  have there : filled.get? (top site ++ [("index.rst" : Text)]) = some (.file bytes) := by
    refine pages.kept ?_ held
    rintro ⟨name, same⟩
    exact absurd (congrArg List.length (List.append_cancel_left same)) (by simp)
  rw [index_path] at append
  exact ⟨others, (written_appendText append).1, (appended_written placed free literal_index there append).here⟩

/-- With one section for each directory the index ends with these sections and the related libraries. -/
theorem index_by_directory (heading : settings.heading = .byDirectory) {folders : Toctree}
    (run : (writeIndex settings folders).runOn site tree = (.ok (), after)) :
    ∃ head related, after.get? (top site ++ [("index.rst" : Text)]) =
      some (.file (Utf8.bytesOf (head ++ Toctree.render none (Table.put "docs" related (sections folders))))) := by
  obtain ⟨head, run⟩ := runOn_writeIndex_ok run
  unfold fillIndex at run
  rw [heading, index_path] at run
  obtain ⟨_, headed, write, run⟩ := runOn_bind_ok run
  have written := written_page placed free literal_index write
  have now : Underway site base headed := state.next (written.changed .index) fun _ closing => Closing.inside closing
  obtain ⟨others, _, there⟩ := index_finished placed free related now written.here run
  exact ⟨head, others, by rw [Utf8.bytesOf_append]; exact there⟩

end
end
end Pages
end ApiDocs
