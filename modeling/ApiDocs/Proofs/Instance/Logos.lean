import ApiDocs.Proofs.Instance.Listed
import ApiDocs.Proofs.Pages.Logos

/-! Logos on the pages of methods. A method's page and the copy of a function's page come to lie further down than what
they are made of, and their logos are shown as many levels further up. -/

set_option autoImplicit false

namespace ApiDocs

namespace Text

theorem lines_of_free {text : Text} (proper : text ≠ []) (free : .char '\n' ∉ text) : lines text = [text] := by
  induction text with
  | nil => exact absurd rfl proper
  | cons c text ih =>
    rw [List.mem_cons, not_or] at free
    rw [lines, if_neg fun same => free.1 same.symm]
    by_cases last : text = []
    · rw [last]
      rfl
    · rw [ih last free.2]
      rfl

theorem flatten_replace_lines {old : Text} (proper : old ≠ []) (free : .char '\n' ∉ old) (new text : Text) :
    ((lines text).map (replace old new)).flatten = replace old new text := by
  induction size : text.length using Nat.strongRecOn generalizing text with
  | _ length ih =>
    by_cases more : .char '\n' ∈ text
    · obtain ⟨first, rest, rfl, line⟩ := List.eq_append_cons_of_mem more
      have shorter : rest.length < length := by
        rw [← size, List.length_append, List.length_cons]
        omega
      have single : lines (first ++ [.char '\n']) = [first ++ [.char '\n']] := by
        have whole := @lines_flatten [first ++ [.char '\n']] fun piece member =>
          ⟨first, line, List.mem_singleton.mp member⟩
        rwa [List.flatten_singleton] at whole
      rw [lines_append, single, List.map_append, List.flatten_append, ih _ shorter rest rfl, replace_mark proper free]
      simp [replace_mark proper free, replace_nil proper]
    · by_cases empty : text = []
      · rw [empty, replace_nil proper]
        rfl
      · rw [lines_of_free empty more]
        simp

theorem logosUp_entries {levels : Nat} {folder : Text} (undotted : .char '.' ∉ folder) {files : List Text}
    (slashless : ∀ file ∈ files, .char '/' ∉ file) : LogosUp levels (files.flatMap (Toctree.line folder)) := by
  induction files with
  | nil => exact logosUp_of_slashless List.not_mem_nil
  | cons file files ih =>
    have free := slashless file List.mem_cons_self
    have entry : LogosUp levels ("   " ++ Path.join folder file) := by
      have lead : ∃ lead : Text, Path.join folder file = lead ++ file ∧ .char '.' ∉ lead := by
        unfold Path.join
        rw [if_neg fun head => free (List.mem_of_head? head)]
        split
        · exact ⟨folder, rfl, undotted⟩
        · refine ⟨folder ++ "/", rfl, fun member => ?_⟩
          exact (List.mem_append.mp member).elim undotted (by decide)
      obtain ⟨lead, same, clear⟩ := lead
      rw [same, ← List.append_assoc]
      refine (logosUp_of_slashless free).after_undotted fun member => ?_
      exact (List.mem_append.mp member).elim (by decide) clear
    rw [List.flatMap_cons, Toctree.line, List.append_assoc]
    exact entry.newline (ih fun other member => slashless other (List.mem_cons_of_mem _ member))

theorem logosUp_render {levels : Nat} {folder : Text} (word : Path.Word folder) {files : List Text}
    (slashless : ∀ file ∈ files, .char '/' ∉ file) :
    ∃ rest, Toctree.render (some folder) [(folder, files)] = .char '\n' :: rest ∧ LogosUp levels rest := by
  have caption : .char '/' ∉ Toctree.caption (some folder) folder := by
    unfold Toctree.caption
    dsimp only [Option.getD]
    split
    · decide
    · exact word.slashless
  have head : .char '/' ∉ ("\n.. toctree::\n   :hidden:\n   :maxdepth: -1\n   :caption: " : Text) ++
      Toctree.caption (some folder) folder ++ "\n" :=
    fun member => (List.mem_append.mp member).elim (fun front => (List.mem_append.mp front).elim (by decide) caption)
      (by decide)
  have last : LogosUp levels [] := logosUp_of_slashless List.not_mem_nil
  refine ⟨_, ?_, (logosUp_of_slashless head).newline ((logosUp_entries word.dotless slashless).newline last)⟩
  simp [Toctree.render, Toctree.block, ofChars]

end Text

namespace Instance
open Script Text Pages

/-- A page under another title shows its logos as many levels further up as is asked for. -/
theorem logosUp_retitle {text title : Text} {levels more : Nat} {content : List Text} (up : LogosUp levels text)
    (above : 0 < levels) (slashless : .char '/' ∉ title)
    (retitled : retitle (.char '/' :: times more "../" ++ "logos") title (lines (unifyNewlines text)) = .ok content) :
    LogosUp (levels + more) content.flatten := by
  have raised := (up.unifyNewlines.raise above more)
  rw [← flatten_replace_lines (by decide) (by decide)] at raised
  unfold retitle at retitled
  split at retitled
  · rename_i first second rest cut
    cases retitled
    rw [cut] at raised
    have lower : LogosUp (levels + more) rest.flatten :=
      raised.of_infix ⟨first ++ second, [], by simp⟩
    have ruled : LogosUp (levels + more) (rule (trim '\n' (title ++ "\n")).length ++ rest.flatten) :=
      lower.after_undotted fun member => by cases List.eq_of_mem_replicate member
    have whole := (logosUp_of_slashless slashless).newline ruled
    simpa [ofChars] using whole
  · cases retitled

theorem logosUp_insertDirective {text line : Text} {levels : Nat} {merged : List Text} (up : LogosUp levels text)
    (slashless : .char '/' ∉ line) (ended : WholeLine line)
    (inserted : insertDirective line (lines (unifyNewlines text)) = .ok merged) : LogosUp levels merged.flatten := by
  have whole := up.unifyNewlines
  rw [← flatten_lines (unifyNewlines text)] at whole
  unfold insertDirective at inserted
  split at inserted
  · rename_i place _
    cases inserted
    obtain ⟨body, _, _, rfl⟩ := ended
    have before : LogosUp levels ((lines (unifyNewlines text)).take (place + 1)).flatten :=
      whole.of_infix ⟨[], ((lines (unifyNewlines text)).drop (place + 1)).flatten, by
        rw [List.nil_append, ← List.flatten_append, List.take_append_drop]⟩
    have after : LogosUp levels ((lines (unifyNewlines text)).drop (place + 1)).flatten :=
      whole.of_infix ⟨((lines (unifyNewlines text)).take (place + 1)).flatten, [], by
        rw [List.append_nil, ← List.flatten_append, List.take_append_drop]⟩
    have middle : LogosUp levels body := logosUp_of_slashless fun member => slashless (List.mem_append_left _ member)
    simpa [ofChars] using before.newline (middle.newline after)
  · cases inserted

/-- The text of a page whose logos are as many levels up as its folder asks for. -/
def Raised (settings : Settings) (inner : Place) (text : Text) : Prop := LogosUp (logoLevels settings inner) text

abbrev functionalPlace (site : Site) : Place := top site ++ [("functional" : Text), ("ivy" : Text)]

section
variable {site : Site} {settings : Settings} {lib : Place} {base now after : Tree}

theorem read_illustrated {kind : Place → Text → Prop} (every : now.Every (Shows site lib base id kind)) {inner : Place}
    {last : Text} (illustrated : Illustrated lib base inner last) {path : Text} {lines : List Text}
    (located : site.locate now path = .ok (top site ++ inner ++ [last])) (read : linesAt site now path = .ok lines) :
    ∃ text, kind inner text ∧ lines = Text.lines (unifyNewlines text) := by
  obtain ⟨place, bytes, text, found, decoded, rfl⟩ := (linesAt_eq_ok_iff _ _).mp read
  obtain ⟨located', held⟩ := Site.find_eq_ok_iff.mp found
  cases located.symm.trans located'
  obtain ⟨text', plain, rfl, shown⟩ := every _ _ held inner last illustrated rfl
  cases (Utf8.decodeLines_bytesOf plain).symm.trans decoded
  exact ⟨text, shown, rfl⟩

theorem raised_copy {folder name last : Text} {inner : Place} {pageLines retitled : List Text}
    (function : Path.Word name) (illustrated : Illustrated lib base inner last)
    (whole : (["functional", "ivy", folder, name] : Place) = inner) (final : name ++ ("_functional.rst" : Text) = last)
    (paged : Illustrated lib base ["functional", "ivy", folder] (name ++ (".rst" : Text)) →
      ∃ text, Raised settings ["functional", "ivy", folder] text ∧ pageLines = Text.lines (unifyNewlines text))
    (given : retitle "/../logos" ("ivy." ++ name) pageLines = .ok retitled) :
    Raised settings inner retitled.flatten := by
  cases illustrated with
  | @member names stem last documented own =>
    -- a module's own page of this name is not counted among the pages that show logos
    have parts : (["functional", "ivy", folder] : Place) ++ [name] = names ++ [stem] := whole
    obtain ⟨rfl, same⟩ := List.append_inj' parts rfl
    exact absurd (final.symm.trans (congrArg (· ++ _) (List.cons.inj same).1)) (own rfl)
  | @filed module documented other last =>
    obtain ⟨rfl, rfl⟩ : folder = module ∧ name = other := by simpa using whole
    obtain ⟨text, shown, rfl⟩ := paged (.member documented fun long => absurd long (by decide))
    have title : .char '/' ∉ ("ivy." : Text) ++ name := fun member =>
      (List.mem_append.mp member).elim (by decide) function.slashless
    have above : 0 < logoLevels settings ["functional", "ivy", folder] := Nat.add_pos_left Nat.zero_lt_two _
    have levels : logoLevels settings ["functional", "ivy", folder] + 1 = logoLevels settings ["functional", "ivy",
        folder, name] := by
      simp [logoLevels, Nat.add_right_comm]
    rw [Raised, ← levels]
    exact @logosUp_retitle _ _ _ 1 _ shown above title given

theorem every_filed {type folder name line path : Text} {pageLines : List Text} {method : Except Fault (List Text)}
    (filed : Filed type (functionalPlace site ++ [folder]) name line pageLines method now after)
    (every : now.Every (Shows site lib base id (Raised settings))) (function : Path.Word name)
    (located : site.locate now path = .ok (functionalPlace site ++ [folder] ++ [name ++ (".rst" : Text)]))
    (read : linesAt site now path = .ok pageLines) (slashless : .char '/' ∉ line) (ended : WholeLine line)
    (methods : ∀ content, method = .ok content → LogosUp (settings.library.count (.char '/') + 3) content.flatten) :
    after.Every (Shows site lib base id (Raised settings)) := by
  have paged : Illustrated lib base ["functional", "ivy", folder] (name ++ (".rst" : Text)) →
      ∃ text, Raised settings ["functional", "ivy", folder] text ∧ pageLines = Text.lines (unifyNewlines text) := by
    intro illustrated
    refine read_illustrated every illustrated ?_ read
    rw [located]
    simp
  intro place bytes held inner last illustrated eq
  -- of what filing writes, the folder is no page; the page and the copy have the logos of the page that was read
  by_cases atFolder : place = functionalPlace site ++ [folder] ++ [name]
  · rw [atFolder, filed.opened] at held
    cases held
  by_cases atPage : place = functionalPlace site ++ [folder] ++ [name ++ (".rst" : Text)]
  · obtain ⟨merged, inserted, plain, there⟩ := filed.page
    rw [atPage, there] at held
    cases held
    obtain ⟨front, final⟩ := List.append_inj' (atPage.symm.trans eq) rfl
    obtain rfl : (["functional", "ivy", folder] : Place) = inner :=
      List.append_cancel_left ((List.append_assoc ..).symm.trans front)
    obtain rfl := (List.cons.inj final).1
    obtain ⟨text, shown, rfl⟩ := paged illustrated
    exact ⟨merged.flatten, plain, rfl, logosUp_insertDirective shown slashless ended inserted⟩
  by_cases atCopy : place = copyPlace (functionalPlace site ++ [folder]) name
  · cases before : now.get? (copyPlace (functionalPlace site ++ [folder]) name) with
    | some entry =>
      rw [atCopy, filed.copyKept entry before] at held
      exact every place bytes (atCopy ▸ before.trans held) inner last illustrated eq
    | none =>
      obtain ⟨retitled, given, plain, there⟩ := filed.copied before
      rw [atCopy, there] at held
      cases held
      have cut : top site ++ (["functional", "ivy", folder, name] : Place) ++ [name ++ ("_functional.rst" : Text)] =
          top site ++ id inner ++ [last] := by
        rw [← eq, atCopy]
        simp
      obtain ⟨front, final⟩ := List.append_inj' cut rfl
      exact ⟨retitled.flatten, plain, rfl,
        raised_copy function illustrated (List.append_cancel_left front) (List.cons.inj final).1 paged given⟩
  by_cases atMethod : ∃ other, ending type <:+ other ∧ place = functionalPlace site ++ [folder] ++ [name, other]
  · obtain ⟨other, ends, rfl⟩ := atMethod
    rcases filed.stored other ends with same | ⟨content, given, plain, there⟩
    · exact every _ bytes (same.symm.trans held) inner last illustrated eq
    · rw [there] at held
      cases held
      have cut : top site ++ (["functional", "ivy", folder, name] : Place) ++ [other] =
          top site ++ id inner ++ [last] := by
        rw [← eq]
        simp
      obtain ⟨front, _⟩ := List.append_inj' cut rfl
      obtain rfl : (["functional", "ivy", folder, name] : Place) = inner := List.append_cancel_left front
      refine ⟨content.flatten, plain, rfl, ?_⟩
      have levels : logoLevels settings ["functional", "ivy", folder, name] =
          settings.library.count (.char '/') + 3 := by
        simp [logoLevels, Nat.add_comm]
      rw [Raised, levels]
      exact methods content given
  · rw [filed.others place atFolder atPage atCopy fun other ends same => atMethod ⟨other, ends, same⟩] at held
    exact every place bytes held inner last illustrated eq

/-- The page of a method that can be merged and shows the logos as its own folder asks for. -/
structure Displayed (site : Site) (settings : Settings) (start : Tree) (path stubs file : Text) : Prop
    extends Mergeable site start (functionalPlace site) path stubs file where
  shown : ∃ text, linesAt site start (Path.join path file) = .ok (lines (unifyNewlines text)) ∧
    LogosUp (settings.library.count (.char '/') + 1) text ∧ Directed text

def FunctionPath (page : Text) : Prop := ∃ folder name, Path.Word name ∧ page = Path.join folder (name ++ ".rst")

section
variable {start : Tree} {type path stubs functional : Text} (placed : site.Sound)
  (located : site.locate start functional = .ok (functionalPlace site))
    (opened : start.get? (functionalPlace site) = some .directory)
  (classes : type = "array" ∨ type = "container")
include placed located opened classes

theorem every_mergePage {file : Text} {result : Option Text} (displayed : Displayed site settings start path stubs file)
    (beside : Beside start (functionalPlace site) now) (every : now.Every (Shows site lib base id (Raised settings)))
    (run : (mergePage type path stubs functional file).runOn site now = (.ok result, after)) :
    Beside start (functionalPlace site) after ∧ after.Every (Shows site lib base id (Raised settings)) ∧
      ∀ page ∈ result, FunctionPath page := by
  obtain ⟨text, read, up, directed⟩ := displayed.shown
  obtain ⟨_, read', outcome⟩ := beside.merged placed located opened classes displayed.toMergeable.filable run
  cases read.symm.trans read'
  rcases outcome with ⟨rfl, rfl, _⟩ |
    ⟨line, raw, folder, pageLines, first, named, _, _, function, rfl, paged, readPage, filed⟩
  · exact ⟨beside, every, fun page some => by cases some⟩
  have member := List.mem_of_find?_eq_some first
  have slashless := directed line member (List.find?_some first)
  have ended := wholeLine_of_mem member (displayed.ended _ line read first)
  have title : .char '/' ∉ ("ivy." : Text) ++ capitalize type ++ "." ++ raw := by
    rw [List.mem_append, not_or]
    refine ⟨?_, fun slash => slashless (trim_subset _ _ ((directiveName_eq_ok named).1 slash))⟩
    rcases classes with rfl | rfl <;> decide
  refine ⟨beside.filed filed, every_filed filed every function paged readPage slashless ended fun content retitled =>
    ?_, ?_⟩
  · exact @logosUp_retitle _ _ _ 2 _ up (Nat.succ_pos _) title retitled
  · intro page same
    cases same
    exact ⟨_, _, function, rfl⟩

theorem every_rounds {files pages : List Text}
    (displayed : ∀ file ∈ files, Displayed site settings start path stubs file)
    (beside : Beside start (functionalPlace site) now) (every : now.Every (Shows site lib base id (Raised settings)))
    (run : (files.filterMapM (mergePage type path stubs functional)).runOn site now = (.ok pages, after)) :
    Beside start (functionalPlace site) after ∧ after.Every (Shows site lib base id (Raised settings)) ∧
      ∀ page ∈ pages, FunctionPath page := by
  induction files generalizing now pages with
  | nil =>
    cases run
    exact ⟨beside, every, fun page member => absurd member List.not_mem_nil⟩
  | cons file files ih =>
    obtain ⟨result, between, others, first, later, rfl⟩ := runOn_filterMapM_cons_ok run
    obtain ⟨beside', every', function⟩ :=
      every_mergePage placed located opened classes (displayed file List.mem_cons_self) beside every first
    obtain ⟨done, kept, functions⟩ := ih (fun file member => displayed file (List.mem_cons_of_mem _ member))
      beside' every' later
    refine ⟨done, kept, fun page member => ?_⟩
    exact (List.mem_append.mp member).elim (fun own => function page (by simpa using own)) (functions page)

theorem every_merge {files pages : List Text}
    (displayed : ∀ file ∈ files, Displayed site settings start path stubs file)
    (beside : Beside start (functionalPlace site) now) (every : now.Every (Shows site lib base id (Raised settings)))
    (run : (merge type path files stubs functional).runOn site now = (.ok pages, after)) :
    Beside start (functionalPlace site) after ∧ after.Every (Shows site lib base id (Raised settings)) ∧
      ∀ page ∈ pages, FunctionPath page := by
  obtain ⟨results, _, rounds, sorted⟩ := runOn_bind_ok run
  cases sorted
  simp only [mem_sortDistinct]
  exact every_rounds placed located opened classes displayed beside every rounds

end

theorem preserves_listFolder {page : Text} (function : FunctionPath page) :
    Preserves site (Tree.Holds (Shows site lib base id (Raised settings))) (listFolder page) := by
  obtain ⟨folder, name, word, rfl⟩ := function
  unfold listFolder
  dsimp only
  rw [upTo_join_page folder word, Path.base_join _ word.slashless]
  refine (Maintains.names (fun _ holds => holds.sound) _).bind fun listed named => ?_
  have ordered : Maintains site (Tree.Holds (Shows site lib base id (Raised settings))) (fun files => ∀ file ∈ files,
    .char '/' ∉ file)
      (Script.ofExcept id (functionalFirst listed)) :=
    Maintains.look (runOn_ofExcept_id site · _) fun _ files _ given file member => by
      obtain ⟨_, _, _, _, same, _⟩ := functionalFirst_eq_ok_iff.mp given
      exact (named file (same.mem_iff.mp member)).noSlash
  refine ordered.bind fun files slashless => preserves_appendText_holds ?_ ?_
  · exact fun place inner last _ _ => ⟨[], Plain.nil, rfl, logosUp_of_slashless List.not_mem_nil⟩
  · intro tree place bytes _ plain fits inner last illustrated eq
    obtain ⟨text, plainText, rfl, up⟩ := fits inner last illustrated eq
    obtain ⟨rest, same, below⟩ := @logosUp_render (logoLevels settings inner) name word files slashless
    refine ⟨text ++ Toctree.render (some name) [(name, files)], plain_append.mpr ⟨plainText, plain⟩,
      (Utf8.bytesOf_append _ _).symm, ?_⟩
    rw [Raised, same]
    exact up.newline below

def methodsFolder (settings : Settings) (type : Text) : Text :=
  Path.walked settings.here [folder, type, type ++ "_methods"]

def MethodsMergeable (site : Site) (settings : Settings) (tree : Tree) : Prop :=
  ∀ type stubs : Text, type = "array" ∨ type = "container" →
    textAt site tree (Path.walked settings.library [type, type ++ "_methods.py"]) = .ok stubs →
      ∀ file ∈ tree.names (top site ++ [type, type ++ ("_methods" : Text)]),
        Mergeable site tree (functionalPlace site) (methodsFolder settings type) stubs file

section
variable {start : Tree} (prepared : Prepared site settings lib base) (clear : site.Clear)
  (above : ∀ name ∈ site.start, Path.Named name) (here : settings.here = site.here) (state : Underway site base start)
  (every : start.Every (Shows site lib base id (Fresh settings))) (mergeable : MethodsMergeable site settings start)

include prepared state in
theorem documented_stubs {type stubs : Text} (classes : type = "array" ∨ type = "container")
    (read : textAt site start (Path.walked settings.library [type, type ++ "_methods.py"]) = .ok stubs) :
    Documented lib base [type] (type ++ ("_methods" : Text)) := by
  obtain ⟨place, bytes, _, found, _⟩ := (textAt_eq_ok_iff _ _).mp read
  obtain ⟨located, held⟩ := Site.find_eq_ok_iff.mp found
  have named : ∀ name ∈ [type, type ++ ("_methods.py" : Text)], Path.Named name := by
    rcases classes with rfl | rfl <;> exact Path.named_of_all (by decide)
  have same := Site.locate_walked prepared.placed named (Site.locate_keeps state.keeps prepared.located) located
  constructor
  · rw [← state.module (lib ++ [type]), List.append_assoc, List.append_assoc, List.singleton_append]
    exact Option.isSome_iff_exists.mpr ⟨_, same ▸ held⟩
  · rcases classes with rfl | rfl <;> decide

include prepared clear above here state every mergeable

theorem displayed_methods {type stubs : Text} (classes : type = "array" ∨ type = "container")
    (read : textAt site start (Path.walked settings.library [type, type ++ "_methods.py"]) = .ok stubs) {place : Place}
    (located : site.locate start (methodsFolder settings type) = .ok place) :
    ∀ file ∈ start.names place, Displayed site settings start (methodsFolder settings type) stubs file := by
  have sound := state.sound prepared.regular.sound
  have known : ∀ name ∈ [folder, type, type ++ ("_methods" : Text)], Path.Named name := by
    rcases classes with rfl | rfl <;> exact Path.named_of_all (by decide)
  have folder' : place = top site ++ [type, type ++ ("_methods" : Text)] := by
    rw [methodsFolder, here] at located
    rw [clear.eq_of_locate_here above known located]
    simp [top]
  intro file member
  have able := mergeable type stubs classes read file (folder' ▸ member)
  obtain ⟨page, bytes, found, _⟩ := able.outside
  obtain ⟨located', held⟩ := Site.find_eq_ok_iff.mp found
  have named : ∀ name ∈ [folder, type, type ++ ("_methods" : Text)] ++ [file], Path.Named name := by
    intro name inside
    rcases List.mem_append.mp inside with inside | last
    · exact known name inside
    · exact List.mem_singleton.mp last ▸ sound.named place file (Tree.mem_names.mp member)
  have same : page = top site ++ [type, type ++ ("_methods" : Text)] ++ [file] := by
    rw [methodsFolder, here, ← Path.walked_snoc] at located'
    rw [clear.eq_of_locate_here above named located']
    simp [top]
  obtain ⟨text, plain, rfl, up, directed⟩ := every page bytes held _ file
    (.member (documented_stubs prepared state classes read) fun long => absurd long (by simp)) same
  refine ⟨able, text, (linesAt_eq_ok_iff _ _).mpr ⟨_, _, _, found, Utf8.decodeLines_bytesOf plain, rfl⟩, ?_, directed⟩
  rwa [logoLevels, Nat.add_comm] at up

/-- When the methods have been merged every page shows its logos as many levels up as its folder asks for. -/
theorem holds_mergeAll (functional : site.find start (Path.walked settings.here [folder, "functional", "ivy"]) =
      .ok (functionalPlace site, .directory)) (run : (mergeAll settings).runOn site start = (.ok (), after)) :
    after.Holds (Shows site lib base id (Raised settings)) := by
  obtain ⟨located, opened⟩ := Site.find_eq_ok_iff.mp functional
  unfold mergeAll at run
  obtain ⟨arrayStubs, readArrays, run⟩ := runOn_bind_look (runOn_readText _ _ _) run
  obtain ⟨containerStubs, readContainers, run⟩ := runOn_bind_look (runOn_readText _ _ _) run
  obtain ⟨arrayFiles, _, listing, run⟩ := runOn_bind_ok run
  obtain ⟨unchanged, arrayPlace, arraysAt, _, rfl⟩ := runOn_names_ok listing
  rw [unchanged] at run
  obtain ⟨containerFiles, _, listing, run⟩ := runOn_bind_ok run
  obtain ⟨unchanged, containerPlace, containersAt, _, rfl⟩ := runOn_names_ok listing
  rw [unchanged] at run
  obtain ⟨fromContainers, between, containers, run⟩ := runOn_bind_ok run
  obtain ⟨fromArrays, merged, arrays, listed⟩ := runOn_bind_ok run
  have sound := state.sound prepared.regular.sound
  have begin : Beside start (functionalPlace site) start := ⟨sound, fun _ held => held, fun _ _ => rfl⟩
  have raised : start.Every (Shows site lib base id (Raised settings)) := by
    refine every.mono fun place bytes shows inner last illustrated eq => ?_
    obtain ⟨text, plain, same, fresh⟩ := shows inner last illustrated eq
    exact ⟨text, plain, same, fresh.1⟩
  obtain ⟨halfway, kept, containerPages⟩ := every_merge prepared.placed located opened (.inr rfl)
    (fun file member => displayed_methods prepared clear above here state every mergeable (.inr rfl) readContainers
      containersAt file
      ((site.arrange_perm _ _).mem_iff.mp member)) begin raised containers
  obtain ⟨done, kept, arrayPages⟩ := every_merge prepared.placed located opened (.inl rfl)
    (fun file member => displayed_methods prepared clear above here state every mergeable (.inl rfl)
      readArrays arraysAt file
      ((site.arrange_perm _ _).mem_iff.mp member)) halfway kept arrays
  have listing : Preserves site (Tree.Holds (Shows site lib base id (Raised settings)))
      ((sortDistinct (fromContainers ++ fromArrays)).forM listFolder) := by
    refine .forM fun page member => preserves_listFolder ?_
    exact (List.mem_append.mp (mem_sortDistinct.mp member)).elim (containerPages page) (arrayPages page)
  exact listing.keeps ⟨done.sound, kept⟩ listed

end

end

end Instance
end ApiDocs
