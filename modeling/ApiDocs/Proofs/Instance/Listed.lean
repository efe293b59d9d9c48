import ApiDocs.Proofs.Instance.Merged
import ApiDocs.Proofs.Instance.Twice
import Mathlib.Data.List.Perm.Basic

/-! The table of contents of a function's folder. Every function's page that gets a method lists its folder at the end:
the first file that is listed with the word for functional pages in its name, then the others in order. That word may be
in the name of the function itself, so the functional page comes first in every listing exactly if no other file has
it. -/

set_option autoImplicit false

namespace ApiDocs.Instance

open Script Text

/-- The functional page is the first file with the word in its name, and the others come after it in order. -/
theorem functionalFirst_eq_ok_iff {files ordered : List Text} :
    functionalFirst files = .ok ordered ↔ ∃ first rest, ordered = first :: rest ∧
      files.find? (mentions "functional") = some first ∧ ordered.Perm files ∧
      rest.Pairwise fun one two => le one two = true := by
  unfold functionalFirst
  cases found : files.findIdx? (mentions "functional") with
  | none =>
    have none : files.find? (mentions "functional") = none := by
      rw [List.find?_eq_none]
      simpa using List.findIdx?_eq_none_iff.mp found
    simp only [none, reduceCtorEq, false_and, and_false, exists_false]
  | some place =>
    obtain ⟨inside, mentioned, before⟩ := List.findIdx?_eq_some_iff_getElem.mp found
    have first : files.find? (mentions "functional") = some files[place] :=
      List.find?_eq_some_iff_getElem.mpr ⟨mentioned, place, inside, rfl,
        fun early less => by simpa using before early less⟩
    have shared : (files[place] :: files.eraseIdx place).Perm files := List.getElem_cons_eraseIdx_perm inside
    have given : files[place]?.getD [] = files[place] := by rw [List.getElem?_eq_getElem inside, Option.getD_some]
    simp only [given, Except.ok.injEq, first, Option.some.injEq]
    constructor
    · rintro rfl
      exact ⟨_, _, rfl, rfl, ((sort_perm _).cons _).trans shared, sorted_sort _⟩
    · rintro ⟨_, rest, rfl, rfl, same, sorted⟩
      have others : rest.Perm (files.eraseIdx place) := List.perm_cons _ |>.mp (same.trans shared.symm)
      rw [(sort_eq_iff others).mpr sorted]

/-- A file comes first in every listing exactly if it is the only one with the word in its name. -/
theorem functionalFirst_listings {files : List Text} {copy : Text} (member : copy ∈ files)
    (mentioned : mentions "functional" copy = true) :
    (∀ listed, listed.Perm files → ∃ others, functionalFirst listed = .ok (copy :: others)) ↔
      ∀ file ∈ files, mentions "functional" file = true → file = copy := by
  constructor
  · intro always file inside named
    -- a listing may begin with the file
    obtain ⟨others, ordered⟩ := always _ (List.perm_cons_erase inside).symm
    obtain ⟨_, _, same, first, _⟩ := functionalFirst_eq_ok_iff.mp ordered
    rw [List.find?_cons_of_pos named, (List.cons.inj same).1.symm] at first
    exact Option.some.inj first
  · intro only listed same
    cases first : listed.find? (mentions "functional") with
    | none => exact absurd mentioned (List.find?_eq_none.mp first copy (same.mem_iff.mpr member))
    | some found =>
      obtain rfl := only found (same.mem_iff.mp (List.mem_of_find?_eq_some first)) (List.find?_some first)
      refine ⟨sort (listed.erase found), functionalFirst_eq_ok_iff.mpr ⟨_, _, rfl, first, ?_, sorted_sort _⟩⟩
      exact ((sort_perm _).cons _).trans (List.perm_cons_erase (List.mem_of_find?_eq_some first)).symm

def entryLine (name file : Text) : Text := "   " ++ name ++ "/" ++ file ++ "\n"

def listing (name : Text) (files : List Text) : Text :=
  "\n\n.. toctree::\n   :hidden:\n   :maxdepth: -1\n   :caption: " ++ Toctree.caption (some name) name ++ "\n\n" ++
    files.flatMap (entryLine name) ++ "\n"

theorem render_eq_listing {name : Text} (word : Path.Word name) {files : List Text}
    (named : ∀ file ∈ files, Path.Named file) :
    Toctree.render (some name) [(name, files)] = listing name files := by
  have lines : files.flatMap (Toctree.line name) = files.flatMap (entryLine name) := by
    refine List.flatMap_congr fun file member => ?_
    have bare : name.getLast? ≠ some (.char '/') := fun last => word.slashless (List.mem_of_getLast? last)
    rw [Toctree.line, Path.join_open (named file member).head? word.proper bare]
    simp [entryLine, ofChars]
  simp [Toctree.render, Toctree.block, listing, lines, ofChars]

abbrev pagePath (functional module name : Text) : Text := Path.join (Path.join functional module) (name ++ ".rst")

abbrev pagePlace (outer : Place) (module name : Text) : Place := outer ++ [module, name ++ (".rst" : Text)]

theorem upTo_join_page (folder : Text) {name : Text} (word : Path.Word name) :
    upTo (Path.join folder (name ++ ".rst")) (-4) = Path.join folder name := by
  have relative : ∀ more : Text, (name ++ more).head? ≠ some (.char '/') := by
    intro more head
    rw [List.head?_append_of_ne_nil _ word.proper] at head
    exact word.slashless (List.mem_of_head? head)
  have joined : Path.join folder (name ++ ".rst") = Path.join folder name ++ ".rst" := by
    have bare := relative []
    rw [List.append_nil] at bare
    exact (Path.join_ending folder bare (by decide)).symm
  have length : bound (Path.join folder name ++ (".rst" : Text)).length (-4) = (Path.join folder name).length := by
    have four : ((".rst" : Text)).length = 4 := by decide
    rw [List.length_append, four]
    unfold bound
    split <;> omega
  rw [joined, upTo, length, List.take_left']
  rfl

theorem pagePath_inj {functional module name module' name' : Text} (word : Path.Word module) (word' : Path.Word module')
    (function : Path.Word name) (function' : Path.Word name')
    (same : pagePath functional module name = pagePath functional module' name') : module = module' ∧ name = name' := by
  have slashless : ∀ {text : Text}, Path.Word text → .char '/' ∉ text ++ (".rst" : Text) :=
    fun word member => (List.mem_append.mp member).elim word.slashless (by decide)
  have names : name = name' := by
    have bases := congrArg Path.base same
    rw [Path.base_join _ (slashless function), Path.base_join _ (slashless function')] at bases
    exact List.append_cancel_right bases
  -- the folders of the modules do not end with a slash
  have spelled : ∀ {text : Text}, Path.Word text →
      pagePath functional text name' = Path.join functional text ++ .char '/' :: (name' ++ (".rst" : Text)) := by
    intro text word
    obtain ⟨lead, cut⟩ := Path.suffix_join functional text
    refine Path.join_open (fun first => slashless function' (List.mem_of_head? first)) ?_ fun last => ?_
    · rw [← cut]
      exact List.append_ne_nil_of_right_ne_nil _ word.proper
    · rw [← cut, List.getLast?_append_of_ne_nil _ word.proper] at last
      exact word.slashless (List.mem_of_getLast? last)
  rw [names, spelled word, spelled word'] at same
  have modules := congrArg Path.base (List.append_cancel_right same)
  rw [Path.base_join _ word.slashless, Path.base_join _ word'.slashless] at modules
  exact ⟨modules, names⟩

structure FunctionPage (site : Site) (tree : Tree) (functional : Text) (outer : Place) (module name : Text) : Prop where
  folder : Path.Word module
  word : Path.Word name
  located : site.locate tree (Path.join functional module) = .ok (outer ++ [module])
  page : (tree.get? (pagePlace outer module name)).isSome = true

section
variable {site : Site} {tree now after : Tree} {functional : Text} {outer : Place} {module name : Text}

theorem FunctionPage.inside (function : FunctionPage site tree functional outer module name) (sound : tree.Sound) :
    tree.get? (outer ++ [module]) = some .directory :=
  sound.parent (outer ++ [module]) _ (by rw [List.append_assoc]; exact function.page)

theorem FunctionPage.shape (function : FunctionPage site tree functional outer module name)
    (same : tree.SameShape now) :
    FunctionPage site now functional outer module name :=
  ⟨function.folder, function.word, site.locate_shape same _ ▸ function.located, same.present _ ▸ function.page⟩

/-- A function's page with the table of contents of the function's folder at its end. -/
def Listed (site : Site) (outer : Place) (module name : Text) (now after : Tree) : Prop :=
  ∃ bytes files, now.get? (pagePlace outer module name) = some (.file bytes) ∧
    functionalFirst (site.arrange (outer ++ [module, name]) (now.names (outer ++ [module, name]))) = .ok files ∧
    after.get? (pagePlace outer module name) = some (.file (bytes ++ Utf8.bytesOf (listing name files)))

theorem listed_listFolder (placed : site.Sound) (sound : now.Sound)
    (function : FunctionPage site now functional outer module name)
    (run : (listFolder (pagePath functional module name)).runOn site now = (.ok (), after)) :
    Listed site outer module name now after ∧ now.SameShape after ∧
      ∀ other, other ≠ pagePlace outer module name → after.get? other = now.get? other := by
  have inside := function.inside sound
  unfold listFolder at run
  dsimp only at run
  rw [upTo_join_page _ function.word, Path.base_join _ function.word.slashless] at run
  obtain ⟨listed, _, names, run⟩ := runOn_bind_ok run
  obtain ⟨unchanged, folder, found, _, rfl⟩ := runOn_names_ok names
  rw [unchanged] at run
  obtain rfl := Site.locate_join_plain placed function.word.single function.word.plain function.located inside found
  obtain ⟨files, ordered, run⟩ := runOn_bind_look (runOn_ofExcept_id _ _ _) run
  obtain ⟨_, place, bytes, writable, rfl⟩ := runOn_appendText_ok _ _ run
  obtain ⟨_, aimed, held⟩ := writable_eq_ok_iff.mp writable
  have single : Path.Single (name ++ (".rst" : Text)) :=
    Path.single_append function.word.slashless (by decide) (by decide)
  have plain : Text.Plain (name ++ (".rst" : Text)) := plain_append.mpr ⟨function.word.plain, plain_ofChars _⟩
  obtain rfl := Site.locate_join_plain placed single plain function.located inside aimed
  rw [List.append_assoc, List.singleton_append] at held ordered
  have page : now.get? (pagePlace outer module name) = some (.file bytes) :=
    held.resolve_right fun vacant => absurd function.page (by simp [vacant.1])
  -- what is listed are names of the tree, so none of them brings a slash along
  have named : ∀ file ∈ files, Path.Named file := by
    intro file member
    obtain ⟨_, _, _, _, same, _⟩ := functionalFirst_eq_ok_iff.mp ordered
    exact sound.named _ file (Site.mem_listed.mp (same.mem_iff.mp member))
  rw [if_pos rfl, render_eq_listing function.word named, List.append_assoc, List.singleton_append]
  exact ⟨⟨bytes, files, page, ordered, Tree.get?_put_file _ page⟩, Tree.sameShape_put page _,
    fun other apart => Tree.get?_put_apart _ _ (Ne.symm apart)⟩

theorem listed_forM (placed : site.Sound) {pages : List Text} (distinct : pages.Nodup) (sound : now.Sound)
    (functions : ∀ page ∈ pages, ∃ module name, FunctionPage site now functional outer module name ∧
      page = pagePath functional module name)
    (run : (pages.forM listFolder).runOn site now = (.ok (), after)) :
    now.SameShape after ∧
      (∀ module name, FunctionPage site now functional outer module name → pagePath functional module name ∈ pages →
        Listed site outer module name now after) ∧
      ∀ other, (∀ module name, FunctionPage site now functional outer module name →
        pagePath functional module name ∈ pages →
        other ≠ pagePlace outer module name) → after.get? other = now.get? other := by
  induction pages generalizing now with
  | nil =>
    cases run
    exact ⟨.refl _, fun _ _ _ member => absurd member List.not_mem_nil, fun _ _ => rfl⟩
  | cons page pages ih =>
    obtain ⟨apart, rest⟩ := List.nodup_cons.mp distinct
    obtain ⟨module, name, function, rfl⟩ := functions page List.mem_cons_self
    obtain ⟨_, between, first, later⟩ := runOn_bind_ok run
    obtain ⟨listed, same, kept⟩ := listed_listFolder placed sound function first
    obtain ⟨same', all, others⟩ := ih rest (same.sound sound) (fun page member => by
      obtain ⟨module, name, function, rfl⟩ := functions page (List.mem_cons_of_mem _ member)
      exact ⟨module, name, function.shape same, rfl⟩) later
    -- another path is another place
    have away : ∀ {other last : Text}, pagePath functional other last ∈ pages →
        pagePlace outer other last ≠ pagePlace outer module name := by
      intro other last member equal
      simp only [List.append_cancel_left_eq, List.cons.injEq, and_true, List.append_cancel_right_eq] at equal
      rw [equal.1, equal.2] at member
      exact apart member
    refine ⟨same.trans same', fun other last function' member => ?_, fun place away' => ?_⟩
    · rcases List.mem_cons.mp member with own | inside
      · obtain ⟨rfl, rfl⟩ := pagePath_inj function'.folder function.folder function'.word function.word own
        obtain ⟨bytes, files, held, ordered, written⟩ := listed
        exact ⟨bytes, files, held, ordered, (others _ fun _ _ _ inside => Ne.symm (away inside)).trans written⟩
      · obtain ⟨bytes, files, held, ordered, written⟩ := all other last (function'.shape same) inside
        rw [kept _ (away inside)] at held
        rw [← same.names] at ordered
        exact ⟨bytes, files, held, ordered, written⟩
    · rw [others place fun other last function' inside =>
        away' other last (function'.shape same.symm) (List.mem_cons_of_mem _ inside),
        kept place (away' module name function List.mem_cons_self)]

end

theorem plain_moduleOf {stubs : Text} (plain : stubs.Plain) (raw : Text) : (moduleOf stubs raw).Plain :=
  Plain.afterLast ((plain.since _).of_subset (List.takeWhile_prefix _).subset) _

def Joins (site : Site) (tree : Tree) (functional : Text) (outer : Place) (path stubs module name file : Text) : Prop :=
  (tree.get? (pagePlace outer module name)).isSome = true ∧
    (contribution site tree (outer ++ [module]) name path stubs functional file).isSome = true

def NamesFunction (site : Site) (tree : Tree) (path stubs file : Text) : Prop :=
  ∀ lines line raw, linesAt site tree (Path.join path file) = .ok lines → lines.find? isDirective = some line →
    directiveName line = .ok raw →
      (moduleOf stubs raw ≠ [] ∧ .char '/' ∉ moduleOf stubs raw) ∧ baseName raw ≠ [] ∧ .char '/' ∉ baseName raw

/-- A page in the folder of a data class's methods, which lies outside the functions' pages. -/
structure MethodPage (site : Site) (tree : Tree) (outer : Place) (path stubs file : Text) : Prop where
  entry : Path.Named file
  folder : ∃ place, site.find tree path = .ok (place, .directory) ∧ ¬outer <+: place ++ [file]
  named : NamesFunction site tree path stubs file

theorem MethodPage.filable {site : Site} {base now : Tree} {outer : Place} {path stubs file : Text}
    (placed : site.Sound) (page : MethodPage site base outer path stubs file) (beside : Beside base outer now)
    {lines : List Text} (read : linesAt site now (Path.join path file) = .ok lines) :
    Filable site base outer path stubs file := by
  obtain ⟨folder, there, apart⟩ := page.folder
  obtain ⟨located, inside⟩ := Site.find_eq_ok_iff.mp there
  obtain ⟨place, bytes, _, found, _⟩ := (linesAt_eq_ok_iff _ _).mp read
  obtain ⟨located', held⟩ := Site.find_eq_ok_iff.mp found
  have short : Path.size (Path.join path file) ≤ Path.pathLimit := by
    obtain ⟨known, _, _, accepted, _⟩ := Site.locate_eq_ok_iff.mp located'
    exact Path.size_le_of_accept accepted
  have leads := Site.locate_join placed page.entry located inside short
  cases (Site.locate_keeps beside.keeps leads).symm.trans located'
  refine ⟨page.entry.noSlash, ⟨_, bytes, Site.find_eq_ok_iff.mpr ⟨leads, ?_⟩, apart⟩, page.named⟩
  rw [← beside.outside _ apart, held]

/-- Outside the functions' pages nothing has changed, nothing is missing, and there are no new pages in the folders of
the modules. -/
structure Grown (base : Tree) (outer : Place) (now : Tree) : Prop extends Beside base outer now where
  present : ∀ place, (base.get? place).isSome = true → (now.get? place).isSome = true
  unmade : ∀ module name : Text, (now.get? (pagePlace outer module name)).isSome = true →
    (base.get? (pagePlace outer module name)).isSome = true

theorem Filed.present {type name line : Text} {folder : Place} {lines : List Text} {method : Except Fault (List Text)}
    {now after : Tree} (filed : Filed type folder name line lines method now after) {place : Place}
    (there : (now.get? place).isSome = true) : (after.get? place).isSome = true := by
  by_cases atFolder : place = folder ++ [name]
  · rw [atFolder, filed.opened]
    rfl
  by_cases atPage : place = folder ++ [name ++ (".rst" : Text)]
  · obtain ⟨_, _, _, page⟩ := filed.page
    rw [atPage, page]
    rfl
  by_cases atCopy : place = copyPlace folder name
  · obtain ⟨entry, held⟩ := Option.isSome_iff_exists.mp (atCopy ▸ there)
    rw [atCopy, filed.copyKept entry held]
    rfl
  by_cases atMethod : ∃ last, ending type <:+ last ∧ place = folder ++ [name, last]
  · obtain ⟨last, ends, rfl⟩ := atMethod
    rcases filed.stored last ends with same | ⟨_, _, _, stored⟩
    · rwa [same]
    · rw [stored]
      rfl
  · rwa [filed.others place atFolder atPage atCopy fun last ends same => atMethod ⟨last, ends, same⟩]

/-- Pages of methods have been filed, under the functions that they belong to. -/
structure Gathered (base : Tree) (functional : Text) (outer : Place) (takes : Text → Text → Prop) (pages : List Text)
    (now after : Tree) : Prop extends Grown base outer after where
  grows : ∀ place, (now.get? place).isSome = true → (after.get? place).isSome = true
  given : ∀ page, page ∈ pages ↔ ∃ module name, takes module name ∧ page = pagePath functional module name
  copied : ∀ module name, takes module name → (after.get? (copyPlace (outer ++ [module]) name)).isSome = true

section
variable {base now between after : Tree} {functional : Text} {outer : Place} {takes takes' : Text → Text → Prop}
  {pages pages' : List Text}

theorem Gathered.nil (grown : Grown base outer now) : Gathered base functional outer (fun _ _ => False) [] now now where
  toGrown := grown
  grows := fun _ there => there
  given := fun _ => by simp
  copied := fun _ _ impossible => impossible.elim

theorem Gathered.append (first : Gathered base functional outer takes pages now between)
    (second : Gathered base functional outer takes' pages' between after) :
    Gathered base functional outer (fun module name => takes module name ∨
      takes' module name) (pages ++ pages') now after where
  toGrown := second.toGrown
  grows := fun place there => second.grows place (first.grows place there)
  given := fun page => by
    rw [List.mem_append, first.given, second.given]
    simp only [or_and_right, exists_or]
  copied := fun module name taken => taken.elim (fun early => second.grows _ (first.copied module name early))
    (second.copied module name)

theorem Gathered.congr (gathered : Gathered base functional outer takes pages now after)
    (same : ∀ page, page ∈ pages' ↔ page ∈ pages) (agree : ∀ module name, takes' module name ↔ takes module name) :
    Gathered base functional outer takes' pages' now after where
  toGrown := gathered.toGrown
  grows := gathered.grows
  given := fun page => by simp only [same, gathered.given, agree]
  copied := fun module name taken => gathered.copied module name ((agree module name).mp taken)

end

section
variable {site : Site} {base now after : Tree} {functional type path stubs : Text} {outer : Place}
  (placed : site.Sound) (located : site.locate base functional = .ok outer) (opened : base.get? outer = some .directory)
  (classes : type = "array" ∨ type = "container") (plain : stubs.Plain)
include placed located opened plain

theorem Joins.function {module name file : Text} (proper : NamesFunction site base path stubs file)
    (joins : Joins site base functional outer path stubs module name file) :
    FunctionPage site base functional outer module name := by
  obtain ⟨line, contributed⟩ := Option.isSome_iff_exists.mp joins.2
  obtain ⟨lines, raw, read, first, named, _, found, rfl⟩ := contribution_eq_some_iff.mp contributed
  obtain ⟨⟨proper, slashless⟩, nonempty, bare⟩ := proper lines line raw read first named
  have own : outer ++ [module] = outer ++ [moduleOf stubs raw] :=
    Site.locate_join_plain placed (single_moduleOf proper slashless) (plain_moduleOf plain raw) located opened found
  obtain rfl : module = moduleOf stubs raw := by simpa using own
  obtain ⟨_, _, text, _, decoded, rfl⟩ := (linesAt_eq_ok_iff _ _).mp read
  have word := function_of_directive (Utf8.plain_of_decodeLines decoded).unifyNewlines (List.mem_of_find?_eq_some first)
    named nonempty bare
  exact ⟨⟨plain_moduleOf plain raw, proper, slashless, (afterLast_spec _ _).1⟩, word, found, joins.1⟩

include classes in
/-- Filing one page files it under the function that it belongs to. -/
theorem gathered_mergePage {file : Text} {result : Option Text} (sound : base.Sound)
    (page : MethodPage site base outer path stubs file) (grown : Grown base outer now)
    (run : (mergePage type path stubs functional file).runOn site now = (.ok result, after)) :
    Gathered base functional outer (Joins site base functional outer path stubs · · file) result.toList now after := by
  obtain ⟨_, readNow, _⟩ := runOn_mergePage_ok run
  have filable := page.filable placed grown.toBeside readNow
  obtain ⟨lines, read, outcome⟩ := grown.toBeside.merged placed located opened classes filable run
  rcases outcome with ⟨rfl, rfl, passed⟩ |
    ⟨line, raw, folder, pageLines, first, named, merged, found, word, rfl, paged, readPage, filed⟩
  · refine (Gathered.nil grown).congr (fun _ => .rfl) fun module name => iff_false_intro fun joins => ?_
    have function := joins.function placed located opened plain page.named
    obtain ⟨line, contributed⟩ := Option.isSome_iff_exists.mp joins.2
    obtain ⟨_, raw, read', first, named, merged, found, rfl⟩ := contribution_eq_some_iff.mp contributed
    cases read.symm.trans read'
    have there := Site.find_eq_ok_iff.mpr ⟨Site.locate_keeps grown.keeps found, grown.keeps _ (function.inside sound)⟩
    refine passed line raw _ first named merged there (Tree.mem_names.mpr ?_)
    rw [List.append_assoc]
    exact grown.present _ function.page
  · have proper := (page.named lines line raw read first named).1
    have own : outer ++ [folder] = outer ++ [moduleOf stubs raw] :=
      Site.locate_join_plain placed (single_moduleOf proper.1 proper.2) (plain_moduleOf plain raw) located opened found
    obtain rfl : folder = moduleOf stubs raw := by simpa using own
    -- the function's page has been read, so it has been there from the start
    have there : (now.get? (pagePlace outer (moduleOf stubs raw) (baseName raw))).isSome = true := by
      obtain ⟨place, bytes, _, foundPage, _, _⟩ := (linesAt_eq_ok_iff _ _).mp readPage
      obtain ⟨located', held⟩ := Site.find_eq_ok_iff.mp foundPage
      cases paged.symm.trans located'
      rw [List.append_assoc, List.singleton_append] at held
      rw [held]
      rfl
    have only : ∀ module name, Joins site base functional outer path stubs module name file ↔
        module = moduleOf stubs raw ∧ name = baseName raw := by
      intro module name
      constructor
      · intro joins
        obtain ⟨line', contributed⟩ := Option.isSome_iff_exists.mp joins.2
        obtain ⟨_, _, found', rfl⟩ := (contribution_of_directive read first named).mp contributed
        exact ⟨by simpa using found'.symm.trans found, rfl⟩
      · rintro ⟨rfl, rfl⟩
        refine ⟨grown.unmade _ _ there, Option.isSome_iff_exists.mpr ⟨line, ?_⟩⟩
        exact (contribution_of_directive read first named).mpr ⟨rfl, merged, found, rfl⟩
    refine ⟨⟨grown.toBeside.filed filed, fun place some => filed.present (grown.present place some),
      fun module name some => ?_⟩, fun place => filed.present, fun page => ?_, fun module name joins => ?_⟩
    · by_cases same : moduleOf stubs raw = module ∧ baseName raw = name
      · obtain ⟨rfl, rfl⟩ := same
        exact grown.unmade _ _ there
      · rw [filed.otherPage word same] at some
        exact grown.unmade module name some
    · rw [Option.toList_some, List.mem_singleton]
      constructor
      · exact fun same => ⟨_, _, (only _ _).mpr ⟨rfl, rfl⟩, same⟩
      · rintro ⟨module, name, joins, rfl⟩
        obtain ⟨rfl, rfl⟩ := (only module name).mp joins
        rfl
    · obtain ⟨rfl, rfl⟩ := (only module name).mp joins
      cases held : now.get? (copyPlace (outer ++ [moduleOf stubs raw]) (baseName raw)) with
      | none =>
        obtain ⟨_, _, _, copied⟩ := filed.copied held
        rw [copied]
        rfl
      | some entry =>
        rw [filed.copyKept entry held]
        rfl

include classes in
theorem gathered_rounds {files pages : List Text} (sound : base.Sound)
    (methods : ∀ file ∈ files, MethodPage site base outer path stubs file) (grown : Grown base outer now)
    (run : (files.filterMapM (mergePage type path stubs functional)).runOn site now = (.ok pages, after)) :
    Gathered base functional outer (fun module name => ∃ file ∈ files,
      Joins site base functional outer path stubs module name file)
      pages now after := by
  induction files generalizing now pages with
  | nil =>
    cases run
    exact (Gathered.nil grown).congr (fun _ => .rfl) fun module name => by simp
  | cons file files ih =>
    obtain ⟨result, between, others, first, later, rfl⟩ := runOn_filterMapM_cons_ok run
    have start := gathered_mergePage placed located opened classes plain sound
      (methods file List.mem_cons_self) grown first
    have rest := ih (fun file member => methods file (List.mem_cons_of_mem _ member)) start.toGrown later
    exact (start.append rest).congr (fun _ => .rfl) fun module name => by simp

include classes in
theorem gathered_merge {files pages : List Text} (sound : base.Sound)
    (methods : ∀ file ∈ files, MethodPage site base outer path stubs file) (grown : Grown base outer now)
    (run : (merge type path files stubs functional).runOn site now = (.ok pages, after)) :
    Gathered base functional outer (fun module name => ∃ file ∈ files,
      Joins site base functional outer path stubs module name file)
      pages now after := by
  obtain ⟨_, _, rounds, sorted⟩ := runOn_bind_ok run
  cases sorted
  exact (gathered_rounds placed located opened classes plain sound methods grown rounds).congr
    (fun _ => mem_sortDistinct) fun _ _ => .rfl

end

def mergeMethods (settings : Settings) : Script (List Text) := do
  let arrayStubs ← readText (Stub.stubsPath settings "array")
  let containerStubs ← readText (Stub.stubsPath settings "container")
  let arrayFiles ← names (methodsPath settings "array")
  let containerFiles ← names (methodsPath settings "container")
  let fromContainer ← merge "container" (methodsPath settings "container") containerFiles containerStubs
    (functionalPath settings)
  let fromArray ← merge "array" (methodsPath settings "array") arrayFiles arrayStubs (functionalPath settings)
  return sortDistinct (fromContainer ++ fromArray)

theorem mergeAll_eq (settings : Settings) :
    mergeAll settings = (do (← mergeMethods settings).forM listFolder) := by
  simp only [mergeMethods, bind_assoc, pure_bind]
  rfl

def functionsPlace (pages : Place) : Place := pages ++ [("functional" : Text), "ivy"]

def methodsPlace (pages : Place) (kind : Text) : Place := pages ++ [kind, kind ++ "_methods"]

def Receives (site : Site) (settings : Settings) (tree : Tree) (pages : Place) (module name : Text) : Prop :=
  ∃ kind stubs : Text, (kind = "array" ∨ kind = "container") ∧
    textAt site tree (Stub.stubsPath settings kind) = .ok stubs ∧
    ∃ file ∈ tree.names (methodsPlace pages kind),
      Joins site tree (functionalPath settings) (functionsPlace pages) (methodsPath settings kind)
        stubs module name file

def NamesFunctions (site : Site) (settings : Settings) (tree : Tree) (pages : Place) : Prop :=
  ∀ kind stubs : Text, (kind = "array" ∨ kind = "container") →
    textAt site tree (Stub.stubsPath settings kind) = .ok stubs →
    ∀ file ∈ tree.names (methodsPlace pages kind), NamesFunction site tree (methodsPath settings kind) stubs file

section
variable {site : Site} {settings : Settings} {tree after : Tree} {pages : Place} (placed : site.Sound)
    (sound : tree.Sound)
  (root : site.find tree (Path.join settings.here Pages.folder) = .ok (pages, .directory))
  (there : site.find tree (functionalPath settings) = .ok (functionsPlace pages, .directory))
  (proper : NamesFunctions site settings tree pages)

include placed root in
theorem locate_methods {kind : Text} (classes : kind = "array" ∨ kind = "container") {place : Place}
    (located : site.locate tree (methodsPath settings kind) = .ok place) : place = methodsPlace pages kind := by
  have named : ∀ name ∈ [kind, kind ++ ("_methods" : Text)], Path.Named name := by
    rcases classes with rfl | rfl <;> exact Path.named_of_all (by decide)
  exact Site.locate_walked placed named (Site.find_eq_ok_iff.mp root).1 located

include sound proper in
theorem methodPage {kind stubs file : Text} (classes : kind = "array" ∨ kind = "container")
    (read : textAt site tree (Stub.stubsPath settings kind) = .ok stubs)
    (found : site.find tree (methodsPath settings kind) = .ok (methodsPlace pages kind, .directory))
    (member : file ∈ tree.names (methodsPlace pages kind)) :
    MethodPage site tree (functionsPlace pages) (methodsPath settings kind) stubs file := by
  refine ⟨sound.named _ file (Tree.mem_names.mp member), ⟨_, found, ?_⟩, proper kind stubs classes read file member⟩
  intro begins
  rw [functionsPlace, methodsPlace, List.append_assoc, List.prefix_append_right_inj] at begins
  have first := (List.cons_prefix_cons.mp begins).1
  rcases classes with rfl | rfl <;> exact absurd first (by decide)

include placed sound root there proper

/-- Merging all methods gives the pages of the functions that get one, each once. -/
theorem gathered_mergeMethods {paths : List Text} (run : (mergeMethods settings).runOn site tree = (.ok paths, after)) :
    paths.Nodup ∧
      Gathered tree (functionalPath settings) (functionsPlace pages) (Receives site settings tree pages)
        paths tree after := by
  obtain ⟨located, opened⟩ := Site.find_eq_ok_iff.mp there
  unfold mergeMethods at run
  obtain ⟨arrayStubs, readArrays, run⟩ := runOn_bind_look (runOn_readText _ _ _) run
  obtain ⟨containerStubs, readContainers, run⟩ := runOn_bind_look (runOn_readText _ _ _) run
  obtain ⟨_, _, listing, run⟩ := runOn_bind_ok run
  obtain ⟨unchanged, arrayPlace, arraysAt, arraysIn, rfl⟩ := runOn_names_ok listing
  rw [unchanged] at run
  obtain ⟨_, _, listing, run⟩ := runOn_bind_ok run
  obtain ⟨unchanged, containerPlace, containersAt, containersIn, rfl⟩ := runOn_names_ok listing
  rw [unchanged] at run
  obtain ⟨fromContainers, between, containers, run⟩ := runOn_bind_ok run
  obtain ⟨fromArrays, merged, arrays, done⟩ := runOn_bind_ok run
  cases done
  obtain rfl := locate_methods placed root (.inl rfl) arraysAt
  obtain rfl := locate_methods placed root (.inr rfl) containersAt
  -- nothing has been merged yet; the containers go first and the arrays find what those left
  have start : Grown tree (functionsPlace pages) tree :=
    ⟨⟨sound, fun _ held => held, fun _ _ => rfl⟩, fun _ some => some, fun _ _ some => some⟩
  have first := gathered_merge placed located opened (.inr rfl) (plain_textAt _ _ readContainers) sound
    (fun file member =>
    methodPage sound proper (.inr rfl) readContainers (Site.find_eq_ok_iff.mpr ⟨containersAt, containersIn⟩)
      ((site.arrange_perm _ _).mem_iff.mp member)) start containers
  have second := gathered_merge placed located opened (.inl rfl) (plain_textAt _ _ readArrays) sound (fun file member =>
    methodPage sound proper (.inl rfl) readArrays (Site.find_eq_ok_iff.mpr ⟨arraysAt, arraysIn⟩)
      ((site.arrange_perm _ _).mem_iff.mp member)) first.toGrown arrays
  refine ⟨nodup_sortDistinct _, (first.append second).congr (fun _ => mem_sortDistinct) fun module name => ?_⟩
  simp only [(site.arrange_perm _ _).mem_iff]
  constructor
  · rintro ⟨kind, stubs, rfl | rfl, read, joined⟩
    · cases readArrays.symm.trans read
      exact .inr joined
    · cases readContainers.symm.trans read
      exact .inl joined
  · rintro (joined | joined)
    · exact ⟨_, _, .inr rfl, readContainers, joined⟩
    · exact ⟨_, _, .inl rfl, readArrays, joined⟩

/-- Every function's page that gets a method gets one table of contents at its end, and no other file changes after the
merging. It has all files of the function's folder, each once: the first one listed with the word for functional pages
in its name, then the others in order. The page that shows the function by itself is among them, and comes first in
every listing exactly if no other file has the word in its name. -/
theorem mergeAll_lists_folders (run : (mergeAll settings).runOn site tree = (.ok (), after)) :
    ∃ paths merged, (mergeMethods settings).runOn site tree = (.ok paths, merged) ∧
      (∀ module name, Receives site settings tree pages module name → ∃ bytes first rest,
        merged.get? (functionsPlace pages ++ [module, name ++ (".rst" : Text)]) = some (.file bytes) ∧
        after.get? (functionsPlace pages ++ [module, name ++ (".rst" : Text)]) =
          some (.file (bytes ++ Utf8.bytesOf (listing name (first :: rest)))) ∧
        (first :: rest).Perm (after.names (functionsPlace pages ++ [module, name])) ∧ (first :: rest).Nodup ∧
        rest.Pairwise (fun one two => le one two = true) ∧
        (site.arrange (functionsPlace pages ++ [module, name])
          (after.names (functionsPlace pages ++ [module, name]))).find?
          (mentions "functional") = some first ∧
        name ++ ("_functional.rst" : Text) ∈ first :: rest ∧
        ((∀ listed, listed.Perm (after.names (functionsPlace pages ++ [module, name])) →
            ∃ others, functionalFirst listed = .ok ((name ++ ("_functional.rst" : Text)) :: others)) ↔
          ∀ file ∈ after.names (functionsPlace pages ++ [module, name]), mentions "functional" file = true →
            file = name ++ ("_functional.rst" : Text))) ∧
      ∀ place, (∀ module name, Receives site settings tree pages module name →
        place ≠ functionsPlace pages ++ [module, name ++ (".rst" : Text)]) → after.get? place = merged.get? place := by
  rw [mergeAll_eq] at run
  obtain ⟨paths, merged, merging, listing⟩ := runOn_bind_ok run
  obtain ⟨distinct, gathered⟩ := gathered_mergeMethods placed sound root there proper merging
  -- what receives a method was a function page before, and merging has kept it one
  have function : ∀ {module name}, Receives site settings tree pages module name →
      FunctionPage site merged (functionalPath settings) (functionsPlace pages) module name := by
    intro module name receives
    obtain ⟨kind, stubs, classes, read, file, member, joins⟩ := receives
    obtain ⟨located, opened⟩ := Site.find_eq_ok_iff.mp there
    have start := joins.function placed located opened (plain_textAt _ _ read)
      (proper kind stubs classes read file member)
    exact ⟨start.folder, start.word, Site.locate_keeps gathered.keeps start.located, gathered.present _ start.page⟩
  obtain ⟨same, listed, others⟩ := listed_forM placed distinct gathered.sound (fun page member => by
    obtain ⟨module, name, receives, rfl⟩ := (gathered.given page).mp member
    exact ⟨module, name, function receives, rfl⟩) listing
  refine ⟨paths, merged, merging, fun module name receives => ?_,
    fun place away => others place fun module name shown member => ?_⟩
  · obtain ⟨bytes, files, held, ordered, written⟩ :=
      listed module name (function receives) ((gathered.given _).mpr ⟨module, name, receives, rfl⟩)
    obtain ⟨first, rest, rfl, found, permuted, sorted⟩ := functionalFirst_eq_ok_iff.mp ordered
    rw [same.names] at found permuted
    have all := permuted.trans (site.arrange_perm _ _)
    have copy : name ++ ("_functional.rst" : Text) ∈ after.names (functionsPlace pages ++ [module, name]) := by
      rw [Tree.mem_names, ← same.present]
      simpa using gathered.copied module name receives
    have mentioned : mentions "functional" (name ++ ("_functional.rst" : Text)) = true :=
      mentions_iff.mpr ((show ("functional" : Text) <:+: "_functional.rst" by decide).trans
        (List.suffix_append _ _).isInfix)
    exact ⟨bytes, first, rest, held, written, all, all.nodup_iff.mpr (after.names_nodup _), sorted, found,
      all.mem_iff.mpr copy, functionalFirst_listings copy mentioned⟩
  · obtain ⟨module', name', receives, path⟩ := (gathered.given _).mp member
    have own := function receives
    obtain ⟨rfl, rfl⟩ := pagePath_inj shown.folder own.folder shown.word own.word path
    exact away module name receives

end

def wordySettings : Settings := { library := "l" }

def wordyLine : Text := ".. autofunction:: ivy.functional\n"

def wordyTree : Tree := ⟨[(["l"], .directory), (["l", "array"], .directory),
  (["l", "array", "array_methods.py"], .file (Utf8.bytesOf "#ivy.array.m\ndef functional(self):\n")),
  (["l", "container"], .directory), (["l", "container", "container_methods.py"], .file []),
  (["autogenerated_source"], .directory), (["autogenerated_source", "array"], .directory),
  (["autogenerated_source", "array", "array_methods"], .directory),
  (["autogenerated_source", "array", "array_methods", "functional.rst"], .file (Utf8.bytesOf ("a\n=\n" ++ wordyLine))),
  (["autogenerated_source", "container"], .directory),
  (["autogenerated_source", "container", "container_methods"], .directory),
  (["autogenerated_source", "functional"], .directory), (["autogenerated_source", "functional", "ivy"], .directory),
  (["autogenerated_source", "functional", "ivy", "m"], .directory),
  (["autogenerated_source", "functional", "ivy", "m", "functional.rst"], .file (Utf8.bytesOf ("a\n=\n" ++ wordyLine)))]⟩

def wordyAfter : Tree := ((mergeAll wordySettings).runOn mergeSite wordyTree).2

def wordyFolder : Place := ["autogenerated_source", "functional", "ivy", "m", "functional"]

def wordyFiles : List Text := ["functional_array.rst", "functional_functional.rst"]

theorem evaluated_wordy :
    ((mergeAll wordySettings).runOn mergeSite wordyTree).1 = .ok () ∧
      mergeSite.arrange wordyFolder (wordyAfter.names wordyFolder) = wordyFiles := by
  decide +kernel

theorem namesFunctions_wordy : NamesFunctions mergeSite wordySettings wordyTree ["autogenerated_source"] := by
  intro kind stubs classes read file member lines line raw readPage first named
  rcases classes with rfl | rfl
  · have only : wordyTree.names (methodsPlace ["autogenerated_source"] "array") = [("functional.rst" : Text)] := by
      decide
    have text : textAt mergeSite wordyTree (Stub.stubsPath wordySettings "array") =
        .ok "#ivy.array.m\ndef functional(self):\n" := by
      decide
    rw [only, List.mem_singleton] at member
    subst member
    have page : linesAt mergeSite wordyTree (Path.join (methodsPath wordySettings "array") "functional.rst") =
        .ok ["a\n", "=\n", wordyLine] := by decide
    have found : [("a\n" : Text), "=\n", wordyLine].find? isDirective = some wordyLine := by decide
    have function : directiveName wordyLine = .ok "functional" := by decide
    cases text.symm.trans read
    cases page.symm.trans readPage
    cases found.symm.trans first
    cases function.symm.trans named
    decide
  · have none : wordyTree.names (methodsPlace ["autogenerated_source"] "container") = [] := by decide
    rw [none] at member
    cases member

theorem receives_wordy : Receives mergeSite wordySettings wordyTree ["autogenerated_source"] "m" "functional" := by
  have text : textAt mergeSite wordyTree (Stub.stubsPath wordySettings "array") =
      .ok "#ivy.array.m\ndef functional(self):\n" := by
    decide
  refine ⟨"array", _, .inl rfl, text, "functional.rst", by decide, ?_⟩
  unfold Joins
  decide

theorem mergeAll_lists_folders_sample :
    (mergeAll wordySettings).runOn mergeSite wordyTree = (.ok (), wordyAfter) ∧
      ∃ bytes, wordyAfter.get? ["autogenerated_source", "functional", "ivy", "m", "functional.rst"] =
        some (.file (bytes ++ Utf8.bytesOf (listing "functional" wordyFiles))) := by
  obtain ⟨done, listed⟩ := evaluated_wordy
  have run : (mergeAll wordySettings).runOn mergeSite wordyTree = (.ok (), wordyAfter) := run_eq_of_ok done
  have root : mergeSite.find wordyTree (Path.join wordySettings.here Pages.folder) =
      .ok (["autogenerated_source"], .directory) := by
    decide +kernel
  have there : mergeSite.find wordyTree (functionalPath wordySettings) =
      .ok (functionsPlace ["autogenerated_source"], .directory) := by
    decide +kernel
  obtain ⟨_, _, _, lists, _⟩ := mergeAll_lists_folders (.inr (by decide))
    (Tree.sound_of_isSound (by decide +kernel)) root there
    namesFunctions_wordy run
  obtain ⟨bytes, first, rest, _, written, all, _, _, found, _⟩ := lists "m" "functional" receives_wordy
  have folder : functionsPlace ["autogenerated_source"] ++ [("m" : Text), "functional"] = wordyFolder := rfl
  have both := all.trans (mergeSite.arrange_perm wordyFolder _).symm
  rw [folder, listed] at found both
  have earliest : wordyFiles.find? (mentions "functional") = some "functional_array.rst" := by decide +kernel
  cases earliest.symm.trans found
  rw [List.perm_singleton.mp (List.perm_cons _ |>.mp both)] at written
  exact ⟨run, bytes, written⟩

end ApiDocs.Instance
