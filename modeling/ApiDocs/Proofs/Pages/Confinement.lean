import ApiDocs.Proofs.File.Downward
import ApiDocs.Proofs.File.Maintained
import ApiDocs.Proofs.Pages.Touched

/-! Where pages can be written. The names of pages are cut out of texts, and a name that begins with a slash leads
wherever it says; all other pages and folders are below the folder of the pages. -/

set_option autoImplicit false

namespace ApiDocs

namespace Module
open Text

def memberNames (text : Text) : List Text := (namesAfter "def " text ++ namesAfter "class " text).map (afterLast '.')

theorem mem_memberNames {text dotted : Text} {functions classes : List Text}
    (found : contents text dotted = .ok (functions, classes)) {name : Text} (member : name ∈ functions ++ classes) :
    afterLast '.' name ∈ memberNames text := by
  have listed : ∀ word, name ∈ defined word dotted text →
      afterLast '.' name ∈ (namesAfter word text).map (afterLast '.') := by
    intro word inside
    rw [defined_eq] at inside
    obtain ⟨cut, found, rfl⟩ := List.mem_map.mp inside
    rw [afterLast_member]
    exact List.mem_map_of_mem found
  rw [memberNames, List.map_append, List.mem_append]
  unfold contents at found
  cases kept : (defined "def " dotted text).filterM isPublic with
  | error fault => rw [kept] at found; cases found
  | ok chosen =>
    rw [kept] at found
    cases found
    obtain ⟨_, rfl⟩ := filterM_eq_ok_iff.mp kept
    rcases List.mem_append.mp member with inside | inside
    · exact .inl (listed "def " (List.mem_of_mem_filter inside))
    · exact .inr (listed "class " inside)

theorem rooted_beside {settings : Settings} {name : Text} (single : Path.Single name)
    (beside : settings.library = ("../" : Text) ++ name) : Rooted settings := by
  have base : Path.base settings.library = name := by
    rw [beside]
    exact afterLast_mark ".." single.slashless
  refine ⟨by rw [base]; exact single.proper, ?_⟩
  have size : settings.library.length - name.length = 3 := by
    rw [beside, List.length_append, Nat.add_sub_cancel]
    rfl
  rw [base, size, beside, index?_eq_some_iff]
  refine ⟨List.prefix_rfl, by rw [List.length_append]; exact Nat.le_add_right 3 _, fun earlier before stands => ?_⟩
  -- the name holds no slash, so it would be one of the ways up
  have within : ∀ lead : Text, name <+: lead ++ .char '/' :: name → name <+: lead :=
    fun lead => prefix_of_mark single.slashless
  obtain rfl | rfl | rfl : earlier = 0 ∨ earlier = 1 ∨ earlier = 2 := by omega
  · rcases List.prefix_cons_iff.mp (within ".." stands) with none | ⟨more, whole, next⟩
    · exact single.proper none
    · rcases List.prefix_cons_iff.mp next with rfl | ⟨rest, rfl, last⟩
      · exact single.notHere whole
      · rw [List.prefix_nil.mp last] at whole
        exact single.notAbove whole
  · rcases List.prefix_cons_iff.mp (within "." stands) with none | ⟨more, whole, next⟩
    · exact single.proper none
    · rw [List.prefix_nil.mp next] at whole
      exact single.notHere whole
  · exact single.proper (List.prefix_nil.mp (within [] stands))

end Module

namespace Pages
open Script Text

section
variable (site : Site) (lib : Place) (base : Tree)

/-- A name that a module of the library gives to a page. -/
def Defined (name : Text) : Prop :=
  ∃ names stem bytes, Documented lib base names stem ∧
    base.get? (lib ++ names ++ [stem ++ (".py" : Text)]) = some (.file bytes) ∧
    name ∈ Module.memberNames (unifyNewlines (Utf8.decodeLenient bytes))

/-- A place to which such a name leads by itself. -/
def Stray (place : Place) : Prop :=
  ∃ name now, Defined lib base name ∧ name.head? = some (.char '/') ∧
    site.locate now (name ++ (".rst" : Text)) = .ok place

/-- No directory or module of the library is called like a step up with endings of modules put in. -/
def Undotted : Prop :=
  ∀ names name, base.get? (lib ++ names ++ [name]) = some .directory ∨
    (base.get? (lib ++ names ++ [name])).isSome = true ∧ (".py" : Text) <:+ name → Path.Steady name

def isUndotted : Bool := base.entries.all fun entry => decide (Path.Steady (entry.1.getLastD []))

variable {lib base} in
theorem undotted_of_isUndotted (check : isUndotted base = true) : Undotted lib base := by
  intro names name kind
  have present : (base.get? (lib ++ names ++ [name])).isSome = true :=
    kind.elim (fun directory => by rw [directory]; rfl) And.left
  obtain ⟨entry, held⟩ := Option.isSome_iff_exists.mp present
  have member : (lib ++ names ++ [name], entry) ∈ base.entries := by
    refine Table.mem_of_get? ?_
    rwa [Tree.get?_below] at held
  have checked := List.all_eq_true.mp check _ member
  rwa [List.getLastD_concat, decide_eq_true_eq] at checked

/-- Pages have been written in their folder or astray, folders have been made in it, and nothing else has changed. -/
abbrev Held : Tree → Prop :=
  Tree.Changed (fun place => place.IsPage ∧ (top site <+: place ∨ Stray site lib base place))
    (fun place => top site <+: place ∧ ∃ name, place.getLast? = some name ∧ Path.Steady name) base

def Listed (settings : Settings) : Prop :=
  ∀ now place bytes text, site.locate now (Path.join settings.here "ivy_modules.txt") = .ok place →
    base.get? place = some (.file bytes) → Utf8.decodeLines bytes = .ok text → ∀ line ∈ lines (unifyNewlines text),
      .char '.' ∉ line

end

theorem held_file {site : Site} {lib : Place} {base tree : Tree} (held : Held site lib base tree) {place : Place}
    {bytes : Bytes} (other : ¬place.IsPage) (there : tree.get? place = some (.file bytes)) :
    base.get? place = some (.file bytes) := by
  rcases held.each place with same | ⟨⟨page, _⟩, _⟩ | ⟨_, directory, _⟩
  · rwa [← same]
  · exact absurd page other
  · rw [there] at directory
    cases directory

theorem Undotted.held {site : Site} {lib : Place} {base tree : Tree} (undotted : Undotted lib base)
    (held : Held site lib base tree) :
    Undotted lib tree := by
  intro names name kind
  rcases held.each (lib ++ names ++ [name]) with same | ⟨⟨page, _⟩, _, bytes, file⟩ | ⟨_, _, _, last, ends, steady⟩
  · rw [same] at kind
    exact undotted names name kind
  · rcases kind with directory | ⟨_, ending⟩
    · rw [file] at directory
      cases directory
    · obtain ⟨stem, rfl⟩ := ending
      exact absurd page (Place.not_isPage_module _ stem)
  · rw [List.getLast?_concat] at ends
    cases ends
    exact steady

theorem locate_held {site : Site} (placed : site.Sound) {library : Text} {lib : Place} {base : Tree}
    (located : site.locate base library = .ok lib) {tree : Tree} (held : Held site lib base tree) {names : Place}
    (named : ∀ name ∈ names, Path.Named name) {place : Place}
    (further : site.locate tree (Path.walked library names) = .ok place) :
    place = lib ++ names :=
  Site.locate_walked placed named (Site.locate_keeps held.keeps located) further

section
variable {site : Site} (placed : site.Sound) {library : Text} {lib : Place} {base : Tree}
    (located : site.locate base library = .ok lib)
include placed located

theorem maintains_read {names : Place} {stem : Text}
    (named : ∀ name ∈ names ++ [stem ++ (".py" : Text)], Path.Named name) (kept : stem ∉ Module.excludedNames)
    (dotted : Text) :
    Maintains site (Held site lib base) (fun found => ∀ name ∈ found.1 ++ found.2,
      Defined lib base (afterLast '.' name))
      (Module.read (Path.walked library (names ++ [stem ++ (".py" : Text)])) dotted) := by
  have text : Maintains site (Held site lib base)
      (fun text => ∃ bytes, Documented lib base names stem ∧
        base.get? (lib ++ names ++ [stem ++ (".py" : Text)]) = some (.file bytes) ∧
          text = unifyNewlines (Utf8.decodeLenient bytes))
      (readLenient (Path.walked library (names ++ [stem ++ (".py" : Text)]))) := by
    refine Maintains.look (runOn_readLenient site · _) fun tree text held seen => ?_
    cases known : bytesAt site tree (Path.walked library (names ++ [stem ++ (".py" : Text)])) with
    | error fault => rw [known] at seen; cases seen
    | ok bytes =>
      rw [known] at seen
      cases seen
      obtain ⟨place, found⟩ := (bytesAt_eq_ok_iff site tree).mp known
      obtain ⟨further, there⟩ := Site.find_eq_ok_iff.mp found
      obtain rfl := locate_held placed located held named further
      rw [← List.append_assoc] at there
      have before := held_file held (Place.not_isPage_module _ stem) there
      exact ⟨bytes, ⟨by rw [before]; rfl, kept⟩, before, rfl⟩
  refine text.bind fun text ⟨bytes, documented, there, whole⟩ => ?_
  refine Maintains.look (runOn_ofExcept_id site · _) fun _ found _ given name member => ?_
  rw [whole] at given
  exact ⟨names, stem, bytes, documented, there, Module.mem_memberNames given member⟩

theorem maintains_names (sound : base.Sound) (undotted : Undotted lib base) {names : Place}
    (named : ∀ name ∈ names, Path.Named name) :
    Maintains site (Held site lib base)
      (fun contents => ∀ name ∈ contents, Path.Named name ∧ ((".py" : Text) <:+ name → Path.Steady name))
      (Script.names (Path.walked library names)) := by
  have place : Maintains site (Held site lib base) (· = lib ++ names)
      (inspect (Path.walked library names) (directoryPlace (Path.walked library names))) := by
    refine Maintains.look (fun tree => runOn_inspect site tree) fun tree place held seen => ?_
    cases found : directoryPlace (Path.walked library names) site tree with
    | error refusal => rw [found] at seen; cases seen
    | ok other =>
      rw [found] at seen
      cases seen
      exact locate_held placed located held named (Site.find_eq_ok_iff.mp (find_of_directoryPlace found)).1
  refine place.bind fun place here => ?_
  subst here
  refine Preserves.then (Preserves.look (runOn_read site ·)) fun current => ?_
  have now : Maintains site (Held site lib base) (Held site lib base) (get : Script Tree) :=
    Maintains.look (runOn_get site ·) fun tree _ held same => Except.ok.inj same ▸ held
  refine now.bind fun tree held => .pure fun name member => ?_
  have present := Tree.mem_names.mp ((current.arrange_perm _ _).mem_iff.mp member)
  exact ⟨(held.sound sound).named _ name present, fun ending => undotted.held held names name (.inr ⟨present, ending⟩)⟩

theorem maintains_directories (undotted : Undotted lib base) {names : Place} (named : ∀ name ∈ names, Path.Named name)
    {contents : List Text} (entries : ∀ name ∈ contents, Path.Named name) :
    Maintains site (Held site lib base)
      (fun found => ∀ path ∈ found, ∃ name, path = Path.walked library (names ++ [name]) ∧ Path.Named name ∧
        Path.Steady name)
      (Module.directories (contents.map (Path.join (Path.walked library names)))) := by
  refine Maintains.look (Module.runOn_directories site · _) fun tree found held seen path member => ?_
  cases seen
  obtain ⟨inside, test⟩ := List.mem_filter.mp member
  obtain ⟨name, entry, rfl⟩ := List.mem_map.mp inside
  obtain ⟨answer, run, seen⟩ := runOn_isDirectory site tree (Path.join (Path.walked library names) name)
  rw [run] at test
  obtain ⟨place, found⟩ := seen.mp (Bool.and_eq_true_iff.mp test).1
  obtain ⟨further, there⟩ := Site.find_eq_ok_iff.mp found
  rw [← Path.walked_snoc] at further
  have proper : ∀ other ∈ names ++ [name], Path.Named other :=
    List.forall_mem_append.mpr ⟨named, List.forall_mem_singleton.mpr (entries name entry)⟩
  obtain rfl := locate_held placed located held proper further
  rw [← List.append_assoc] at there
  exact ⟨name, (Path.walked_snoc ..).symm, entries name entry, undotted.held held names name (.inl there)⟩

end

abbrev Below (fits : Text → Prop) (path : Text) : Prop := Path.Downward folder fits path

theorem below_folder (fits : Text → Prop) : Below fits folder := .start (by decide) fits

theorem below_page {lead more : Text} (down : Below Path.Steady lead)
    (steady : ∀ piece ∈ split "/" more, Path.Steady piece) :
    Below (· ≠ "..") (lead ++ .char '/' :: (more ++ (".rst" : Text))) := by
  refine (down.mono fun _ steady => steady.ne_above).extend fun piece member => ?_
  rw [show split "/" (more ++ (".rst" : Text)) =
    _ from split_ending more (show .char '/' ∉ (".rst" : Text) by decide)] at member
  rcases List.mem_append.mp member with inside | last
  · exact (steady piece (List.mem_of_mem_dropLast inside)).ne_above
  · rw [List.mem_singleton.mp last]
    exact (Path.single_append (afterLast_spec _ more).1 (by decide) (by decide)).notAbove

theorem steady_pieces {text : Text} (dotless : .char '.' ∉ text) : ∀ piece ∈ split "/" text, Path.Steady piece :=
  fun _ member => Path.steady_of_dotless fun dot => dotless (subset_of_mem_split member dot)

theorem steady_names {names : Place} (proper : names ≠ []) (slashless : ∀ name ∈ names, .char '/' ∉ name)
    (steady : ∀ name ∈ names, Path.Steady name) : ∀ piece ∈ split "/" (join "/" names), Path.Steady piece := by
  rwa [show split "/" (join "/" names) = names from split_join proper slashless]

theorem pagePath_eq {names : Place} (proper : names ≠ []) : pagePath names = folder ++ .char '/' :: join "/" names := by
  rw [pagePath, join_cons proper, List.append_assoc]
  rfl

theorem below_pagePath {names : Place} (single : ∀ name ∈ names, Path.Single name)
    (steady : ∀ name ∈ names, Path.Steady name) :
    Below Path.Steady (pagePath names) := by
  by_cases alone : names = []
  · rw [alone]
    exact below_folder Path.Steady
  · rw [pagePath_eq alone]
    exact (below_folder Path.Steady).extend
      (steady_names alone (fun name member => (single name member).slashless) steady)

/-- A target in the folder of the pages, with its page beside its own folder. -/
structure Target.Inner (target : Target) : Prop where
  page : target.page = target.folder ++ (".rst" : Text)
  folder : ∃ more, target.folder = Pages.folder ++ .char '/' :: more ∧ ∀ piece ∈ split "/" more, Path.Steady piece

theorem Target.Inner.below {target : Target} (inner : target.Inner) : Below Path.Steady target.folder := by
  obtain ⟨_, more, whole, steady⟩ := inner
  rw [whole]
  exact (below_folder Path.Steady).extend steady

theorem below_directory {names : Place} (single : ∀ name ∈ names, Path.Single name)
    (steady : ∀ name ∈ names, Path.Steady name) :
    ∃ path, pagePath (pageNames names) = path ++ (".rst" : Text) ∧ Below (· ≠ "..") (path ++ (".rst" : Text)) := by
  refine ⟨pagePath (names.dropLast ++ [names.getLastD []]), pagePath_snoc _ _ _, ?_⟩
  have proper : names.dropLast ++ [names.getLastD []] ≠ [] :=
    List.append_ne_nil_of_right_ne_nil _ (List.cons_ne_nil _ _)
  have each : ∀ name ∈ names.dropLast ++ [names.getLastD []], name = [] ∨ name ∈ names := by
    intro name member
    rcases List.mem_append.mp member with inside | last
    · exact .inr (List.mem_of_mem_dropLast inside)
    · rw [List.mem_singleton.mp last]
      cases names with
      | nil => exact .inl rfl
      | cons first names => exact .inr (by rw [List.getLastD_cons]; exact List.getLastD_mem_cons)
  rw [pagePath_eq proper, List.append_assoc]
  refine below_page (below_folder Path.Steady) (steady_names proper (fun name member => ?_) fun name member => ?_)
  · rcases each name member with rfl | inside
    · exact List.not_mem_nil
    · exact (single name inside).slashless
  · rcases each name member with rfl | inside
    · exact Path.steady_of_dotless List.not_mem_nil
    · exact steady name inside

theorem Target.Inner.below_page {target : Target} (inner : target.Inner) :
    Below (· ≠ "..") (target.folder ++ (".rst" : Text)) := by
  obtain ⟨_, more, whole, steady⟩ := inner
  rw [whole, List.append_assoc]
  exact Pages.below_page (below_folder Path.Steady) steady

section
variable {settings : Settings} {location : Module.Location} {path : Text} {names : Place} (proper : names ≠ [])
  (single : ∀ name ∈ names, Path.Single name) (steady : ∀ name ∈ names, Path.Steady name)
  (relative : location.relative path = join "/" names)
include proper single steady relative

/-- Every target of a module is in the folder of the pages. -/
theorem inner_of_mem_targets {target : Target} (member : target ∈ targets settings location path) : target.Inner := by
  obtain ⟨i, _, made⟩ := List.mem_filterMap.mp member
  have pieces : split "/" (join "/" names) = names :=
    split_join proper fun name inside => (single name inside).slashless
  rw [relative, pieces] at made
  dsimp only at made
  split at made
  · cases made
  · cases made
    have some : names.take (i + 2) ≠ [] := by simpa using proper
    have inner : ∀ name ∈ names.take (i + 2), Path.Single name :=
      fun name inside => single name (List.mem_of_mem_take inside)
    have slashless : ∀ name ∈ (names.take (i + 2)).map (replace ".py" ""), .char '/' ∉ name := by
      intro name inside slash
      obtain ⟨old, member, rfl⟩ := List.mem_map.mp inside
      exact (mem_replace (show (".py" : Text) ≠ [] by decide) "" slash).elim List.not_mem_nil
        (inner old member).slashless
    refine ⟨rfl, join "/" ((names.take (i + 2)).map (replace ".py" "")), ?_, fun piece member => ?_⟩
    · have names := replace_names (show (".py" : Text) ≠ [] by decide) (by decide) "" (folder :: names.take (i + 2))
      rw [join_folder some inner, pagePath, names, List.map_cons, join_cons (by simpa using proper), List.append_assoc]
      rfl
    · rw [show split "/" (join "/" _) = _ from split_join (by simpa using proper) slashless] at member
      obtain ⟨old, inside, rfl⟩ := List.mem_map.mp member
      exact (steady old (List.mem_of_mem_take inside)).replace_module

end

section
variable {site : Site} (placed : site.Sound) (free : site.root ≠ folder) {lib : Place} {base : Tree}
include placed free

theorem reached_page {path : Text}
    (way : Below (· ≠ "..") (path ++ (".rst" : Text)) ∨ Defined lib base path ∧ path.head? = some (.char '/'))
    (tree : Tree) (place : Place) (bytes : Bytes)
    (found : writable (path ++ (".rst" : Text)) site tree = .ok (place, bytes)) :
    place.IsPage ∧ (top site <+: place ∨ Stray site lib base place) := by
  have located := locate_of_writable found
  refine ⟨?_, ?_⟩
  · rcases Site.isPage_of_locate (List.suffix_append _ _) located with rfl | page
    · exact absurd rfl (not_directory_of_writable found)
    · exact page
  · rcases way with down | ⟨defined, slash⟩
    · exact .inl (Site.prefix_of_locate placed free word_folder.literal down located)
    · exact .inr ⟨path, tree, defined, slash, located⟩

theorem reached_index (tree : Tree) (place : Place) (bytes : Bytes)
    (found : writable (folder ++ ("/index.rst" : Text)) site tree = .ok (place, bytes)) :
    place.IsPage ∧ (top site <+: place ∨ Stray site lib base place) :=
  have down := @below_page folder "index" (below_folder Path.Steady) (steady_pieces (by decide))
  @reached_page site placed free lib base (folder ++ ("/index" : Text)) (.inl down) tree place bytes found

theorem preserves_makePages (sound : base.Sound) {path : Text} (down : Below Path.Steady path) :
    Preserves site (Held site lib base) (makeDirectories path true) := by
  have single := word_folder.single
  refine Preserves.makeDirectories (fun path down => Path.Downward.directory single down)
    (fun path down tree held => ?_) down true
  refine ⟨?_, fun _ _ => trivial⟩
  rcases runOn_makeDirectory path site tree with ⟨fault, run⟩ | ⟨known, place, accepted, located, vacant, run⟩
  · rwa [run]
  · rw [run]
    have inner : Below Path.Steady (Path.dropSlashes known) :=
      (down.accept word_folder.plain (fun _ _ steady reads => steady.read reads) accepted).dropSlashes
    have inside := Site.prefix_of_locate placed free word_folder.literal (inner.mono fun _ steady => steady.ne_above)
      located
    have steady : ∀ piece ∈ split "/" (Path.dropSlashes known), Path.Steady piece := by
      obtain ⟨rest, cut, each⟩ := inner
      rw [cut]
      intro piece member
      rcases List.mem_cons.mp member with rfl | later
      · exact Path.steady_of_dotless word_folder.dotless
      · exact each piece later
    exact held.trans (changed_put located vacant ⟨inside,
      Site.steady_of_locate (held.sound sound) steady located vacant⟩)

theorem preserves_begin (sound : base.Sound) {target : Target} (inner : target.Inner) :
    Preserves site (Held site lib base) target.begin := by
  refine (preserves_makePages placed free sound inner.below).then fun _ => ?_
  rw [inner.page]
  exact preserves_writeText (reached_page placed free (.inl inner.below_page)) _

/-- The page of a function or class is in the folder of its module, unless its name begins with a slash. -/
theorem preserves_member {target : Target} (inner : target.Inner) {name : Text} (defined : Defined lib base name)
    (dotless : .char '.' ∉ name) (text : Text) :
    Preserves site (Held site lib base) (writeText (Path.join target.folder name ++ (".rst" : Text)) text) := by
  refine preserves_writeText (reached_page placed free ?_) text
  by_cases slash : name.head? = some (.char '/')
  · rw [Path.join, if_pos slash]
    exact .inr ⟨defined, slash⟩
  · have proper : target.folder ≠ [] := by
      obtain ⟨_, more, whole, _⟩ := inner
      rw [whole]
      exact List.append_ne_nil_of_right_ne_nil _ (List.cons_ne_nil _ _)
    obtain ⟨lead, joined, kind⟩ := Path.join_mark proper slash
    have front : Below Path.Steady lead := by
      have down := inner.below
      rcases kind with ⟨same, _⟩ | same <;> rw [same] at down
      · exact down
      · exact down.shorten
    rw [joined, List.append_assoc]
    exact .inl (below_page front (steady_pieces dotless))

theorem preserves_writeDirectory {settings : Settings} {names : Place} (single : ∀ name ∈ names, Path.Single name)
    (steady : ∀ name ∈ names, Path.Steady name) (directory : Text) (contents directories modules : List Text) :
    Preserves site (Held site lib base)
      (writeDirectory settings directory (Path.join folder (join "/" names)) contents directories modules) := by
  obtain ⟨last, page⟩ := split_save single
  obtain ⟨path, whole, down⟩ := below_directory single steady
  have reached := @reached_page site placed free lib base path (.inl down)
  unfold writeDirectory
  dsimp only
  rw [last, page, whole]
  split
  · split
    · have copied : Preserves site (Held site lib base)
          (Readme.copy (Path.join directory "README.rst") (path ++ (".rst" : Text))) :=
        (Preserves.look (runOn_readText site · _)).then fun text => preserves_writeText reached text
      exact copied.then fun _ => preserves_appendText reached _
    · exact preserves_appendText reached _
  · exact .pure trivial

theorem preserves_finishIndex (sound : base.Sound) {settings : Settings} (listed : Listed site base settings)
    (toctree : Toctree) :
    Preserves site (Held site lib base) (finishIndex settings toctree) := by
  have named : Path.Named "ivy_modules.txt" := Path.named_of_isNamed (by decide)
  have read : Maintains site (Held site lib base) (fun lines => ∀ line ∈ lines, .char '.' ∉ line)
      (readLines (Path.join settings.here "ivy_modules.txt")) := by
    -- the list of modules is no page, so its lines are still those of the start
    refine Maintains.look (runOn_readLines site · _) fun tree lines held seen => ?_
    obtain ⟨place, bytes, text, found, decoded, rfl⟩ := (linesAt_eq_ok_iff site tree).mp seen
    obtain ⟨located, there⟩ := Site.find_eq_ok_iff.mp found
    refine listed tree place bytes text located (held_file held ?_ there) decoded
    rintro ⟨before, name, eq, ends⟩
    rcases Site.locate_join_last named located with rfl | ⟨front, rfl⟩
    · cases there
    · obtain ⟨_, last⟩ := List.append_inj' eq rfl
      rw [← (List.cons.inj last).1] at ends
      exact absurd ends (by decide)
  have docs : Below Path.Steady (folder ++ ("/docs" : Text)) :=
    (below_folder Path.Steady).extend (steady_pieces (show .char '.' ∉ ("docs" : Text) by decide))
  refine read.bind fun lines dotless => (preserves_makePages placed free sound docs).then fun _ => ?_
  refine Preserves.then (Preserves.forM fun page member => ?_) fun _ => ?_
  · obtain ⟨line, inside, rfl⟩ := List.mem_map.mp member
    have bare : .char '.' ∉ replace "\n" "" line := fun dot =>
      (mem_replace (show ("\n" : Text) ≠ [] by decide) "" dot).elim List.not_mem_nil (dotless line inside)
    have down := below_page docs (steady_pieces bare)
    have path : folder ++ ("/docs/" : Text) ++ (replace "\n" "" line ++ (".rst" : Text)) =
        folder ++ ("/docs" : Text) ++ .char '/' :: replace "\n" "" line ++ (".rst" : Text) := by
      simp only [List.append_assoc]
      rfl
    unfold writeRelated
    dsimp only
    rw [path]
    refine preserves_writeText (reached_page placed free (.inl ?_)) _
    rwa [List.append_assoc]
  · exact preserves_appendText (reached_index placed free) _

theorem preserves_writeIndex (sound : base.Sound) {settings : Settings} (listed : Listed site base settings)
    (folders : Toctree) :
    Preserves site (Held site lib base) (writeIndex settings folders) := by
  have finish := @preserves_finishIndex site placed free lib base sound settings listed
  have fill : ∀ head, Preserves site (Held site lib base) (fillIndex settings folders head) := fun head => by
    refine (preserves_writeText (reached_index placed free) head).then fun _ => ?_
    split
    · exact finish _
    · exact (preserves_appendText (reached_index placed free) _).then fun _ => finish _
    · exact .throw _ _
  rw [writeIndex_eq]
  refine (Preserves.look (runOn_readText site · _)).then fun before => ?_
  refine (Preserves.look (runOn_readText site · _)).then fun text => ?_
  refine (Preserves.look (runOn_ofExcept_id site · _)).then fun readme => ?_
  refine (Preserves.look (runOn_present site · _)).then fun there => ?_
  split
  · exact (Preserves.look (runOn_readText site · _)).then fun after => fill _
  · exact fill _

section
variable {settings : Settings} (rooted : Module.Rooted settings) (sound : base.Sound)
  (located : site.locate base settings.library = .ok lib)
include rooted sound located

/-- The pages of a module are in the folder of its target, or astray. -/
theorem maintains_writeModule {names : Place} {stem : Text}
    (named : ∀ name ∈ names ++ [stem ++ (".py" : Text)], Path.Named name)
    (steady : ∀ name ∈ names ++ [stem ++ (".py" : Text)], Path.Steady name) (kept : stem ∉ Module.excludedNames)
    (frameworks : Text) {previous : Option Target} (before : ∀ target, previous = some target → target.Inner) :
    Maintains site (Held site lib base) (fun result => ∀ target, result = some target → target.Inner)
      (writeModule settings (Module.locate settings (Path.walked settings.library names)) frameworks previous
        (Path.walked settings.library (names ++ [stem ++ (".py" : Text)]))) := by
  have inner : ∀ target ∈ targets settings (Module.locate settings (Path.walked settings.library names))
      (Path.walked settings.library (names ++ [stem ++ (".py" : Text)])), target.Inner := fun target member =>
    inner_of_mem_targets (by simp) (fun name inside => (named name inside).single) steady
      (rooted.relative_walked (fun name inside => named name (List.mem_append_left _ inside)) named) member
  refine Preserves.then (Preserves.forM fun target member => preserves_begin placed free sound (inner target member))
    fun _ => ?_
  split
  · exact .throw _ _
  · rename_i target chosen
    -- the target is one of the module or has been taken over from the module before
    have own : target.Inner := by
      cases last : (targets settings (Module.locate settings (Path.walked settings.library names))
          (Path.walked settings.library (names ++ [stem ++ (".py" : Text)]))).getLast? with
      | none =>
        rw [last] at chosen
        exact before target chosen
      | some other =>
        rw [last] at chosen
        exact inner target (List.mem_of_getLast? (last.trans chosen))
    refine (maintains_read placed located named kept target.dotted).bind fun (functions, classes) defined => ?_
    have page : Preserves site (Held site lib base)
        ((target.toctree functions classes).append target.page none true) := by
      rw [own.page]
      exact preserves_appendText (reached_page placed free (.inl own.below_page)) _
    refine page.then fun _ => ?_
    refine Preserves.then (Preserves.forM fun dotted member => ?_) fun _ => ?_
    · exact preserves_member placed free own (defined dotted (List.mem_append_left _ member)) (afterLast_spec _ _).1 _
    refine Preserves.then (Preserves.forM fun dotted member => ?_) fun _ => ?_
    · exact preserves_member placed free own (defined dotted (List.mem_append_right _ member)) (afterLast_spec _ _).1 _
    exact .pure fun other same => Option.some.inj same ▸ own

theorem preserves_writeUpTo (undotted : Undotted lib base) (listed : Listed site base settings) (depth : Nat)
    {names : Place} (named : ∀ name ∈ names, Path.Named name) (steady : ∀ name ∈ names, Path.Steady name) :
    Preserves site (Held site lib base) (writeUpTo settings depth (Path.walked settings.library names)) := by
  induction depth generalizing names with
  | zero => exact .throw _ _
  | succ depth ih =>
    have extended : ∀ {kind : Text → Prop} {name : Text}, (∀ other ∈ names, kind other) → kind name →
        ∀ other ∈ names ++ [name], kind other := fun each last =>
      List.forall_mem_append.mpr ⟨each, List.forall_mem_singleton.mpr last⟩
    have relative := rooted.relative_walked named named
    have single : ∀ name ∈ names, Path.Single name := fun name member => (named name member).single
    refine (maintains_names placed located sound undotted named).bind fun listing entries => ?_
    have sorted : ∀ name ∈ sort listing, Path.Named name ∧ ((".py" : Text) <:+ name → Path.Steady name) :=
      fun name member =>
      entries name ((sort_perm listing).mem_iff.mp member)
    have above : Below Path.Steady (Path.directory (Path.join folder
        ((Module.locate settings (Path.walked settings.library names)).relative
          (Path.walked settings.library names)))) := by
      rw [relative, directory_save single]
      exact below_pagePath (fun name member => single name (List.mem_of_mem_dropLast member))
        fun name member => steady name (List.mem_of_mem_dropLast member)
    refine (preserves_makePages placed free sound above).then fun _ => ?_
    refine (maintains_directories placed located undotted named fun name member => (sorted name member).1).bind
      fun directories found => ?_
    -- the folders first, by the induction on the depth
    refine Preserves.then (Preserves.mapM fun path member => ?_) fun folders => ?_
    · obtain ⟨name, rfl, proper, level⟩ := found path (List.mem_of_mem_filter member)
      exact (ih (extended named proper) (extended steady level)).then fun _ => .pure trivial
    -- then the modules, each with the target that the one before has left
    have modules : ∀ path ∈
        ((sort listing).map (Path.join (Path.walked settings.library names))).filter Module.isModule,
        ∀ previous : Option Target, (∀ target, previous = some target → target.Inner) →
          Maintains site (Held site lib base) (fun result => ∀ target, result = some target → target.Inner)
            (writeModule settings (Module.locate settings (Path.walked settings.library names))
              (frameworksFor settings (Path.walked settings.library names)) previous path) := by
      intro path member previous before
      obtain ⟨inside, test⟩ := List.mem_filter.mp member
      obtain ⟨name, entry, rfl⟩ := List.mem_map.mp inside
      obtain ⟨proper, module⟩ := sorted name entry
      obtain ⟨stem, rfl, kept⟩ := (Module.isModule_join_iff _ proper.noSlash).mp test
      rw [← Path.walked_snoc]
      exact maintains_writeModule placed free rooted sound located (extended named proper)
        (extended steady (module (List.suffix_append _ _))) kept _ before
    refine (Maintains.foldlM modules (fun _ none => by cases none)).bind fun _ _ => ?_
    dsimp only
    rw [relative]
    refine (preserves_writeDirectory placed free single steady _ _ _ _).then fun _ => ?_
    split
    · exact (preserves_writeIndex placed free sound listed _).then fun _ => .pure trivial
    · exact .pure trivial

end

end

/-- Whatever the texts of modules are, only pages and folders below the folder of the pages change, and pages of
functions and classes whose names begin with a slash; those are written wherever the names lead. -/
theorem write_stays_below {site : Site} (placed : site.Sound) (free : site.root ≠ folder) {settings : Settings}
    {name : Text} (single : Path.Single name) (beside : settings.library = ("../" : Text) ++ name) {lib : Place}
    {base : Tree} (sound : base.Sound) (located : site.locate base settings.library = .ok lib)
    (undotted : Undotted lib base) (listed : Listed site base settings) (place : Place) :
    ((write settings settings.library).runOn site base).2.get? place = base.get? place ∨ top site <+: place ∨
      Stray site lib base place ∧ base.get? place ≠ some .directory ∧
        ∃ bytes, ((write settings settings.library).runOn site base).2.get? place = some (.file bytes) := by
  have rooted := Module.rooted_beside single beside
  have held : Held site lib base ((write settings settings.library).runOn site base).2 := by
    rw [runOn_write]
    exact (preserves_writeUpTo placed free rooted sound located undotted listed _ (List.forall_mem_nil _)
      (List.forall_mem_nil _)
      base (.refl _ _ base)).1
  rcases held.each place with same | ⟨⟨_, inside | stray⟩, vacant, written⟩ | ⟨_, _, inside, _⟩
  · exact .inl same
  · exact .inr (.inl inside)
  · exact .inr (.inr ⟨stray, vacant, written⟩)
  · exact .inr (.inl inside)

def astraySite : Site := .ascending "/workspace" ["docs"]

def astrayTree : Tree :=
  ⟨[(["README.rst"], .file (Utf8.bytesOf "Read\n")), (["docs"], .directory), (["docs", "ivy_modules.txt"], .file []),
    (["docs", "partial_source"], .directory), (["docs", "partial_source", "index_prepend.rst"], .file []),
    (["lib"], .directory),
    (["lib", "m.py"], .file (Utf8.bytesOf "\nclass /workspace/astray(A):\n"))]⟩

def astraySettings : Settings := { library := "../lib", heading := .byDirectory }

theorem listed_astray : Listed astraySite astrayTree astraySettings := by
  intro now place bytes text located held decoded
  have relative : astraySite.Relative (Path.join astraySettings.here "ivy_modules.txt") ["ivy_modules.txt"] := {
    accepted := by decide
    proper := by decide
    fromStart := by rw [← Site.fromRoot_iff]; decide
    relative := by decide
    listed := by decide
    named := fun name member => List.mem_singleton.mp member ▸ Path.named_of_isNamed (by decide) }
  obtain rfl := relative.eq_of_locate located
  cases held
  cases decoded
  simp [unifyNewlines, lines]

theorem write_stays_below_sample :
    astrayTree.get? ["astray.rst"] = none ∧
      (((write astraySettings astraySettings.library).runOn astraySite astrayTree).2.get? ["astray.rst"]).isSome =
        true ∧
      ∀ place, ((write astraySettings astraySettings.library).runOn astraySite astrayTree).2.get? place =
        astrayTree.get? place ∨
        top astraySite <+: place ∨ Stray astraySite ["lib"] astrayTree place ∧ astrayTree.get? place ≠ some .directory ∧
          ∃ bytes, ((write astraySettings astraySettings.library).runOn astraySite astrayTree).2.get? place =
            some (.file bytes) := by
  have single : Path.Single "lib" := (Path.word_of_isWord (by decide)).single
  refine ⟨by decide, by decide +kernel, ?_⟩
  exact write_stays_below (.inr (by decide)) (by decide) single rfl
    (Tree.sound_of_isSound (by decide +kernel)) (by decide)
    (undotted_of_isUndotted (by decide +kernel)) listed_astray

end Pages
end ApiDocs
