import ApiDocs.Build
import ApiDocs.Proofs.Build.Configure
import ApiDocs.Proofs.Build.Prepare
import ApiDocs.Proofs.File.Same

/-! Runs that begin with different old pages. Nothing looks at the folder of pages before it is made anew, and from then
on the two trees hold the same, so the runs come to the same outcome. -/

set_option autoImplicit false

namespace ApiDocs

open Script

variable {site : Site}

theorem Toctree.blind_append (toctree : Toctree) (page : Text) (common : Option Text) (spaced : Bool) :
    Blind site (toctree.append page common spaced) :=
  blind_appendPieces _ _

namespace Module

theorem blind_directories (paths : List Text) : Blind site (directories paths) :=
  Mirrors.filterM fun path => (blind_isDirectory path).bind fun _ => Mirrors.pure _

theorem blind_read (path dotted : Text) : Blind site (read path dotted) :=
  (blind_readLenient path).bind fun _ => Mirrors.ofExcept _ _

end Module

namespace Stub

theorem blind_append (text path dotted : Text) : Blind site (append text path dotted) := by
  unfold append
  split
  · exact blind_appendPieces _ _
  · exact Mirrors.pure ()

theorem blind_appendModules (location : Module.Location) (modules : List Text) :
    Blind site (appendModules location modules) := by
  refine Mirrors.forM fun path => (blind_readLenient path).bind fun text => ?_
  split
  · exact blind_append text path _
  · exact Mirrors.pure ()

theorem blind_gatherUpTo (settings : Settings) (depth : Nat) (directory : Text) :
    Blind site (gatherUpTo settings depth directory) := by
  induction depth generalizing directory with
  | zero => exact Mirrors.throw _
  | succ depth ih =>
    refine (blind_names directory).bind fun names => (Module.blind_directories _).bind fun directories => ?_
    refine (Mirrors.forM fun inner => ?_).bind fun _ => blind_appendModules _ _
    split
    · exact ih inner
    · exact Mirrors.pure ()

theorem blind_gather (settings : Settings) (directory : Text) : Blind site (gather settings directory) :=
  blind_height fun height => blind_gatherUpTo settings (height + 2) directory

end Stub

namespace Pages

theorem blind_begin (target : Target) : Blind site target.begin :=
  (blind_makeDirectories target.folder true).bind fun _ => blind_writeText _ _

theorem blind_writeModule (settings : Settings) (location : Module.Location) (frameworks : Text)
    (previous : Option Target) (path : Text) : Blind site (writeModule settings location frameworks previous path) := by
  refine (Mirrors.forM fun target => blind_begin target).bind fun _ => ?_
  split
  · exact Mirrors.throw _
  · rename_i target _
    refine (Module.blind_read path target.dotted).bind fun defined => ?_
    refine (Toctree.blind_append _ _ _ _).bind fun _ => ?_
    refine (Mirrors.forM fun dotted => blind_writeText _ _).bind fun _ => ?_
    exact (Mirrors.forM fun dotted => blind_writeText _ _).bind fun _ => Mirrors.pure _

theorem blind_copyReadme (readme page : Text) : Blind site (Readme.copy readme page) :=
  (blind_readText readme).bind fun _ => blind_writeText page _

theorem blind_writeDirectory (settings : Settings) (directory save : Text) (contents directories modules : List Text) :
    Blind site (writeDirectory settings directory save contents directories modules) := by
  unfold writeDirectory
  split
  · split
    · exact (blind_copyReadme _ _).bind fun _ => Toctree.blind_append _ _ _ _
    · exact Toctree.blind_append _ _ _ _
  · exact Mirrors.pure ()

theorem blind_writeIndex (settings : Settings) (folders : Toctree) : Blind site (writeIndex settings folders) := by
  have related : ∀ (index : Text) (toctree : Toctree), Blind site (do
      let related := (← readLines (Path.join settings.here "ivy_modules.txt")).map fun line =>
        Text.replace "\n" "" line ++ ".rst"
      makeDirectories (folder ++ "/docs") true
      related.forM writeRelated
      Toctree.append (Table.put "docs" related toctree) index none true : Script Unit) := by
    intro index toctree
    refine (blind_readLines _).bind fun lines => (blind_makeDirectories _ true).bind fun _ => ?_
    exact (Mirrors.forM fun page => blind_writeText _ _).bind fun _ => Toctree.blind_append _ _ _ _
  refine (blind_readText _).bind fun before => (blind_readText _).bind fun text => ?_
  refine (Mirrors.ofExcept _ _).bind fun readme => (blind_present _).bind fun ended => ?_
  dsimp only
  -- the index has an ending or not; what comes after it does not depend on that
  split
  all_goals
    refine Mirrors.bind ?_ fun ending => (blind_writeText _ _).bind fun _ => ?_
  · exact blind_readText _
  rotate_left
  · exact Mirrors.pure _
  all_goals
    cases settings.heading with
    | byDirectory => exact related _ _
    | common title => exact (Toctree.blind_append _ _ _ _).bind fun _ => related _ _
    | untitled => exact (Mirrors.throw _).bind fun _ => related _ _

theorem blind_writeUpTo (settings : Settings) (depth : Nat) (directory : Text) :
    Blind site (writeUpTo settings depth directory) := by
  induction depth generalizing directory with
  | zero => exact Mirrors.throw _
  | succ depth ih =>
    refine (blind_names directory).bind fun names => (blind_makeDirectories _ true).bind fun _ => ?_
    refine (Module.blind_directories _).bind fun directories => ?_
    refine (Mirrors.mapM fun inner => (ih inner).bind fun _ => Mirrors.pure _).bind fun folders => ?_
    refine (Mirrors.foldlM (fun previous path => blind_writeModule _ _ _ previous path) none).bind fun _ => ?_
    refine (blind_writeDirectory _ _ _ _ _ _).bind fun _ => ?_
    split
    · exact (blind_writeIndex _ _).bind fun _ => Mirrors.pure _
    · exact Mirrors.pure _

theorem blind_write (settings : Settings) (directory : Text) : Blind site (write settings directory) :=
  blind_height fun height => blind_writeUpTo settings (2 * (height + 4)) directory

end Pages

namespace Instance

theorem blind_refill (path : Text) (lines : Except Fault (List Text)) : Blind site (refill path lines) :=
  (blind_writeText path []).bind fun _ => (Mirrors.ofExcept _ _).bind fun _ => blind_writeText path _

theorem blind_mergePage (type path stubs functional file : Text) :
    Blind site (mergePage type path stubs functional file) := by
  refine (blind_readLines _).bind fun lines => ?_
  split
  · exact Mirrors.pure _
  · refine (Mirrors.ofExcept _ _).bind fun raw => ?_
    dsimp only
    split
    · exact Mirrors.pure _
    · refine (blind_present _).bind fun there => ?_
      split
      · exact Mirrors.pure _
      · refine (blind_names _).bind fun names => ?_
        split
        · exact Mirrors.pure _
        · refine (blind_makeDirectories _ true).bind fun _ => (blind_readLines _).bind fun pageLines => ?_
          refine (Mirrors.ofExcept _ _).bind fun merged => (blind_refill _ _).bind fun _ =>
            (blind_present _).bind fun copied => ?_
          split
          · exact (blind_refill _ _).bind fun _ => (blind_writeText _ _).bind fun _ => Mirrors.pure _
          · exact (blind_writeText _ _).bind fun _ => Mirrors.pure _

theorem blind_merge (type path : Text) (files : List Text) (stubs functional : Text) :
    Blind site (merge type path files stubs functional) :=
  (Mirrors.filterMapM fun file => blind_mergePage type path stubs functional file).bind fun _ => Mirrors.pure _

theorem blind_listFolder (page : Text) : Blind site (listFolder page) :=
  (blind_names _).bind fun _ => (Mirrors.ofExcept _ _).bind fun _ => Toctree.blind_append _ _ _ _

theorem blind_mergeAll (settings : Settings) : Blind site (mergeAll settings) := by
  refine (blind_readText _).bind fun arrayStubs => (blind_readText _).bind fun containerStubs => ?_
  refine (blind_names _).bind fun arrayFiles => (blind_names _).bind fun containerFiles => ?_
  refine (blind_merge _ _ _ _ _).bind fun fromContainer => (blind_merge _ _ _ _ _).bind fun fromArray => ?_
  exact Mirrors.forM blind_listFolder

end Instance

namespace DataClass

theorem blind_dropTitle (page : Text) : Blind site (dropTitle page) :=
  (blind_readLines page).bind fun _ => blind_writeText page _

theorem blind_moveEntry (directory submodule line : Text) : Blind site (moveEntry directory submodule line) := by
  unfold moveEntry
  split
  · exact (blind_dropTitle _).bind fun _ => Mirrors.pure _
  · exact Mirrors.pure _

theorem blind_moveLine (directory submodule line : Text) : Blind site (moveLine directory submodule line) := by
  unfold moveLine
  split
  · exact (blind_moveEntry _ _ _).bind fun _ => Mirrors.pure _
  · exact (blind_moveEntry _ _ _).bind fun _ => Mirrors.pure _

theorem blind_liftPage (page source submodule : Text) : Blind site (liftPage page source submodule) :=
  (blind_readLines source).bind fun _ => (Mirrors.mapM fun line => blind_moveLine _ _ line).bind fun _ =>
    blind_writeText page _

theorem blind_writePage (folder page title dotted submodule : Text) :
    Blind site (writePage folder page title dotted submodule) := by
  have list : Blind site (do
      let files := (← names folder).filter fun file =>
        Text.mentions ".rst" file && !(["array.rst", "container.rst"] : List Text).contains file
      Toctree.append [(submodule, Text.sort files)] page (some title) true : Script Unit) :=
    (blind_names folder).bind fun _ => Toctree.blind_append _ _ _ _
  unfold writePage
  split
  · exact (blind_liftPage _ _ _).bind fun _ => list
  · split
    · exact (blind_liftPage _ _ _).bind fun _ => list
    · exact (blind_writeText _ _).bind fun _ => list

theorem blind_listInIndex (pages name title : Text) : Blind site (listInIndex pages name title) :=
  (blind_names _).bind fun _ => Toctree.blind_append _ _ _ _

theorem blind_rearrangeIndex (pages : Text) : Blind site (rearrangeIndex pages) := by
  refine (blind_readLines _).bind fun lines => (Mirrors.ofExcept _ _).bind fun cut =>
    (blind_writeText _ _).bind fun _ => ?_
  exact (blind_listInIndex _ _ _).bind fun _ => (blind_listInIndex _ _ _).bind fun _ => blind_appendPieces _ _

theorem blind_relocate (settings : Settings)
    (inner : ∀ name ∈ (["array", "container"] : List Text), ∀ tree origin,
      site.locate tree (Path.join (Path.join settings.here Pages.folder) name) = .ok origin → origin ≠ []) :
    Blind site (relocate settings) := by
  refine (blind_makeDirectories _ true).bind fun _ => ?_
  refine (blind_moveInto (inner "array" (by simp)) _).bind fun _ =>
    (blind_moveInto (inner "container" (by simp)) _).bind fun _ => ?_
  refine (blind_writePage _ _ _ _ _).bind fun _ => (blind_writePage _ _ _ _ _).bind fun _ => ?_
  exact (blind_writePage _ _ _ _ _).bind fun _ => (blind_writePage _ _ _ _ _).bind fun _ => blind_rearrangeIndex _

end DataClass

namespace Discussion

theorem blind_appendModule (modules module : Json) : Blind site (appendModule modules module) := by
  refine (Mirrors.ofExcept _ _).bind fun submodules => (Mirrors.ofExcept _ _).bind fun items => ?_
  exact Mirrors.forM fun submodule => (Mirrors.ofExcept _ _).bind fun _ => blind_appendPieces _ _

theorem blind_append : Blind site append := by
  refine (blind_readText _).bind fun text => (Mirrors.ofExcept _ _).bind fun modules =>
    (Mirrors.ofExcept _ _).bind fun items => ?_
  exact Mirrors.forM fun module => blind_appendModule modules module

end Discussion

namespace Build

/-- Trees that differ at most in the folder of pages. -/
structure Leftover (site : Site) (tree other : Tree) : Prop where
  agree : ∀ place, ¬site.below ["autogenerated_source"] <+: place → tree.get? place = other.get? place
  start : tree.get? site.start = some .directory
  pages : tree.get? (site.below ["autogenerated_source"]) = none ∨
    tree.get? (site.below ["autogenerated_source"]) = some .directory
  otherPages : other.get? (site.below ["autogenerated_source"]) = none ∨
    other.get? (site.below ["autogenerated_source"]) = some .directory
  sound : tree.Sound
  otherSound : other.Sound
  distinct : tree.Distinct
  otherDistinct : other.Distinct

variable {tree other : Tree}

theorem not_below_start (site : Site) (name : Text) : ¬site.below [name] <+: site.start := by
  intro inside
  have shorter := inside.length_le
  rw [List.length_append, List.length_singleton] at shorter
  omega

theorem Leftover.otherStart (left : Leftover site tree other) : other.get? site.start = some .directory := by
  rw [← left.agree site.start (not_below_start site _), left.start]

section
variable {path name : Text} {names : Place} (relative : site.Relative path (name :: names))
  (apart : name ≠ "autogenerated_source") (left : Leftover site tree other)
include relative apart left

theorem Leftover.locate : site.locate tree path = site.locate other path := by
  rw [relative.locate_eq_walk, relative.locate_eq_walk]
  refine Site.walk_congr relative.named fun front inside => left.agree _ ?_
  cases front with
  | nil =>
    rw [List.append_nil]
    exact not_below_start site _
  | cons first rest =>
    obtain ⟨rfl, -⟩ := List.cons_prefix_cons.mp inside
    exact site.not_below_names apart.symm [] rest

theorem Leftover.held {place : Place} (located : site.locate tree path = .ok place) :
    tree.get? place = other.get? place := by
  rw [relative.eq_of_locate located]
  exact left.agree _ (site.not_below_names apart.symm [] names)

theorem Leftover.find : site.find tree path = site.find other path := by
  unfold Site.find
  rw [← left.locate relative apart]
  cases located : site.locate tree path with
  | error refusal => rfl
  | ok place => simp only [bind, Except.bind, left.held relative apart located]

theorem Leftover.writable (bare : path.getLast? ≠ some (.char '/')) :
    writable path site tree = writable path site other := by
  unfold Script.writable
  simp only [relative.accepted, bind, Except.bind, if_neg bare]
  rw [← left.locate relative apart]
  cases located : site.locate tree path with
  | error refusal => rfl
  | ok place => simp only [left.held relative apart located]

theorem Leftover.put {place : Place} {bytes held : Bytes} (found : Script.writable path site tree = .ok (place, held))
    (bare : path.getLast? ≠ some (.char '/')) :
    Leftover site (tree.put place (.file bytes)) (other.put place (.file bytes)) := by
  have outside : ¬site.below ["autogenerated_source"] <+: place := by
    rw [relative.eq_of_locate (locate_of_writable found)]
    exact site.not_below_names apart.symm [] names
  have found' := (left.writable relative apart bare).symm.trans found
  have keeps : ∀ (base : Tree) (spot : Place), spot ≠ place →
      (base.put place (.file bytes)).get? spot = base.get? spot :=
    fun base spot differs => Tree.get?_put_apart _ _ differs.symm
  have pages : site.below ["autogenerated_source"] ≠ place := fun same => outside (same ▸ List.prefix_refl _)
  have start : site.start ≠ place := by
    rw [relative.eq_of_locate (locate_of_writable found)]
    simp
  -- what lies above the file that is written is there in both trees, so both stay sound
  have sound : ∀ base : Tree, base.Sound → Script.writable path site base = .ok (place, held) →
      (base.put place (.file bytes)).Sound := by
    intro base sound found
    have vacant := not_directory_of_writable found
    exact sound.put (fun directory => absurd directory vacant)
      (.inr ((Site.locate_cases sound (locate_of_writable found)).resolve_left vacant))
  exact {
    agree := fun spot apart => by
      by_cases same : spot = place
      · have inner : place ≠ [] := by
          rintro rfl
          exact not_directory_of_writable found rfl
        rw [same, Tree.get?_put _ _ _ _ inner, Tree.get?_put _ _ _ _ inner, if_pos rfl, if_pos rfl]
      · rw [keeps tree spot same, keeps other spot same, left.agree spot apart]
    start := (keeps tree _ start).trans left.start
    pages := by rw [keeps tree _ pages]; exact left.pages
    otherPages := by rw [keeps other _ pages]; exact left.otherPages
    sound := sound tree left.sound found
    otherSound := sound other left.otherSound found'
    distinct := left.distinct.put _ _
    otherDistinct := left.otherDistinct.put _ _ }

end

theorem runOn_writeAfter_text (site : Site) (place : Place) (text : Text) :
    ∃ outcome bytes, ∀ tree, (writeAfter [] place [text]).runOn site tree =
      (outcome, tree.put place (.file bytes)) := by
  cases encoded : Utf8.encode text with
  | ok bytes => exact ⟨.ok (), bytes, fun tree => by simp only [writeAfter, encoded]; rfl⟩
  | error run => exact ⟨.error (.unencodable run), [], fun tree => by simp only [writeAfter, encoded]; rfl⟩

theorem mirrors_writeConfiguration (clear : site.Clear) (title : Text) :
    Mirrors site (Leftover site) (writeConfiguration title) := by
  have relative : site.Relative "partial_source/conf.py" ["partial_source", "conf.py"] :=
    clear.relative (by decide : ("partial_source" : Text) ∈ Site.folders) (.inr ⟨"conf.py", by decide⟩)
      (by decide) (by decide)
      (Path.named_of_all (by decide))
  have apart : ("partial_source" : Text) ≠ "autogenerated_source" := by decide
  have bare : ("partial_source/conf.py" : Text).getLast? ≠ some (.char '/') := by decide
  refine Mirrors.bind (fun tree other left => ?_) fun text tree other left => ?_
  · rw [runOn_readText, runOn_readText]
    refine ⟨?_, left⟩
    unfold textAt bytesAt
    rw [left.find relative apart]
  · have same := left.writable relative apart bare
    unfold writeText
    rw [Script.runOn_bind, Script.runOn_bind, runOn_inspect, runOn_inspect, ← same]
    cases found : Script.writable "partial_source/conf.py" site tree with
    | error refusal => exact ⟨rfl, left⟩
    | ok target =>
      obtain ⟨place, held⟩ := target
      obtain ⟨outcome, bytes, run⟩ := runOn_writeAfter_text site place
        (Text.replace "project = 'Ivy'" ("project = '" ++ title ++ "'") text)
      simp only [Except.mapError, andThen_ok, run]
      exact ⟨trivial, left.put relative apart found bare⟩

/-- Once the folder has been cleared nothing is left of what it held. -/
theorem Leftover.cleared (clear : site.Clear) (left : Leftover site tree other) :
    ∃ after final, clearFolder.runOn site tree = (.ok (), after) ∧ clearFolder.runOn site other = (.ok (), final) ∧
      after.Same final := by
  obtain ⟨after, run, sound, distinct, vacant, kept⟩ :=
    runOn_clearFolder clear left.sound left.distinct left.start left.pages
  obtain ⟨final, run', sound', distinct', vacant', kept'⟩ :=
    runOn_clearFolder clear left.otherSound left.otherDistinct left.otherStart left.otherPages
  refine ⟨after, final, run, run', ⟨fun place => ?_, distinct, distinct'⟩⟩
  by_cases inside : site.below ["autogenerated_source"] <+: place
  · obtain ⟨rest, rfl⟩ := inside
    rw [sound.vacant_below vacant, sound'.vacant_below vacant']
  · rw [kept place inside, kept' place inside, left.agree place inside]

section
variable (clear : site.Clear)
include clear

omit clear in
def copyFolders : Script Unit := do
  copyDirectory "partial_source/images" "build/_images"
  copyDirectory "partial_source" Pages.folder

theorem blind_copyFolders : Blind site copyFolders := by
  refine (blind_copyDirectory (fun tree origin located => ?_) _).bind fun _ =>
    blind_copyDirectory (fun tree origin located => ?_) _
  · rw [(relative_images clear).eq_of_locate located]
    simp
  · rw [(relative_source clear).eq_of_locate located]
    simp

omit clear in
theorem blind_removeStubPages : Blind site removeStubPages :=
  (blind_removeDirectory _).bind fun _ => (blind_removeFile _).bind fun _ =>
    (blind_removeDirectory _).bind fun _ => blind_removeFile _

omit clear in
def writeInto (settings : Settings) : Script Unit := do
  if settings.merges then Stub.gather settings settings.library
  let _ ← Pages.write settings settings.library
  if settings.merges then
    Instance.mergeAll settings
    removeStubPages
    DataClass.relocate settings
    Discussion.append

theorem blind_writeInto (named : ∀ name ∈ site.start, Path.Named name) {settings : Settings}
    (here : settings.here = site.here) :
    Blind site (writeInto settings) := by
  have inner : ∀ name ∈ (["array", "container"] : List Text), ∀ tree origin,
      site.locate tree (Path.join (Path.join settings.here Pages.folder) name) = .ok origin → origin ≠ [] := by
    intro name listed tree origin located
    have known : ∀ part ∈ ([Pages.folder, "array", "container"] : Place), Path.Named part :=
      Path.named_of_all (by decide)
    have proper : ∀ part ∈ ([Pages.folder, name] : Place), Path.Named part := by
      intro part member
      refine known part (List.mem_cons.mpr ((List.mem_cons.mp member).imp_right fun last => ?_))
      rw [List.mem_singleton.mp last]
      exact listed
    rw [here] at located
    rw [clear.eq_of_locate_here named proper located]
    simp
  unfold writeInto
  split
  · refine (Stub.blind_gather _ _).bind fun _ => (Pages.blind_write _ _).bind fun _ => ?_
    refine (Instance.blind_mergeAll settings).bind fun _ => blind_removeStubPages.bind fun _ => ?_
    exact (DataClass.blind_relocate settings inner).bind fun _ => Discussion.blind_append
  · exact (Pages.blind_write _ _).bind fun _ => Mirrors.pure ()

omit clear in
theorem runOn_writePages_of (settings : Settings) {base between : Tree}
    (clearing : clearFolder.runOn site base = (.ok (), between)) :
    (writePages settings).runOn site base = (copyFolders >>= fun _ => writeInto settings).runOn site between := by
  have cut : writePages settings = prepareFolder >>= fun _ => writeInto settings := rfl
  have anew : prepareFolder.runOn site base = copyFolders.runOn site between := by
    rw [runOn_prepareFolder_eq, Script.runOn_bind, clearing, andThen_ok]
    rfl
  rw [cut, Script.runOn_bind, anew, Script.runOn_bind]

theorem Leftover.writePages (left : Leftover site tree other) {settings : Settings} (here : settings.here = site.here) :
    ((writePages settings).runOn site tree).1 = ((writePages settings).runOn site other).1 ∧
      ((writePages settings).runOn site tree).2.Same ((writePages settings).runOn site other).2 := by
  have named : ∀ name ∈ site.start, Path.Named name := by
    apply left.sound.named_of_mem
    rw [List.nil_append, left.start]
    rfl
  obtain ⟨after, final, run, run', same⟩ := left.cleared clear
  rw [runOn_writePages_of settings run, runOn_writePages_of settings run']
  exact (blind_copyFolders clear).bind (fun _ => blind_writeInto clear named here) after final same

end

/-- Old pages leave no trace. Two runs that differ only in what the folder of pages held before, if it was there, come
to the same outcome under the same settings, and after a success the trees hold the same everywhere. -/
theorem perform_forgets_pages (clear : site.Clear) (left : Leftover site tree other) (library : Text)
    (heading : Heading) (initial : Settings) :
    ((perform library heading).runOn site ⟨initial, tree⟩).1 =
      ((perform library heading).runOn site ⟨initial, other⟩).1 ∧
      ((perform library heading).runOn site ⟨initial, tree⟩).2.settings =
        ((perform library heading).runOn site ⟨initial, other⟩).2.settings ∧
      (((perform library heading).runOn site ⟨initial, tree⟩).1 = .ok () → ∀ place,
        ((perform library heading).runOn site ⟨initial, tree⟩).2.tree.get? place =
          ((perform library heading).runOn site ⟨initial, other⟩).2.tree.get? place) := by
  have settingNamed : ∀ name ∈ settingNames, Path.Named name := Path.named_of_all (by decide)
  have settingApart : ∀ name ∈ settingNames, name ≠ "autogenerated_source" := by decide
  have agree : ∀ name ∈ settingNames, site.find tree (Path.join site.here name) =
      site.find other (Path.join site.here name) := by
    intro name listed
    refine clear.find_here left.sound left.otherSound left.start left.otherStart (settingNamed name listed)
      (left.agree _ ?_)
    exact site.not_below_names (settingApart name listed).symm [] []
  -- the settings are read from files that lie beside the folder of pages
  obtain ⟨outcome, settings, here, -, run, run'⟩ := configure_alike agree library heading initial
  unfold perform files
  rw [runOn_bind, run, runOn_bind, run']
  cases outcome with
  | error fault => exact ⟨rfl, rfl, fun done => by cases done⟩
  | ok _ =>
    obtain ⟨same, left⟩ := mirrors_writeConfiguration clear (projectTitle library) tree other left
    simp only [runOn_bind, runOn_withSettings]
    rcases first : (writeConfiguration (projectTitle library)).runOn site tree with ⟨outcome, between⟩
    rcases second : (writeConfiguration (projectTitle library)).runOn site other with ⟨outcome', between'⟩
    rw [first, second] at same left
    obtain rfl : outcome = outcome' := same
    cases outcome with
    | error fault => exact ⟨rfl, rfl, fun done => by cases done⟩
    | ok _ =>
      -- only here the folder of pages is looked at: it is removed first
      obtain ⟨same, final⟩ := left.writePages clear here
      exact ⟨same, rfl, fun _ => final.agree⟩

def freshSite : Site := .ascending "/workspace" ["docs"]

def freshTree : Tree :=
  ⟨[(["README.rst"], .file (Utf8.bytesOf "Read\n")), (["docs"], .directory), (["docs", "ivy_modules.txt"], .file []),
    (["docs", "partial_source"], .directory), (["docs", "partial_source", "conf.py"], .file []),
    (["docs", "partial_source", "images"], .directory),
    (["docs", "partial_source", "index_prepend.rst"], .file (Utf8.bytesOf "Pre\n")), (["lib"], .directory)]⟩

def usedTree : Tree :=
  (freshTree.put ["docs", "autogenerated_source"] .directory).put ["docs", "autogenerated_source", "old.rst"] (.file [])

theorem perform_forgets_pages_sample :
    ((perform "../lib" .byDirectory).runOn freshSite ⟨{}, freshTree⟩).1 = .ok () ∧
      ((perform "../lib" .byDirectory).runOn freshSite ⟨{}, usedTree⟩).1 = .ok () ∧
      ∀ place, ((perform "../lib" .byDirectory).runOn freshSite ⟨{}, freshTree⟩).2.tree.get? place =
        ((perform "../lib" .byDirectory).runOn freshSite ⟨{}, usedTree⟩).2.tree.get? place := by
  have clear : freshSite.Clear := ⟨.inr (by decide), by decide, by decide, by decide⟩
  have left : Leftover freshSite freshTree usedTree := {
    agree := fun place outside => by
      have folder : (["docs", "autogenerated_source"] : Place) ≠ place :=
        fun same => outside (same ▸ List.prefix_refl _)
      have page : (["docs", "autogenerated_source", "old.rst"] : Place) ≠ place := fun same =>
        outside (same ▸ by decide)
      rw [usedTree, Tree.get?_put_apart _ _ page, Tree.get?_put_apart _ _ folder]
    start := by decide
    pages := .inl (by decide)
    otherPages := .inr (by decide)
    sound := Tree.sound_of_isSound (by decide +kernel)
    otherSound := Tree.sound_of_isSound (by decide +kernel)
    distinct := by unfold Tree.Distinct; decide
    otherDistinct := by unfold Tree.Distinct; decide }
  obtain ⟨same, -, final⟩ := perform_forgets_pages clear left "../lib" .byDirectory {}
  have done : ((perform "../lib" .byDirectory).runOn freshSite ⟨{}, freshTree⟩).1 = .ok () := by decide +kernel
  exact ⟨done, same ▸ done, final done⟩

end Build

end ApiDocs
