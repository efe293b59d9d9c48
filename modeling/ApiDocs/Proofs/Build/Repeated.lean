import ApiDocs.Proofs.Build.Anew
import ApiDocs.Proofs.Build.Restart
import ApiDocs.Proofs.Build.Resumed

/-! A whole run twice. The first run leaves files of stubs in the library, to which the second run appends the same
sections again; the pages that it writes are those of the first run where the stubs come to lie directly with the data
classes and read as closed definitions. -/

set_option autoImplicit false

namespace ApiDocs

namespace Tree

variable {differ : Place → Bytes → Bytes → Prop} {tree other : Tree}

theorem Alike.refl (differ : Place → Bytes → Bytes → Prop) (tree : Tree) : tree.Alike differ tree := by
  refine ⟨.refl tree, fun place first second held there => .inl ?_⟩
  rw [held] at there
  cases there
  rfl

theorem Alike.get?_eq (alike : tree.Alike differ other) {place : Place}
    (same : ∀ first second, ¬differ place first second) :
    other.get? place = tree.get? place := by
  cases held : tree.get? place with
  | none => exact alike.shape.absent held
  | some entry =>
    cases entry with
    | directory => exact (alike.shape.directory place).mp held
    | file bytes =>
      obtain ⟨more, there⟩ := alike.shape.file held
      rw [there, (alike.files place bytes more held there).resolve_right (same bytes more)]

theorem height_le_of_present (more : ∀ place, (tree.get? place).isSome = true → (other.get? place).isSome = true) :
    tree.height ≤ other.height :=
  height_le fun place present => length_le_height (more place present)

end Tree

namespace Pages

theorem grown_write {site : Site} {settings : Settings} {base after : Tree} (sound : base.Sound)
    (distinct : base.Distinct) {toctree : List Text × List Text}
    (run : (write settings settings.library).runOn site base = (.ok toctree, after)) :
    Tree.Grown Place.IsPage base after := by
  have undisturbed : Undisturbed site (fun _ _ _ => False) base settings :=
    ⟨fun _ _ _ _ _ differs => differs.elim, fun _ _ _ _ _ _ differs => differs, fun _ _ _ _ _ _ differs => differs⟩
  have alike : ModulesAlike site (fun _ _ _ => False) base settings settings.frameworks
      fun _ target => ∀ own, target = some own → own.Proper :=
    fun names name previous _ _ _ proper => follows_writeModule_apart undisturbed proper fun _ _ _ _ differs => differs
  obtain ⟨_, _, _, _, twin⟩ := follows_write undisturbed (fun _ _ eq => nomatch eq) alike base base toctree after
    ⟨.refl _ base, .refl sound distinct, distinct⟩ run
  exact twin.grown

end Pages

theorem Stub.extended_gather {site : Site} {settings : Settings} {directory : Text} {tree after : Tree}
    (run : (gather settings directory).runOn site tree = (.ok (), after)) : Extended tree after := by
  rw [runOn_gather] at run
  exact .gatherUpTo (.refl tree) run

namespace Build

open Script Stub Text

theorem textAt_of_mergeAll {site : Site} {settings : Settings} {tree after : Tree}
    (run : (Instance.mergeAll settings).runOn site tree = (.ok (), after)) :
    ∀ kind ∈ kinds, ∃ text, textAt site tree (stubsPath settings kind) = .ok text := by
  unfold Instance.mergeAll at run
  obtain ⟨arrays, between, first, run⟩ := Script.runOn_bind_ok run
  rw [runOn_readText] at first
  obtain ⟨readArrays, rfl⟩ := Prod.mk.inj first
  obtain ⟨containers, between, second, _⟩ := Script.runOn_bind_ok run
  rw [runOn_readText] at second
  obtain ⟨readContainers, rfl⟩ := Prod.mk.inj second
  intro kind member
  simp only [kinds, List.mem_cons, List.not_mem_nil, or_false] at member
  rcases member with rfl | rfl
  · exact ⟨arrays, readArrays⟩
  · exact ⟨containers, readContainers⟩

def gatherAnew (settings : Settings) : Script Unit := do
  writeConfiguration (projectTitle settings.library)
  prepareFolder
  if settings.merges then gather settings settings.library

def gatheredAnew (site : Site) (settings : Settings) (tree : Tree) : Tree := ((gatherAnew settings).runOn site tree).2

theorem perform_stages {site : Site} {library : Text} {heading : Heading} {initial settings : Settings}
    {tree after : Tree} (run : (perform library heading).runOn site ⟨initial, tree⟩ = (.ok (), ⟨settings, after⟩)) :
    (configure library heading).runOn site ⟨initial, tree⟩ = (.ok (), ⟨settings, tree⟩) ∧ settings.here = site.here ∧
      settings.library = library ∧
      ∃ configured, (writeConfiguration (projectTitle library)).runOn site tree = (.ok (), configured) ∧
        (writePages settings).runOn site configured = (.ok (), after) := by
  obtain ⟨outcome, made, here, kept, left, _⟩ :=
    configure_alike (fun _ _ => rfl : ∀ name ∈ settingNames, site.find tree _ = site.find tree _)
      library heading initial
  have whole := run
  unfold perform at run
  obtain ⟨_, between, configured, rest⟩ := runOn_bind_ok run
  rw [left] at configured
  obtain ⟨rfl, rfl⟩ := Prod.mk.inj configured
  obtain ⟨_, middle, writing, pages⟩ := runOn_bind_ok rest
  rw [files, runOn_withSettings] at writing
  obtain ⟨_, rfl⟩ := Prod.mk.inj writing
  rw [runOn_withSettings] at pages
  obtain rfl : made = settings := congrArg Session.settings (Prod.mk.inj pages).2
  exact ⟨left, here, (kept rfl).library, (perform_ok_iff left).mp whole⟩

/-- A library whose stubs can be gathered twice. It lies beside the start directory, its modules with methods lie
directly with the data classes, the stubs are no methods themselves and show closed definitions, and their pages are not
stepped over. -/
structure Regatherable (site : Site) (settings : Settings) (lib : Place) (tree base : Tree) : Prop where
  rooted : Module.Rooted settings
  located : site.locate base settings.library = .ok lib
  beside : ∀ names, ¬site.start <+: lib ++ names
  unstepped : ∀ kind ∈ kinds, join "/" [kind, stubName kind] ∉ settings.stepped
  flat : Flat settings lib tree
  quiet : ∀ kind ∈ kinds, ∀ bytes, tree.get? (stubPlace lib kind) = some (.file bytes) → Quiet bytes
  stubs : ∀ kind ∈ kinds, ∀ bytes, base.get? (stubPlace lib kind) = some (.file bytes) →
    Readable (unifyNewlines (Utf8.decodeLenient bytes))

/-- A run that can be repeated: the title of the project stands between quotes as it is, the pages are all that is
written once the stubs have been gathered, and the stubs can be gathered again. -/
structure Repeatable (site : Site) (settings : Settings) (tree after : Tree) : Prop where
  title : Quotable (projectTitle settings.library)
  kept : ∀ place, (∀ name rest, place ≠ site.below ("autogenerated_source" :: name :: rest)) →
    after.get? place = (gatheredAnew site settings tree).get? place
  regatherable : settings.merges = true → ∃ lib, Regatherable site settings lib tree (gatheredAnew site settings tree)

section
variable {site : Site} {configured base after : Tree} {hidden : Place → Prop}
  (outside : ∀ place, hidden place → ¬site.start <+: place) (sound : configured.Sound)
    (preparable : Preparable site configured)
  (others : ∀ place, ¬hidden place → base.get? place = prepared site configured place)
  (kept : ∀ place, (∀ name rest, place ≠ site.below ("autogenerated_source" :: name :: rest)) →
    after.get? place = base.get? place)
include outside sound preparable others kept

theorem restarted_of_kept (afterSound : after.Sound) (distinct : after.Distinct) :
    Restarted site hidden configured (after.erase (site.below ["build"])) := by
  have erased : ∀ place, ¬site.below ["build"] <+: place →
      (after.erase (site.below ["build"])).get? place = after.get? place := by
    intro place away
    by_cases root : place = []
    · rw [root]
      rfl
    · rw [Tree.get?_erase _ _ _ root, if_neg fun inside => away (List.isPrefixOf_iff_prefix.mp inside)]
  refine ⟨afterSound.erase _, distinct.erase _, ?_, fun place outer open_ => ?_⟩
  · -- the folder of pages has been copied from its sources
    have source : configured.get? (site.below ["partial_source"]) = some .directory :=
      sound.parent _ "images" (by rw [List.append_assoc]; exact preparable.images ▸ rfl)
    rw [erased _ (site.not_below_names (by decide) _ _), kept _ fun name rest eq => ?_, others _ fun hides => ?_,
      prepared, if_pos (List.prefix_refl _)]
    · rw [show site.start.length + 1 = (site.below ["autogenerated_source"]).length by simp, List.drop_length,
        List.append_nil]
      exact source
    · exact outside _ hides (List.prefix_append _ _)
    · have lengths := congrArg List.length eq
      simp at lengths
  · -- built pages are gone as they were at first; elsewhere the run has changed nothing
    by_cases built : site.below ["build"] <+: place
    · obtain ⟨rest, rfl⟩ := built
      have proper : site.below ["build"] ++ rest ≠ [] := by simp
      rw [Tree.get?_erase _ _ _ proper, if_pos (List.isPrefixOf_iff_prefix.mpr (List.prefix_append _ _)),
        sound.vacant_below preparable.build]
    · have images : ¬site.below ["build", "_images"] <+: place := fun inside =>
        built (((List.prefix_append_right_inj _).mpr (by simp)).trans inside)
      have folder : place ≠ site.below ["build"] := fun here => built (here ▸ List.prefix_refl _)
      rw [erased place built, kept place fun name rest eq => outer ?_, others place open_, prepared, if_neg outer,
        if_neg images, if_neg folder]
      rw [eq]
      exact (List.prefix_append_right_inj _).mpr ⟨name :: rest, rfl⟩

end

structure Begun (site : Site) (title whole : Text) (tree configured first : Tree) : Prop where
  plain : (entitled title (unifyNewlines whole)).Plain
  held : configured.get? (configurationPlace site) = some (.file (Utf8.bytesOf (entitled title (unifyNewlines whole))))
  others : ∀ place, place ≠ configurationPlace site → configured.get? place = tree.get? place
  configuredSound : configured.Sound
  preparable : Preparable site configured
  sound : first.Sound
  distinct : first.Distinct
  shows : ∀ place, first.get? place = prepared site configured place

theorem begun_of_run {site : Site} (clear : site.Clear) {title : Text} {tree configured first : Tree}
    (sound : tree.Sound) (distinct : tree.Distinct) (build : tree.get? (site.below ["build"]) = none)
    (configuring : (writeConfiguration title).runOn site tree = (.ok (), configured))
    (preparing : prepareFolder.runOn site configured = (.ok (), first)) :
    ∃ whole, Begun site title whole tree configured first := by
  obtain ⟨bytes, whole, held, plain, rfl⟩ := runOn_writeConfiguration_ok clear configuring
  have present : (tree.get? (configurationPlace site)).isSome = true := by rw [held]; rfl
  have start : tree.get? site.start = some .directory := sound.above (List.cons_ne_nil _ _) present
  have others : ∀ place, place ≠ configurationPlace site → (tree.put (configurationPlace site)
      (.file (Utf8.bytesOf (entitled title (unifyNewlines whole))))).get? place = tree.get? place :=
    fun place differs => Tree.get?_put_apart _ _ differs.symm
  have configuredSound : (tree.put (configurationPlace site)
      (.file (Utf8.bytesOf (entitled title (unifyNewlines whole))))).Sound :=
    sound.put (fun directory => by rw [held] at directory; cases directory) (.inl present)
  -- neither the start directory nor the folder of built pages is the configuration
  have shallow : ∀ names : Place, names.length ≠ 2 → site.below names ≠ configurationPlace site := by
    intro names short eq
    rw [List.append_cancel_left eq] at short
    exact short rfl
  have preparable := preparable_of_run clear configuredSound
    (by rw [others _ (by simpa using shallow [] (by decide))]; exact start)
    (by rw [others _ (shallow ["build"] (by decide))]; exact build) preparing
  obtain ⟨after, run, firstSound, firstDistinct, shows⟩ :=
    runOn_prepareFolder clear configuredSound (distinct.put _ _) preparable
  rw [run] at preparing
  obtain ⟨_, rfl⟩ := Prod.mk.inj preparing
  exact ⟨whole, plain, Tree.get?_put_file _ held, others, configuredSound, preparable, firstSound, firstDistinct, shows⟩

/-- A run from what an earlier one has left comes to an end with the same pages. -/
structure Rerun (site : Site) (settings : Settings) (configured after again final : Tree) : Prop where
  restarted : ∃ hidden, (∀ place, hidden place → ¬site.start <+: place) ∧
    Restarted site hidden configured (after.erase (site.below ["build"]))
  configuring : (writeConfiguration (projectTitle settings.library)).runOn site (after.erase (site.below ["build"])) =
    (.ok (), again)
  writing : (writePages settings).runOn site again = (.ok (), final)
  pages : ∀ rest, final.get? (site.below ["autogenerated_source"] ++ rest) =
    after.get? (site.below ["autogenerated_source"] ++ rest)

theorem writePages_single {settings : Settings} (single : settings.merges = false) :
    writePages settings = (do
      prepareFolder
      let _ ← Pages.write settings settings.library) := by
  unfold writePages
  simp only [single, Bool.false_eq_true, if_false]

theorem writePages_merging {settings : Settings} (merges : settings.merges = true) :
    writePages settings = (do
      prepareFolder
      gather settings settings.library
      writeGathered settings) := by
  unfold writePages writeGathered
  simp only [merges, if_true]

section
variable {site : Site} {title whole : Text} {tree configured first : Tree}
    (begun : Begun site title whole tree configured first)
include begun

theorem Begun.start : first.get? site.start = some .directory := by
  have images : first.get? (site.below ["partial_source", "images"]) = some .directory := by
    rw [begun.shows, prepared, if_neg (site.not_below_names (by decide) _ _),
      if_neg (site.not_below_names (by decide) _ _), if_neg]
    · exact begun.preparable.images
    · intro eq
      have lengths := congrArg List.length eq
      simp at lengths
  exact begun.sound.above (List.cons_ne_nil _ _) (by rw [images]; rfl)

theorem Begun.outside {place : Place} (away : ¬site.start <+: place) : first.get? place = tree.get? place := by
  have apart : ∀ names, ¬site.below names <+: place := fun names inside => away ((List.prefix_append _ _).trans inside)
  have differs : ∀ names, place ≠ site.below names := fun names eq => apart names (eq ▸ List.prefix_refl _)
  rw [begun.shows, prepared, if_neg (apart _), if_neg (apart _), if_neg (differs _), begun.others _ (differs _)]

end

section
variable {site : Site} {settings : Settings} {lib : Place} {base after : Tree}
    (workspace : Workspace site settings lib base)
include workspace

theorem Workspace.stubs_read (run : (writeGathered settings).runOn site base = (.ok (), after)) :
    ∀ kind ∈ kinds, base.get? (stubPlace lib kind) ≠ some .directory ∧
      Path.size (stubsPath settings kind) ≤ Path.pathLimit := by
  obtain ⟨toctree, written, writing, rest⟩ := Script.runOn_bind_ok run
  obtain ⟨_, merged, merging, _⟩ := Script.runOn_bind_ok rest
  have grown := Pages.grown_write workspace.sound workspace.distinct writing
  intro kind member
  obtain ⟨text, read⟩ := textAt_of_mergeAll merging kind member
  obtain ⟨place, bytes, _, found, _⟩ := (textAt_eq_ok_iff site written).mp read
  obtain ⟨located, held⟩ := Site.find_eq_ok_iff.mp found
  obtain rfl : place = stubPlace lib kind := workspace.place (named_stub member) ⟨written, grown, located⟩
  obtain ⟨known, _, _, accepted, _⟩ := Site.locate_eq_ok_iff.mp located
  refine ⟨fun directory => ?_, Path.size_le_of_accept accepted⟩
  rw [grown.directories _ directory] at held
  cases held

end

structure Resumable (site : Site) (settings : Settings) (lib : Place) (first gathered : Tree) : Prop where
  located : site.locate first settings.library = .ok lib
  comparable : Comparable lib first first
  flat : Flat settings lib first
  short : ∀ kind ∈ kinds, Path.size (stubsPath settings kind) ≤ Path.pathLimit
  together : Together lib first first (fun _ => False) gathered gathered

theorem together_refl (lib : Place) (first second : Tree) : Together lib first second (fun _ => False) first second :=
  ⟨fun _ => [], fun _ _ => section_nil, gathered_refl lib first, gathered_refl lib second,
    fun _ _ listed => listed.elim⟩

section
variable {site : Site} (clear : site.Clear) {settings : Settings} {lib : Place} {first gathered : Tree}
    (sound : first.Sound)
  (resumable : Resumable site settings lib first gathered)
  (gathering : (gather settings settings.library).runOn site first = (.ok (), gathered))
include clear sound resumable gathering

theorem Resumable.gather_again {second : Tree}
    (same : ∀ place, isStub lib place = false → second.get? place = first.get? place)
    (stubs : ∀ kind ∈ kinds, second.get? (stubPlace lib kind) = gathered.get? (stubPlace lib kind)) :
    ∃ regathered, (gather settings settings.library).runOn site second = (.ok (), regathered) ∧
      gathered.Alike (Differ site lib kinds) regathered := by
  obtain ⟨located, comparable, flat, short, together⟩ := resumable
  have quiet : ∀ kind ∈ kinds, ∀ bytes, second.get? (stubPlace lib kind) = some (.file bytes) → Quiet bytes :=
    fun kind member bytes held => Together.quiet comparable together member (.inl (stubs kind member ▸ held))
  have files : ∀ kind ∈ kinds, second.get? (stubPlace lib kind) ≠ some .directory := by
    intro kind member directory
    rw [stubs kind member, Together.root_directory comparable together] at directory
    exact comparable.files kind member directory
  have further : Comparable lib first second :=
    ⟨fun place stub => (same place stub).symm, comparable.files, files, comparable.quiet, quiet⟩
  -- the second tree is no lower, so gathering goes as deep in it
  have taller : first.height ≤ second.height := by
    refine Tree.height_le_of_present fun place present => ?_
    cases stub : isStub lib place with
    | false => rwa [same place stub]
    | true =>
      obtain ⟨kind, member, rfl⟩ := isStub_iff.mp stub
      obtain ⟨added, _, left, _⟩ := together
      rw [stubs kind member]
      exact left.present present
  obtain ⟨regathered, run, ended⟩ := follows_gather clear.sound further flat located sound short
    (together_refl lib first second)
    taller gathering
  have alike := Together.alike further ended stubs
  exact ⟨regathered, run, alike.shape, fun place one two held there =>
    (alike.files place one two held there).imp_right .inl⟩

end

section
variable {site : Site} (clear : site.Clear) {settings : Settings} {whole : Text} {tree configured first after : Tree}
  (begun : Begun site (projectTitle settings.library) whole tree configured first)
  (quotable : Quotable (projectTitle settings.library))
include clear begun quotable

/-- A run that gathers no stubs begins a second time with what it began with. -/
theorem Begun.repeats_write (single : settings.merges = false)
    (kept : ∀ place, (∀ name rest, place ≠ site.below ("autogenerated_source" :: name :: rest)) →
      after.get? place = first.get? place)
    {toctree : List Text × List Text} (run : (Pages.write settings settings.library).runOn site first =
      (.ok toctree, after)) :
    ∃ again final, Rerun site settings configured after again final := by
  have grown := Pages.grown_write begun.sound begun.distinct run
  have outside : ∀ place : Place, False → ¬site.start <+: place := fun _ absurdity => absurdity.elim
  have restarted := restarted_of_kept outside begun.configuredSound begun.preparable
    (fun place _ => begun.shows place) kept
    grown.sound grown.distinct
  obtain ⟨again, second, written, made, sound, distinct, shows, _⟩ :=
    restarted.prepare clear quotable begun.plain outside begun.preparable begun.held
  have same : first.Same second :=
    ⟨fun place => (begun.shows place).trans (shows place id).symm, begun.distinct, distinct⟩
  obtain ⟨outcome, ended⟩ := Pages.blind_write settings settings.library first second same
  rw [run] at outcome ended
  rcases rerun : (Pages.write settings settings.library).runOn site second with ⟨result, final⟩
  rw [rerun] at outcome ended
  obtain rfl : Except.ok toctree = result := outcome
  refine ⟨again, final, ⟨_, outside, restarted⟩, written, ?_, fun rest => (ended.agree _).symm⟩
  rw [writePages_single single, Script.runOn_bind, made, andThen_ok, Script.runOn_bind, rerun]
  rfl

variable (here : settings.here = site.here) {gathered : Tree} {lib : Place}
  (gathering : (gather settings settings.library).runOn site first = (.ok (), gathered))
  (writing : (writeGathered settings).runOn site gathered = (.ok (), after))
  (regatherable : Regatherable site settings lib tree gathered)
include gathering regatherable here

omit quotable in
theorem Begun.workspace : Workspace site settings lib gathered where
  clear := clear
  here := here
  sound := sound_gather begun.sound gathering
  distinct := (blind_gather settings settings.library).distinct begun.distinct gathering
  start := ((extended_gather gathering).directory _).mpr begun.start
  rooted := regatherable.rooted
  located := regatherable.located
  beside := regatherable.beside
  unstepped := regatherable.unstepped
  stubs := regatherable.stubs

include writing

omit quotable in
theorem Begun.resumable : Resumable site settings lib first gathered := by
  have library : ∀ names, first.get? (lib ++ names) = tree.get? (lib ++ names) :=
    fun names => begun.outside (regatherable.beside names)
  have read := (begun.workspace clear here gathering regatherable).stubs_read writing
  have extended := extended_gather gathering
  have located : site.locate first settings.library = .ok lib :=
    Site.locate_keeps (fun place held => (extended.directory place).mp held) regatherable.located
  have files : ∀ kind ∈ kinds, first.get? (stubPlace lib kind) ≠ some .directory :=
    fun kind member directory => (read kind member).1 ((extended.directory _).mpr directory)
  have quiet : ∀ kind ∈ kinds, ∀ bytes, first.get? (stubPlace lib kind) = some (.file bytes) → Quiet bytes :=
    fun kind member bytes held => regatherable.quiet kind member bytes (library _ ▸ held)
  have comparable : Comparable lib first first := ⟨fun _ _ => rfl, files, files, quiet, quiet⟩
  have flat : Flat settings lib first := by
    intro names name bytes file visited stub held
    rw [List.append_assoc, library, ← List.append_assoc] at held
    exact regatherable.flat names name bytes file visited stub held
  have short : ∀ kind ∈ kinds, Path.size (stubsPath settings kind) ≤ Path.pathLimit :=
    fun kind member => (read kind member).2
  obtain ⟨final, run, together⟩ := follows_gather clear.sound comparable flat located begun.sound short
    (together_refl lib first first) (Nat.le_refl _) gathering
  rw [gathering] at run
  obtain ⟨_, rfl⟩ := Prod.mk.inj run
  exact ⟨located, comparable, flat, short, together⟩

/-- A run that gathers stubs comes to the same pages once more. -/
theorem Begun.repeats_gather (merges : settings.merges = true)
    (kept : ∀ place, (∀ name rest, place ≠ site.below ("autogenerated_source" :: name :: rest)) →
      after.get? place = gathered.get? place) :
    ∃ again final, Rerun site settings configured after again final := by
  have workspace := begun.workspace clear here gathering regatherable
  have resumable := begun.resumable clear here gathering writing regatherable
  -- a run is compared with itself to learn what it has left
  have paired : after.Paired (Late lib) after := by
    obtain ⟨_, final, run, _, paired⟩ := workspace.follows_writeGathered gathered gathered () after
      ⟨.refl _ gathered, .refl workspace.sound workspace.distinct, workspace.distinct⟩ writing
    rw [writing] at run
    obtain ⟨_, rfl⟩ := Prod.mk.inj run
    exact paired
  have outside : ∀ place, isStub lib place = true → ¬site.start <+: place := fun place => workspace.not_below
  have others : ∀ place, ¬isStub lib place = true → gathered.get? place = prepared site configured place := by
    intro place open_
    rw [(Together.others resumable.comparable resumable.together (by simpa only [Bool.not_eq_true] using open_)).1,
      begun.shows]
  have restarted := restarted_of_kept outside begun.configuredSound begun.preparable others kept
    paired.sound paired.distinct
  obtain ⟨again, second, written, made, sound, distinct, shows, hides⟩ :=
    restarted.prepare clear quotable begun.plain outside begun.preparable begun.held
  -- the stubs are there as the first run has left them
  have stubs : ∀ kind ∈ kinds, second.get? (stubPlace lib kind) = gathered.get? (stubPlace lib kind) := by
    intro kind member
    have stub : isStub lib (stubPlace lib kind) = true := isStub_iff.mpr ⟨kind, member, rfl⟩
    have away := outside _ stub
    have proper : stubPlace lib kind ≠ [] := by simp [stubPlace]
    rw [hides _ stub, Tree.get?_erase _ _ _ proper,
      if_neg fun inside => away ((List.prefix_append _ _).trans (List.isPrefixOf_iff_prefix.mp inside))]
    exact kept _ fun name rest eq => away (eq ▸ List.prefix_append _ _)
  obtain ⟨regathered, regathering, alike⟩ := resumable.gather_again clear begun.sound gathering
    (fun place stub => (shows place (by rw [stub]; decide)).trans (begun.shows place).symm) stubs
  obtain ⟨_, final, rewriting, _, ended⟩ := workspace.follows_writeGathered gathered regathered () after
    ⟨alike, .refl workspace.sound workspace.distinct,
      (blind_gather settings settings.library).distinct distinct regathering⟩ writing
  refine ⟨again, final, ⟨_, outside, restarted⟩, written, ?_, fun rest => ?_⟩
  · rw [writePages_merging merges, Script.runOn_bind, made, andThen_ok, Script.runOn_bind, regathering, andThen_ok]
    exact rewriting
  · refine ended.alike.get?_eq fun one two late => outside _ late.1 ?_
    rw [List.append_assoc]
    exact List.prefix_append _ _

end

theorem Rerun.configure {site : Site} (clear : site.Clear) {settings initial : Settings} {whole : Text}
    {tree configured first after again final : Tree} (sound : tree.Sound)
    (begun : Begun site (projectTitle settings.library) whole tree configured first)
    (rerun : Rerun site settings configured after again final) {library : Text} {heading : Heading}
    (run : (configure library heading).runOn site ⟨initial, tree⟩ = (.ok (), ⟨settings, tree⟩)) :
    (configure library heading).runOn site ⟨initial, after.erase (site.below ["build"])⟩ =
      (.ok (), ⟨settings, after.erase (site.below ["build"])⟩) := by
  obtain ⟨hidden, outside, restarted⟩ := rerun.restarted
  have shallow : ∀ names : Place, names.length < 2 → site.below names ≠ configurationPlace site := by
    intro names short eq
    rw [List.append_cancel_left eq] at short
    exact absurd short (by decide)
  have start : tree.get? site.start = some .directory := by
    rw [← begun.others _ (by simpa using shallow [] (by decide))]
    exact begun.configuredSound.above (List.cons_ne_nil _ _) (by rw [begun.preparable.images]; rfl)
  have restart : (after.erase (site.below ["build"])).get? site.start = some .directory :=
    restarted.sound.above (List.cons_ne_nil _ _) (by rw [restarted.pages]; rfl)
  have agree : ∀ name ∈ settingNames, site.find tree (Path.join site.here name) =
      site.find (after.erase (site.below ["build"])) (Path.join site.here name) := by
    intro name member
    apply clear.find_here sound restarted.sound start restart (Path.named_of_all (by decide) name member)
    rw [restarted.below outside (fun eq => absurd (eq ▸ member) (by decide)), begun.others _ (shallow [name] (by simp))]
  -- from the same settings files the same settings are read
  obtain ⟨outcome, made, _, _, left, right⟩ := configure_alike agree library heading initial
  rw [left] at run
  obtain ⟨rfl, session⟩ := Prod.mk.inj run
  cases session
  exact right

/-- A run that has come to an end does so again. What it has left, without the built pages, is all that the second run
needs, and the second run makes the same folder of pages from it, although the stubs have grown. -/
theorem perform_again {site : Site} {library : Text} {heading : Heading} {initial settings : Settings}
    {tree after : Tree} (clear : site.Clear) (sound : tree.Sound) (distinct : tree.Distinct)
    (build : tree.get? (site.below ["build"]) = none)
    (run : (perform library heading).runOn site ⟨initial, tree⟩ = (.ok (), ⟨settings, after⟩))
    (repeatable : Repeatable site settings tree after) :
    ∃ final, (perform library heading).runOn site ⟨initial, after.erase (site.below ["build"])⟩ =
      (.ok (), ⟨settings, final⟩) ∧
      ∀ rest, final.get? (site.below ["autogenerated_source"] ++ rest) =
        after.get? (site.below ["autogenerated_source"] ++ rest) := by
  obtain ⟨setting, here, rfl, configured, configuring, pages⟩ := perform_stages run
  have rerun : ∃ first whole, Begun site (projectTitle settings.library) whole tree configured first ∧
      ∃ again final, Rerun site settings configured after again final := by
    have kept := repeatable.kept
    have regatherable := repeatable.regatherable
    cases merges : settings.merges with
    | false =>
      rw [writePages_single merges] at pages
      obtain ⟨_, first, preparing, pages⟩ := Script.runOn_bind_ok pages
      obtain ⟨toctree, written, writing, ended⟩ := Script.runOn_bind_ok pages
      cases ended
      -- nothing is gathered, so the pages are written on what has been prepared
      have base : gatheredAnew site settings tree = first := by
        simp only [gatheredAnew, gatherAnew, Script.runOn_bind, configuring, preparing, andThen_ok, merges]
        rfl
      rw [base] at kept
      obtain ⟨whole, begun⟩ := begun_of_run clear sound distinct build configuring preparing
      exact ⟨first, whole, begun, begun.repeats_write clear repeatable.title merges kept writing⟩
    | true =>
      obtain ⟨lib, regatherable⟩ := regatherable merges
      rw [writePages_merging merges] at pages
      obtain ⟨_, first, preparing, pages⟩ := Script.runOn_bind_ok pages
      obtain ⟨_, gathered, gathering, writing⟩ := Script.runOn_bind_ok pages
      -- `gatheredAnew` replays the stages up to here
      have base : gatheredAnew site settings tree = gathered := by
        simp only [gatheredAnew, gatherAnew, Script.runOn_bind, configuring, preparing, andThen_ok, merges, if_true,
          gathering]
      rw [base] at kept regatherable
      obtain ⟨whole, begun⟩ := begun_of_run clear sound distinct build configuring preparing
      exact ⟨first, whole, begun, begun.repeats_gather clear repeatable.title here gathering writing
        regatherable merges kept⟩
  obtain ⟨first, whole, begun, again, final, rerun⟩ := rerun
  refine ⟨final, ?_, rerun.pages⟩
  exact (perform_ok_iff (rerun.configure clear sound begun setting)).mpr ⟨again, rerun.configuring, rerun.writing⟩

def repeatedSite : Site := .ascending "/workspace" ["docs"]

def repeatedModule (heading name : Text) : Text := "\nclass " ++ heading ++ "():\n    def " ++ name ++ "(self):\n"

def repeatedTree : Tree :=
  ⟨[(["README.rst"], .file (Utf8.bytesOf "R\n")), (["docs"], .directory), (["docs", "ivy_modules.txt"], .file []),
    (["docs", "partial_source"], .directory),
    (["docs", "partial_source", "conf.py"], .file (Utf8.bytesOf "project = 'Ivy'\n")),
    (["docs", "partial_source", "images"], .directory),
    (["docs", "partial_source", "discussion_links.json"], .file (Utf8.bytesOf "\x7b\x7d")),
    (["docs", "partial_source", "index_prepend.rst"], .file []),
    (["ivy"], .directory), (["ivy", "array"], .directory),
    (["ivy", "array", "array.py"], .file (Utf8.bytesOf (repeatedModule "Array" "f"))),
    (["ivy", "container"], .directory),
    (["ivy", "container", "container.py"], .file (Utf8.bytesOf (repeatedModule "Container" "g"))),
    (["ivy", "functional"], .directory), (["ivy", "functional", "ivy"], .directory),
    (["ivy", "functional", "ivy", "array.py"], .file (Utf8.bytesOf "\ndef f(x):\n")),
    (["ivy", "stateful"], .directory), (["ivy", "stateful", "s.py"], .file [])]⟩

def repeatedSettings : Settings :=
  { here := repeatedSite.here, library := "../ivy", heading := .byDirectory, merges := true }

def repeatedRun : Except Fault Unit × Session := (perform "../ivy" .byDirectory).runOn repeatedSite ⟨{}, repeatedTree⟩

def agreeOutside (folder : Place) (tree other : Tree) : Bool :=
  (tree.entries ++ other.entries).all fun (place, _) =>
    (folder.isPrefixOf place && place != folder) || tree.get? place == other.get? place

theorem get?_of_agreeOutside {folder : Place} {tree other : Tree} (check : agreeOutside folder tree other = true)
    {place : Place} (outside : ∀ name rest, place ≠ folder ++ name :: rest) : tree.get? place = other.get? place := by
  by_cases root : place = []
  · rw [root, Tree.get?_root, Tree.get?_root]
  have same : (∃ entry, (place, entry) ∈ tree.entries ++ other.entries) → tree.get? place = other.get? place := by
    rintro ⟨entry, member⟩
    have checked := List.all_eq_true.mp check _ member
    simp only [Bool.or_eq_true, Bool.and_eq_true, bne_iff_ne, beq_iff_eq] at checked
    rcases checked with ⟨inside, differs⟩ | same
    · obtain ⟨rest, rfl⟩ := List.isPrefixOf_iff_prefix.mp inside
      cases rest with
      | nil => exact absurd (List.append_nil _) differs
      | cons name rest => exact absurd rfl (outside name rest)
    · exact same
  -- the check goes over the entries of both trees, so one of them has to have the place
  cases held : tree.get? place with
  | some entry =>
    rw [← held]
    rw [Tree.get?, if_neg root] at held
    exact same ⟨entry, List.mem_append_left _ (Table.mem_of_get? held)⟩
  | none =>
    cases there : other.get? place with
    | none => rfl
    | some entry =>
      rw [← held, ← there]
      rw [Tree.get?, if_neg root] at there
      exact same ⟨entry, List.mem_append_right _ (Table.mem_of_get? there)⟩

theorem run_eta {run : Except Fault Unit × Session} {settings : Settings} (ended : run.1 = .ok ())
    (settled : run.2.settings = settings) : run = (.ok (), ⟨settings, run.2.tree⟩) := by
  obtain ⟨outcome, _, tree⟩ := run
  obtain rfl : outcome = .ok () := ended
  obtain rfl := settled
  rfl

theorem moduleOf_of_places {stubs : Text} {holds : Text → Prop}
    (check : ∀ place ∈ (-1 : Int) :: (List.range (stubs.length + 1)).map Int.ofNat,
      holds (afterLast '.' (beforeFirst '\n' (since stubs (lastIndex "#ivy." (upTo stubs (place + 1)))))))
    (name : Text) :
    holds (Instance.moduleOf stubs name) := by
  refine check (index ("def " ++ name ++ "(") stubs) ?_
  unfold index
  cases found : index? ("def " ++ name ++ "(") stubs with
  | none => exact List.mem_cons_self
  | some place =>
    obtain ⟨_, inside, _⟩ := index?_eq_some_iff.mp found
    exact List.mem_cons_of_mem _ (List.mem_map.mpr ⟨place, List.mem_range.mpr (by omega), rfl⟩)

def repeatedStubs (kind name : Text) : Text :=
  "#ivy." ++ kind ++ "." ++ kind ++ "\n\ndef " ++ name ++ "(self):\n    pass\n\n\n"

def classPlace (kind : Text) : Place := ["ivy", kind, kind ++ ".py"]

theorem evaluated_repeated :
    (repeatedTree.isSound = true ∧ (repeatedTree.entries.map Prod.fst).Nodup ∧
      (∀ c ∈ ("'=\r" : Text), c ∉ projectTitle "../ivy") ∧
      Path.base ("../ivy" : Text) ≠ [] ∧ index? (Path.base "../ivy") "../ivy" = some 3) ∧
    (∀ item ∈ repeatedTree.entries, item.1 ∈ kinds.map classPlace ∨
      (match item.2 with
        | .file bytes => mentions "\n    def " (unifyNewlines (Utf8.decodeLenient bytes))
        | .directory => false) = false) ∧
    (∀ kind ∈ kinds, fileName? (Stub.dottedName repeatedSettings [kind] (kind ++ ".py")) = some (stubName kind) ∧
      (match repeatedTree.get? (classPlace kind) with
        | some (.file bytes) => mentions "\n    def " (unifyNewlines (extract
            (Stub.dottedName repeatedSettings [kind] (kind ++ ".py"))
              (unifyNewlines (Utf8.decodeLenient bytes))).flatten)
        | _ => false) = false) ∧
    (repeatedSite.locate (gatheredAnew repeatedSite repeatedSettings repeatedTree) "../ivy" = .ok ["ivy"] ∧
      (gatheredAnew repeatedSite repeatedSettings repeatedTree).get? (stubPlace ["ivy"] "array") =
        some (.file (Utf8.bytesOf (repeatedStubs "array" "f"))) ∧
      (gatheredAnew repeatedSite repeatedSettings repeatedTree).get? (stubPlace ["ivy"] "container") =
        some (.file (Utf8.bytesOf (repeatedStubs "container" "g")))) ∧
    ∀ stubs ∈ [repeatedStubs "array" "f", repeatedStubs "container" "g"],
      unifyNewlines (Utf8.decodeLenient (Utf8.bytesOf stubs)) = stubs ∧
      (∀ item ∈ (split ("\n" ++ "def ") stubs).tail, .char '(' ∈ item ∧ .char '.' ∉ beforeFirst '(' item ∧
        .char '/' ∉ beforeFirst '(' item) ∧ (split ("\n" ++ "class ") stubs).tail = [] ∧
      ∀ place ∈ (-1 : Int) :: (List.range (stubs.length + 1)).map Int.ofNat,
        afterLast '.' (beforeFirst '\n' (since stubs (lastIndex "#ivy." (upTo stubs (place + 1))))) ∈
          ([("" : Text), "array", "container"] : List Text) := by
  decide +kernel

theorem repeated_run : repeatedRun.1 = .ok () ∧ repeatedRun.2.settings = repeatedSettings ∧
    agreeOutside ["docs", "autogenerated_source"] repeatedRun.2.tree
      (gatheredAnew repeatedSite repeatedSettings repeatedTree) = true := by
  decide +kernel

theorem readable_repeated : ∀ stubs ∈ [repeatedStubs "array" "f", repeatedStubs "container" "g"],
    Readable (unifyNewlines (Utf8.decodeLenient (Utf8.bytesOf stubs))) := by
  intro stubs member
  obtain ⟨read, names, none, modules⟩ := evaluated_repeated.2.2.2.2 stubs member
  rw [read]
  refine ⟨⟨fun item inside => (names item inside).1, fun item inside => (names item inside).2⟩, ⟨?_, ?_⟩, ?_⟩
  · intro item inside
    rw [none] at inside
    cases inside
  · intro item inside
    rw [none] at inside
    cases inside
  · intro name
    have known : ∀ text ∈ ([("" : Text), "array", "container"] : List Text), text = [] ∨ Path.isNamed text = true := by
      decide
    exact (known _ (moduleOf_of_places modules name)).imp_right Path.named_of_isNamed

theorem flat_repeated : Flat repeatedSettings ["ivy"] repeatedTree := by
  obtain ⟨_, check, shows, _⟩ := evaluated_repeated
  intro names name bytes file visited stub held module noise named
  have member : ([("ivy" : Text)] ++ names ++ [name], Entry.file bytes) ∈ repeatedTree.entries := by
    refine Table.mem_of_get? ?_
    rwa [Tree.get?, if_neg (by simp)] at held
  have listed := (check _ member).resolve_right noise
  obtain ⟨kind, known, same⟩ := List.mem_map.mp listed
  have below : [kind] ++ [kind ++ (".py" : Text)] = names ++ [name] := (List.cons.inj same).2
  obtain ⟨rfl, last⟩ := List.append_inj' below rfl
  obtain rfl := List.singleton_inj.mp last
  obtain ⟨own, quiet⟩ := shows kind known
  rw [own] at named
  rw [show classPlace kind = [("ivy" : Text)] ++ [kind] ++ [kind ++ (".py" : Text)] from rfl, held] at quiet
  exact ⟨kind, known, rfl, (Option.some.inj named).symm, quiet⟩

theorem regatherable_repeated :
    Regatherable repeatedSite repeatedSettings ["ivy"] repeatedTree
      (gatheredAnew repeatedSite repeatedSettings repeatedTree) := by
  obtain ⟨⟨_, _, _, rooted⟩, _, _, ⟨located, arrays, containers⟩, _⟩ := evaluated_repeated
  refine ⟨⟨rooted.1, rooted.2⟩, located, fun names inside => ?_, by decide, ?_, ?_, ?_⟩
  · exact absurd (List.cons_prefix_cons.mp inside).1 (by decide)
  · exact flat_repeated
  · intro kind member bytes held
    have absent : ∀ kind ∈ kinds, repeatedTree.get? (stubPlace ["ivy"] kind) = none := by decide
    rw [absent kind member] at held
    cases held
  · intro kind member bytes held
    simp only [kinds, List.mem_cons, List.not_mem_nil, or_false] at member
    rcases member with rfl | rfl
    · rw [arrays] at held
      cases held
      exact readable_repeated _ List.mem_cons_self
    · rw [containers] at held
      cases held
      exact readable_repeated _ (List.mem_cons_of_mem _ List.mem_cons_self)

theorem perform_again_sample : ∃ after final,
    (perform "../ivy" .byDirectory).runOn repeatedSite ⟨{}, repeatedTree⟩ = (.ok (), ⟨repeatedSettings, after⟩) ∧
      (perform "../ivy" .byDirectory).runOn repeatedSite ⟨{}, after.erase ["docs", "build"]⟩ =
        (.ok (), ⟨repeatedSettings, final⟩) ∧
      ∀ rest, final.get? ("docs" :: "autogenerated_source" :: rest) =
        after.get? ("docs" :: "autogenerated_source" :: rest) := by
  obtain ⟨ended, settled, outside⟩ := repeated_run
  obtain ⟨⟨sound, distinct, title, _⟩, _⟩ := evaluated_repeated
  have clear : repeatedSite.Clear := ⟨.inr (by decide), by decide, by decide, by decide⟩
  have run : repeatedRun = (.ok (), ⟨repeatedSettings, repeatedRun.2.tree⟩) := run_eta ended settled
  have repeatable : Repeatable repeatedSite repeatedSettings repeatedTree repeatedRun.2.tree :=
    ⟨title, fun place => get?_of_agreeOutside outside, fun _ => ⟨["ivy"], regatherable_repeated⟩⟩
  obtain ⟨final, again, same⟩ := perform_again clear (Tree.sound_of_isSound sound) distinct (by decide) run repeatable
  exact ⟨repeatedRun.2.tree, final, run, again, same⟩

end Build
end ApiDocs
