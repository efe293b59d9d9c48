import ApiDocs.Proofs.Build.Prepare
import ApiDocs.Proofs.Instance.Twice
import ApiDocs.Proofs.Pages.Closing
import ApiDocs.Proofs.StubAgain

/-! The rest of two runs once the stubs have been gathered. Where the files of stubs of the second run hold their last
sections twice, it writes the same pages except those of the stubs, which are removed again. -/

set_option autoImplicit false

namespace ApiDocs

theorem Path.join_empty (directory : Text) {name : Text} (named : Named name) :
    join (join directory []) name = join directory name := by
  by_cases closed : (directory.isEmpty || directory.getLast? = some (.char '/')) = true
  · have same : join directory [] = directory := by rw [join, if_neg (by simp), if_pos closed, List.append_nil]
    rw [same]
  · have slash : join directory [] = directory ++ [.char '/'] := by
      rw [join, if_neg (by simp), if_neg closed, List.append_nil]
      rfl
    rw [slash, join_closed named, join, if_neg named.head?, if_neg closed, List.append_assoc]
    rfl

namespace Stub

/-- Stubs whose definitions are closed and called by proper names, and whose methods belong to modules with proper
names, if they belong to one. -/
structure Readable (text : Text) : Prop where
  functions : Pages.Orderly "def " text
  classes : Pages.Orderly "class " text
  modules : ∀ name, Instance.moduleOf text name = [] ∨ Path.Named (Instance.moduleOf text name)

theorem Regrown.read {first second : Bytes} (regrown : Regrown first second) :
    ∃ more, Text.unifyNewlines (Utf8.decodeLenient second) = Text.unifyNewlines (Utf8.decodeLenient first) ++ more ∧
      Added more ∧ more <:+ Text.unifyNewlines (Utf8.decodeLenient first) := by
  obtain ⟨added, part, ⟨front, rfl⟩, rfl⟩ := regrown
  refine ⟨Text.unifyNewlines added, read_sections _ part.added part.plain, part.added.unifyNewlines, ?_⟩
  rw [read_sections front part.added part.plain]
  exact List.suffix_append _ _

theorem Regrown.decode {first second : Bytes} (regrown : Regrown first second) {text : Text}
    (decoded : Utf8.decode first = .ok text) : ∃ more, Utf8.decode second = .ok more := by
  obtain ⟨added, part, _, rfl⟩ := regrown
  rw [← Utf8.bytesOf_decode decoded, ← Utf8.bytesOf_append]
  exact ⟨_, Utf8.decode_bytesOf (Text.plain_append.mpr ⟨Utf8.plain_of_decode decoded, part.plain⟩)⟩

theorem decodeLenient_of_decode {bytes : Bytes} {text : Text} (decoded : Utf8.decode bytes = .ok text) :
    Utf8.decodeLenient bytes = text := by
  rw [← Utf8.bytesOf_decode decoded, Utf8.decodeLenient_bytesOf (Utf8.plain_of_decode decoded)]

end Stub

namespace Build

open Script Stub

def stubPage (site : Site) (kind : Text) : Place := site.below ["autogenerated_source", kind, kind ++ "_methods.rst"]

/-- How the trees of two runs may differ while the pages are written: in the files of stubs, and in the pages of the
stubs of some kinds. -/
def Differ (site : Site) (lib : Place) (shown : List Text) (place : Place) (first second : Bytes) : Prop :=
  isStub lib place = true ∧ Regrown first second ∨ ∃ kind ∈ shown, place = stubPage site kind

/-- How the trees may differ after that: if one can read a file of stubs, so can the other. -/
def Late (lib place : Place) (first second : Bytes) : Prop :=
  isStub lib place = true ∧
    ((∃ text, Utf8.decodeLines first = .ok text) → ∃ text, Utf8.decodeLines second = .ok text)

def stubFiles : List Text := kinds.flatMap fun kind => [stubName kind, kind ++ "_methods.rst"]

theorem last_of_differ {site : Site} {lib place : Place} {first second : Bytes}
    (differs : Differ site lib kinds place first second) :
    ∃ front, ∃ name ∈ stubFiles, place = front ++ [name] := by
  rcases differs with ⟨stub, _⟩ | ⟨kind, member, rfl⟩
  · obtain ⟨kind, member, rfl⟩ := isStub_iff.mp stub
    exact ⟨lib ++ [kind], stubName kind, List.mem_flatMap.mpr ⟨kind, member, List.mem_cons_self⟩, by simp [stubPlace]⟩
  · exact ⟨site.below ["autogenerated_source", kind], kind ++ "_methods.rst",
      List.mem_flatMap.mpr ⟨kind, member, List.mem_cons_of_mem _ List.mem_cons_self⟩, by simp [stubPage]⟩

theorem not_differ_join {site : Site} {lib : Place} {base : Tree} {path name : Text} {place : Place}
    {writes : Place → Prop} (named : Path.Named name) (apart : name ∉ stubFiles)
    (leads : site.Leads writes base (Path.join path name) place) (first second : Bytes) :
    ¬Differ site lib kinds place first second := by
  intro differs
  obtain ⟨front, last, member, rfl⟩ := last_of_differ differs
  obtain ⟨tree, _, located⟩ := leads
  rcases Site.locate_join_last named located with empty | ⟨before, eq⟩
  · simp at empty
  · obtain rfl := List.singleton_inj.mp (List.append_inj' eq rfl).2
    exact apart member

theorem not_isPage_stub {lib place : Place} (stub : isStub lib place = true) : ¬place.IsPage := by
  rintro ⟨before, name, rfl, ends⟩
  obtain ⟨kind, member, _, rfl⟩ := isStub_snoc stub
  simp only [kinds, List.mem_cons, List.not_mem_nil, or_false] at member
  rcases member with rfl | rfl <;> exact absurd ends (by decide)

/-- A workspace in which stubs have been gathered. The library lies beside the start directory. -/
structure Workspace (site : Site) (settings : Settings) (lib : Place) (base : Tree) : Prop where
  clear : site.Clear
  here : settings.here = site.here
  sound : base.Sound
  distinct : base.Distinct
  start : base.get? site.start = some .directory
  rooted : Module.Rooted settings
  located : site.locate base settings.library = .ok lib
  beside : ∀ names, ¬site.start <+: lib ++ names
  unstepped : ∀ kind ∈ kinds, Text.join "/" [kind, stubName kind] ∉ settings.stepped
  stubs : ∀ kind ∈ kinds, ∀ bytes, base.get? (stubPlace lib kind) = some (.file bytes) →
    Readable (Text.unifyNewlines (Utf8.decodeLenient bytes))

section
variable {site : Site} {settings : Settings} {lib : Place} {base : Tree} (workspace : Workspace site settings lib base)

theorem undisturbed_differ : Pages.Undisturbed site (Differ site lib kinds) base settings where
  grows := by
    rintro place first second added page (⟨stub, _⟩ | shown)
    · exact absurd page (not_isPage_stub stub)
    · exact .inr shown
  readme := fun names place first second _ leads =>
    not_differ_join (Path.named_of_isNamed (by decide)) (by decide) leads first second
  fixed := by
    intro path member place first second leads
    have known : ∀ name ∈ ([("index_prepend.rst" : Text), ("README.rst" : Text), ("index_append.rst" : Text),
        ("ivy_modules.txt" : Text)] : List Text), Path.Named name := Path.named_of_all (by decide)
    simp only [List.mem_cons, List.not_mem_nil, or_false] at member
    rcases member with rfl | rfl | rfl | rfl
    · exact not_differ_join (known _ (by simp)) (by decide)
        (show site.Leads _ base (Path.join "partial_source" "index_prepend.rst") place from leads) first second
    · exact not_differ_join (known _ (by simp)) (by decide)
        (show site.Leads _ base (Path.join ".." "README.rst") place from leads) first second
    · exact not_differ_join (known _ (by simp)) (by decide)
        (show site.Leads _ base (Path.join "partial_source" "index_append.rst") place from leads) first second
    · exact not_differ_join (known _ (by simp)) (by decide) leads first second

include workspace

theorem Workspace.named_start : ∀ name ∈ site.start, Path.Named name := by
  apply workspace.sound.named_of_mem
  rw [List.nil_append, workspace.start]
  rfl

theorem Workspace.not_below {place : Place} (stub : isStub lib place = true) : ¬site.start <+: place := by
  obtain ⟨kind, _, rfl⟩ := isStub_iff.mp stub
  exact workspace.beside _

theorem Workspace.place {names : Place} (named : ∀ name ∈ names, Path.Named name) {place : Place}
    (leads : site.Leads Place.IsPage base (Path.walked settings.library names) place) : place = lib ++ names := by
  obtain ⟨tree, grown, located⟩ := leads
  exact Site.locate_walked workspace.clear.sound named (Site.locate_keeps grown.directories workspace.located) located

omit workspace in
theorem named_stub {kind : Text} (member : kind ∈ kinds) : ∀ name ∈ [kind, stubName kind], Path.Named name := by
  apply Path.named_of_all
  simp only [kinds, List.mem_cons, List.not_mem_nil, or_false] at member
  rcases member with rfl | rfl <;> decide

omit workspace in
theorem stubName_eq (kind : Text) : stubName kind = kind ++ "_methods" ++ ".py" := by
  rw [stubName, List.append_assoc]
  rfl

omit workspace in
theorem relative_stubPage (clear : site.Clear) {kind : Text} (member : kind ∈ kinds) :
    site.Relative (Pages.pagePath ([kind] ++ [kind ++ ("_methods" : Text) ++ (".rst" : Text)]))
      ["autogenerated_source", kind, kind ++ "_methods.rst"] := by
  have known : ("autogenerated_source" : Text) ∈ Site.folders := by decide
  simp only [kinds, List.mem_cons, List.not_mem_nil, or_false] at member
  rcases member with rfl | rfl
  · exact clear.relative known (.inr ⟨"array/array_methods.rst", by decide⟩) (by decide) (by decide)
      (Path.named_of_all (by decide))
  · exact clear.relative known (.inr ⟨"container/container_methods.rst", by decide⟩) (by decide) (by decide)
      (Path.named_of_all (by decide))

theorem Workspace.held {tree other : Tree} (twin : Tree.Twin (Differ site lib kinds) Place.IsPage base tree other)
    {kind : Text} (member : kind ∈ kinds) {bytes : Bytes} (held : tree.get? (stubPlace lib kind) = some (.file bytes)) :
    base.get? (stubPlace lib kind) = some (.file bytes) ∧
      ∃ more, other.get? (stubPlace lib kind) = some (.file more) ∧ Regrown bytes more := by
  have stub : isStub lib (stubPlace lib kind) = true := isStub_iff.mpr ⟨kind, member, rfl⟩
  have plain := not_isPage_stub stub
  constructor
  · cases before : base.get? (stubPlace lib kind) with
    | none => rcases twin.grown.absent _ plain before with eq | eq <;> rw [eq] at held <;> cases held
    | some entry =>
      cases entry with
      | directory => rw [twin.grown.directories _ before] at held; cases held
      | file old => rw [← held, twin.grown.files _ old plain before]
  · obtain ⟨more, there⟩ := twin.alike.shape.file held
    refine ⟨more, there, ?_⟩
    rcases twin.alike.files _ bytes more held there with rfl | ⟨_, regrown⟩ | ⟨other, _, eq⟩
    · exact regrown_refl bytes
    · exact regrown
    · exact absurd (eq ▸ List.prefix_append _ _) (workspace.not_below stub)

theorem Workspace.follows_readLenient {kind : Text} (member : kind ∈ kinds) :
    Follows site (Tree.Twin (Differ site lib kinds) Place.IsPage base)
      (Tree.Twin (Differ site lib kinds) Place.IsPage base)
      Pages.Regathered (readLenient (Path.walked settings.library [kind, stubName kind]))
      (readLenient (Path.walked settings.library [kind, stubName kind])) := by
  intro tree other text after twin run
  obtain ⟨rfl, place, bytes, found, rfl⟩ := runOn_readLenient_ok site tree run
  obtain ⟨located, held⟩ := Site.find_eq_ok_iff.mp found
  obtain rfl : place = stubPlace lib kind := workspace.place (named_stub member) ⟨after, twin.grown, located⟩
  obtain ⟨before, more, there, regrown⟩ := workspace.held twin member held
  have again : site.find other (Path.walked settings.library [kind, stubName kind]) =
      .ok (stubPlace lib kind, .file more) :=
    Site.find_eq_ok_iff.mpr ⟨site.locate_shape twin.alike.shape _ ▸ located, there⟩
  have readable := workspace.stubs kind member bytes before
  exact ⟨_, other, runOn_readLenient_of site other again,
    ⟨(Utf8.plain_decodeLenient bytes).unifyNewlines, readable.functions, readable.classes, regrown.read⟩, twin⟩

theorem Workspace.modulesAlike :
    Pages.ModulesAlike site (Differ site lib kinds) base settings settings.frameworks
      fun _ target => ∀ own, target = some own → own.Proper := by
  intro names name previous named new module proper
  cases stub : isStub lib (lib ++ names ++ [name]) with
  | false =>
    -- a module that is no stub is read alike in both runs
    apply Pages.follows_writeModule_apart undisturbed_differ proper
    intro place first second leads differs
    rw [← Path.walked_snoc] at leads
    have spot := workspace.place (List.forall_mem_append.mpr ⟨named, List.forall_mem_singleton.mpr new⟩) leads
    rw [← List.append_assoc] at spot
    rcases differs with ⟨found, _⟩ | ⟨kind, _, eq⟩
    · rw [spot, stub] at found
      cases found
    · exact workspace.beside (names ++ [name]) (by rw [← List.append_assoc, ← spot, eq]; exact List.prefix_append _ _)
  | true =>
    -- stubs have grown, and their one page may differ
    obtain ⟨kind, member, above, rfl⟩ := isStub_snoc stub
    obtain rfl : names = [kind] := List.append_cancel_left above
    have words : ∀ name ∈ [kind] ++ [kind ++ ("_methods" : Text)], Path.Word name := by
      simp only [kinds, List.mem_cons, List.not_mem_nil, or_false] at member
      rcases member with rfl | rfl <;> exact fun name inside => Path.word_of_isWord (by revert name; decide)
    have files : ∀ name ∈ [kind] ++ [kind ++ ("_methods" : Text) ++ (".py" : Text)], Path.Named name := by
      rw [← stubName_eq]
      exact named_stub member
    have last := Pages.getLast?_targets_walked workspace.rooted files words (by
      rw [← stubName_eq]
      exact workspace.unstepped kind member)
    rw [← stubName_eq, List.singleton_append] at last
    have folder : (Pages.pagePath ([kind] ++ [kind ++ ("_methods" : Text)])).Plain := by
      unfold Text.Plain
      simp only [kinds, List.mem_cons, List.not_mem_nil, or_false] at member
      rcases member with rfl | rfl <;> decide
    refine Pages.follows_writeModule_again last folder (by simp [Pages.pagePath, Pages.folder, Text.join, Text.ofChars])
      (workspace.follows_readLenient member) ?_
    rintro place first second ⟨tree, _, located⟩ _
    exact .inr ⟨kind, member, (relative_stubPage workspace.clear member).eq_of_locate located⟩

theorem Workspace.not_differ_here {names : Place} (named : ∀ name ∈ names, Path.Named name) {path : Text}
    {place : Place} (walked : path = Path.walked settings.here names) (leads : site.Leads Place.IsPage base path place)
    (apart : ∀ kind ∈ kinds, names ≠ ([("autogenerated_source" : Text), kind, kind ++ "_methods.rst"] : Place))
    (first second : Bytes) :
    ¬Differ site lib kinds place first second := by
  obtain ⟨tree, _, located⟩ := leads
  rw [walked, workspace.here] at located
  have spot := workspace.clear.eq_of_locate_here workspace.named_start named located
  rintro (⟨stub, _⟩ | ⟨kind, member, eq⟩)
  · exact workspace.not_below stub (spot ▸ List.prefix_append _ _)
  · rw [spot] at eq
    exact apart kind member (List.append_cancel_left eq)

theorem Workspace.settled {kind : Text} (member : kind ∈ kinds) {stubs : Text}
    (modules : ∀ name, Instance.moduleOf stubs name = [] ∨ Path.Named (Instance.moduleOf stubs name)) :
    Instance.Settled site (Differ site lib kinds) base (Instance.methodsPath settings kind) stubs
      (Instance.functionalPath settings) where
  methods := by
    intro file place first second new leads
    have known : ∀ name ∈ ([("autogenerated_source" : Text), kind, kind ++ "_methods"] : Place), Path.Named name := by
      apply Path.named_of_all
      simp only [kinds, List.mem_cons, List.not_mem_nil, or_false] at member
      rcases member with rfl | rfl <;> decide
    refine workspace.not_differ_here (List.forall_mem_append.mpr ⟨known, List.forall_mem_singleton.mpr new⟩) rfl leads
      (fun other _ eq => ?_) first second
    have lengths := congrArg List.length eq
    simp at lengths
  functions := by
    intro name file place first second _ new leads
    have known : ∀ name ∈ ([("autogenerated_source" : Text), "functional", "ivy"] : Place), Path.Named name :=
      Path.named_of_all (by decide)
    rcases modules name with missing | named
    · -- a method without a module would be filed in the folder of functions itself
      rw [missing, Path.join_empty _ new] at leads
      refine workspace.not_differ_here (List.forall_mem_append.mpr ⟨known, List.forall_mem_singleton.mpr new⟩) rfl leads
        (fun other _ eq => ?_) first second
      have lengths := congrArg List.length eq
      simp at lengths
    · refine workspace.not_differ_here (List.forall_mem_append.mpr ⟨List.forall_mem_append.mpr
        ⟨known, List.forall_mem_singleton.mpr named⟩, List.forall_mem_singleton.mpr new⟩) rfl leads
          (fun other _ eq => ?_) first second
      have lengths := congrArg List.length eq
      simp at lengths

theorem Workspace.follows_stubs {kind : Text} (member : kind ∈ kinds) :
    Follows site (Tree.Twin (Differ site lib kinds) Place.IsPage base)
      (Tree.Twin (Differ site lib kinds) Place.IsPage base)
      (Instance.Matched site (Differ site lib kinds) base (Instance.methodsPath settings kind)
        (Instance.functionalPath settings))
      (readText (stubsPath settings kind)) (readText (stubsPath settings kind)) := by
  intro tree other text after twin run
  rw [runOn_readText] at run
  obtain ⟨read, rfl⟩ := Prod.mk.inj run
  obtain ⟨place, bytes, whole, found, decoded, rfl⟩ := (textAt_eq_ok_iff site tree).mp read
  obtain ⟨located, held⟩ := Site.find_eq_ok_iff.mp found
  obtain rfl : place = stubPlace lib kind := workspace.place (named_stub member) ⟨tree, twin.grown, located⟩
  obtain ⟨before, more, there, regrown⟩ := workspace.held twin member held
  have again : site.find other (stubsPath settings kind) = .ok (stubPlace lib kind, .file more) :=
    Site.find_eq_ok_iff.mpr ⟨site.locate_shape twin.alike.shape _ ▸ located, there⟩
  have readable := workspace.stubs kind member bytes before
  obtain ⟨further, decoded'⟩ := regrown.decode decoded
  obtain ⟨added, grown, part, suffix⟩ := regrown.read
  rw [decodeLenient_of_decode decoded] at readable grown suffix
  rw [decodeLenient_of_decode decoded'] at grown
  refine ⟨Text.unifyNewlines further, other, ?_, ⟨workspace.settled member readable.modules, fun name line => ?_⟩, twin⟩
  · rw [runOn_readText, (textAt_eq_ok_iff site other).mpr ⟨_, _, _, again, decoded', rfl⟩]
  · rw [grown]
    exact part.moduleOf_again suffix line

theorem Workspace.follows_removeStubPages :
    Follows site (Tree.Paired (Differ site lib kinds)) (Tree.Paired (Late lib)) Eq removeStubPages removeStubPages := by
  have page : ∀ kind ∈ kinds, ∀ {tree : Tree} {place : Place},
      site.locate tree (Pages.pagePath ([kind] ++ [kind ++ ("_methods" : Text) ++ (".rst" : Text)])) = .ok place →
      place = stubPage site kind := fun kind member tree place located =>
        (relative_stubPage workspace.clear member).eq_of_locate located
  -- a folder that is removed takes no difference away, a file of stubs its own
  have folder : ∀ {shown : List Text} (path : Text), Follows site (Tree.Paired (Differ site lib shown))
      (Tree.Paired (Differ site lib shown)) Eq (removeDirectory path) (removeDirectory path) :=
    fun path => follows_removeDirectory fun _ _ _ _ _ _ _ differs => differs
  have container : Follows site (Tree.Paired (Differ site lib kinds)) (Tree.Paired (Differ site lib ["array"])) Eq
      (removeFile (Pages.folder ++ "/container/container_methods.rst"))
      (removeFile (Pages.folder ++ "/container/container_methods.rst")) := by
    apply follows_removeFile
    rintro tree place located spot first second away (stub | ⟨kind, member, rfl⟩)
    · exact .inl stub
    · simp only [kinds, List.mem_cons, List.not_mem_nil, or_false] at member
      rcases member with rfl | rfl
      · exact .inr ⟨_, List.mem_singleton_self _, rfl⟩
      · exact absurd (page "container" (by decide) located ▸ List.prefix_refl _) away
  have array : Follows site (Tree.Paired (Differ site lib ["array"])) (Tree.Paired (Late lib)) Eq
      (removeFile (Pages.folder ++ "/array/array_methods.rst"))
        (removeFile (Pages.folder ++ "/array/array_methods.rst")) := by
    apply follows_removeFile
    rintro tree place located spot first second away (⟨stub, regrown⟩ | ⟨kind, member, rfl⟩)
    · refine ⟨stub, ?_⟩
      rintro ⟨text, decoded⟩
      obtain ⟨more, decoded'⟩ := regrown.decode (Utf8.decode_of_decodeLines decoded)
      exact ⟨more, by rw [Utf8.decodeLines, decoded']⟩
    · obtain rfl := List.mem_singleton.mp member
      exact absurd (page "array" (by decide) located ▸ List.prefix_refl _) away
  unfold removeStubPages
  apply (folder _).andThen
  intro _
  apply container.andThen
  intro _
  apply (folder _).andThen
  exact fun _ => array

omit workspace in
theorem lasting_late : Tree.Lasting (Late lib) where
  grows := fun place first second added page late => absurd page (not_isPage_stub late.1)
  titles := by
    rintro place first second text ⟨stub, follows⟩ decoded
    obtain ⟨other, decoded'⟩ := follows ⟨text, decoded⟩
    refine ⟨other, decoded', .inr ⟨stub, fun _ => ⟨DataClass.untitled other, ?_⟩⟩⟩
    exact Utf8.decodeLines_bytesOf (DataClass.plain_untitled decoded')

omit workspace in
theorem not_late_page {path : Text} (ends : (".rst" : Text) <:+ path) {tree : Tree} {place : Place}
    (located : site.locate tree path = .ok place) (first second : Bytes) : ¬Late lib place first second := by
  rintro ⟨stub, _⟩
  rcases Site.isPage_of_locate ends located with rfl | page
  · obtain ⟨kind, _, eq⟩ := isStub_iff.mp stub
    simp [stubPlace] at eq
  · exact not_isPage_stub stub page

omit workspace in
theorem liftable_late {page : Text} (ends : (".rst" : Text) <:+ page) : DataClass.Liftable site (Late lib) page := by
  intro kind member tree place first second located
  refine not_late_page (Text.suffix_replace ?_ ?_ ?_ ends) located first second
  all_goals
    simp only [List.mem_cons, List.not_mem_nil, or_false] at member
    rcases member with rfl | rfl <;> decide

theorem Workspace.follows_relocate :
    Follows site (Tree.Paired (Late lib)) (Tree.Paired (Late lib)) Eq (DataClass.relocate settings)
      (DataClass.relocate settings) := by
  have origin : ∀ kind ∈ kinds, ∀ tree place,
      site.locate tree (Path.join (Path.join settings.here Pages.folder) kind) = .ok place →
        place = site.below ["autogenerated_source", kind] := by
    intro kind member tree place located
    have named : ∀ name ∈ ([("autogenerated_source" : Text), kind] : Place), Path.Named name := by
      apply Path.named_of_all
      simp only [kinds, List.mem_cons, List.not_mem_nil, or_false] at member
      rcases member with rfl | rfl <;> decide
    rw [workspace.here] at located
    exact workspace.clear.eq_of_locate_here workspace.named_start named located
  have moves : ∀ kind ∈ kinds, ∀ directory, Follows site (Tree.Paired (Late lib)) (Tree.Paired (Late lib)) Eq
      (moveInto (Path.join (Path.join settings.here Pages.folder) kind) directory)
      (moveInto (Path.join (Path.join settings.here Pages.folder) kind) directory) := by
    intro kind member directory
    apply follows_moveInto
    · intro tree place located
      rw [origin kind member tree place located]
      simp
    · intro tree place destination located _
      -- the trees differ in stubs only, and these do not lie in the folder that is moved
      refine ⟨fun _ _ _ _ late => late, fun rest first second late => ?_⟩
      rw [origin kind member tree place located, List.append_assoc] at late
      exact absurd (List.prefix_append _ _) (workspace.not_below late.1)
  rw [DataClass.relocate_eq]
  apply (Follows.anywhere fun _ => follows_makeDirectories _ _).andThen
  intro _
  apply (moves "array" (by decide) _).andThen
  intro _
  apply (moves "container" (by decide) _).andThen
  intro _
  have ends : ∀ (directory : Text) {name : Text}, (".rst" : Text) <:+ name →
      (".rst" : Text) <:+ Path.join directory name :=
    fun directory name page => page.trans (Path.suffix_join directory name)
  exact DataClass.follows_writeSections {
    lasting := lasting_late
    stateful := liftable_late (ends _ (by decide))
    kinds := fun kind _ => liftable_late (ends _ (List.suffix_append _ _))
    classes := liftable_late (ends _ (by decide))
    index := fun tree place first second located => not_late_page (ends _ (by decide)) located first second }

omit workspace in
def writeGathered (settings : Settings) : Script Unit := do
  let _ ← Pages.write settings settings.library
  Instance.mergeAll settings
  removeStubPages
  DataClass.relocate settings
  Discussion.append

/-- The rest of a second run: it comes to an end if the first run does, and the trees differ in the files of stubs
only. -/
theorem Workspace.follows_writeGathered :
    Follows site (Tree.Twin (Differ site lib kinds) Place.IsPage base) (Tree.Paired (Late lib)) Eq
      (writeGathered settings) (writeGathered settings) := by
  unfold writeGathered
  apply (Pages.follows_write undisturbed_differ (fun _ _ eq => nomatch eq) workspace.modulesAlike).andThen
  intro _
  apply (Instance.follows_mergeAll undisturbed_differ fun kind member => workspace.follows_stubs member).andThen
  intro _
  apply Follows.andThen
  · exact workspace.follows_removeStubPages.weaken (fun _ _ twin => twin.paired) (fun _ _ same => same)
      (fun _ _ paired => paired)
  intro _
  apply workspace.follows_relocate.andThen
  intro _
  apply Discussion.follows_append lasting_late
  rintro tree place first second located ⟨stub, _⟩
  rcases Site.locate_join_last (Path.named_of_isNamed (by decide))
    (show site.locate tree (Path.join "partial_source" "discussion_links.json") =
      .ok place from located) with rfl | ⟨front, rfl⟩
  · obtain ⟨kind, _, eq⟩ := isStub_iff.mp stub
    simp [stubPlace] at eq
  · obtain ⟨kind, member, _, eq⟩ := isStub_snoc stub
    simp only [kinds, List.mem_cons, List.not_mem_nil, or_false] at member
    rcases member with rfl | rfl <;> exact absurd eq (by decide)

end

end Build
end ApiDocs
