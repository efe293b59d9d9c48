import ApiDocs.Proofs.DataClass.Relocated
import ApiDocs.Proofs.Pages.Complete

/-! Where logos lead in the end. A page shows them as many levels up as its folder lay deep when it was written, so they
lead to the top of the pages, except on the pages of the data classes, whose folders have moved a level down. -/

set_option autoImplicit false

namespace ApiDocs

open Script Text Pages Instance

/-- Where a path leads from a place, by its names alone. -/
def Place.follow (place : Place) (path : Text) : Place :=
  (split "/" path).foldl (fun place name => if name = (".." : Text) then place.dropLast else place ++ [name]) place

theorem split_upwards {last : Text} (slashless : .char '/' ∉ last) (levels : Nat) :
    split "/" (times levels "../" ++ last) = List.replicate levels (".." : Text) ++ [last] := by
  induction levels with
  | zero => exact split_free slashless
  | succ levels ih =>
    have cut : times (levels + 1) "../" ++ last = ".." ++ .char '/' :: (times levels "../" ++ last) := by
      rw [Nat.add_comm, times_add]
      simp [times, ofChars]
    rw [cut, List.replicate_succ, List.cons_append, ← ih]
    exact split_append _ _ _

theorem Place.follow_upwards (above names : Place) {last : Text} (slashless : .char '/' ∉ last) (proper : last ≠ "..") :
    (above ++ names).follow (times names.length "../" ++ last) = above ++ [last] := by
  rw [follow, split_upwards slashless, List.foldl_append]
  have up : (List.replicate names.length (".." : Text)).foldl
      (fun place name => if name = (".." : Text) then place.dropLast else place ++ [name]) (above ++ names) =
        above := by
    induction names using List.reverseRecOn with
    | nil => exact List.append_nil above
    | append_singleton names name ih =>
      rw [List.length_append, List.length_singleton, List.replicate_succ, List.foldl_cons, if_pos rfl,
        ← List.append_assoc, List.dropLast_concat, ih]
  rw [up, List.foldl_cons, if_neg proper, List.foldl_nil]

namespace Discussion

def Linked (kind : Place → Text → Prop) (inner : Place) (text : Text) : Prop :=
  ∃ (shown : Text) (links : List (Text × Text × Text)),
    text = shown ++ links.flatMap (fun (name, forum, channel) => paragraph name forum channel) ∧ kind inner shown

theorem preserves_append {site : Site} {lib : Place} {base : Tree} {shift : Place → Place} {kind : Place → Text → Prop}
    (empty : ∀ inner, kind inner []) :
    Preserves site (Tree.Holds (Shows site lib base shift (Linked kind))) append := by
  unfold append
  refine Preserves.then (.look (runOn_readText site · _)) fun text => ?_
  refine Preserves.then (.ofExcept _ _) fun modules => ?_
  refine Preserves.then (.ofExcept _ _) fun listed => ?_
  refine Preserves.forM fun module _ => ?_
  unfold appendModule
  refine Preserves.then (.ofExcept _ _) fun submodules => ?_
  refine Preserves.then (.ofExcept _ _) fun inner => ?_
  refine Preserves.forM fun submodule _ => ?_
  cases found : entry module submodules submodule with
  | error fault => exact Maintains.throw _ _
  | ok pair =>
    obtain ⟨page, text⟩ := pair
    obtain ⟨_, name, forum, channel, shape⟩ := entry_eq_ok found
    refine preserves_appendText_holds ?_ ?_
    · exact fun place inner last _ _ => ⟨[], Plain.nil, rfl, [], [], rfl, empty inner⟩
    · intro tree place bytes _ plain fits inner last illustrated eq
      obtain ⟨before, plainBefore, rfl, shown, links, rfl, up⟩ := fits inner last illustrated eq
      refine ⟨_, plain_append.mpr ⟨plainBefore, plain⟩, (Utf8.bytesOf_append _ _).symm, shown,
        links ++ [(name, forum, channel)], ?_, up⟩
      simp [shape]

end Discussion

namespace Build

theorem preserves_removeStubPages {site : Site} {fits : Place → Bytes → Prop} :
    Preserves site (Tree.Holds fits) removeStubPages := by
  unfold removeStubPages
  refine (preserves_erase _).then fun _ => ?_
  refine (preserves_erase _).then fun _ => ?_
  refine (preserves_erase _).then fun _ => ?_
  exact preserves_erase _

/-- A workspace with a library that has no section of data classes and lies apart from the pages, where no page shows
the frameworks as yet, and with frameworks that have their logos beside them. -/
structure Illustrable (site : Site) (settings : Settings) (lib : Place) (base : Tree) : Prop
    extends Prepared site settings lib base where
  direct : ¬("/logos" : Text) <:+: settings.frameworks
  silent : ¬("autofunction" : Text) <:+: settings.frameworks
  beside : ¬top site <+: lib ∧ ¬lib <+: top site
  alone : base.get? (lib ++ [("docs.py" : Text)]) = none
  unsectioned : base.get? (lib ++ [("data_classes" : Text)]) = none ∧
    base.get? (lib ++ [("data_classes.py" : Text)]) = none
  unwritten : ∀ inner last bytes, Illustrated lib base inner last →
    base.get? (top site ++ inner ++ [last]) ≠ some (.file bytes)

section
variable {site : Site} {settings : Settings} {lib : Place} {base : Tree}
    (illustrable : Illustrable site settings lib base)
include illustrable

theorem Illustrable.outside (names : Place) : ¬top site <+: lib ++ names := fun below =>
  (List.prefix_or_prefix_of_prefix below (List.prefix_append lib names)).elim illustrable.beside.1 illustrable.beside.2

theorem Illustrable.head_ne {inner : Place} {last : Text} (illustrated : Illustrated lib base inner last) :
    inner.head? ≠ some ("data_classes" : Text) := by
  obtain ⟨names, stem, documented, more, rfl⟩ := illustrated.below
  have present := documented.present
  intro head
  cases names with
  | nil =>
    obtain rfl : stem = ("data_classes" : Text) := by simpa using head
    rw [List.append_nil, show ("data_classes" : Text) ++ (".py" : Text) = "data_classes.py" from rfl,
      illustrable.unsectioned.2] at present
    cases present
  | cons first names =>
    obtain rfl : first = ("data_classes" : Text) := by simpa using head
    have vacant := illustrable.regular.sound.vacant_below illustrable.unsectioned.1 (names ++ [stem ++ (".py" : Text)])
    rw [List.append_assoc, List.singleton_append, ← List.cons_append, ← List.append_assoc] at vacant
    rw [vacant] at present
    cases present

theorem Illustrable.every_write {written : Tree} {toctree : List Text × List Text}
    (run : (write settings settings.library).runOn site base = (.ok toctree, written)) :
    Underway site base written ∧ written.Every (Shows site lib base id (Fresh settings)) := by
  have alone : ¬Documented lib base [] "docs" := by
    intro documented
    have present := documented.present
    rw [List.append_nil, show ("docs" : Text) ++ (".py" : Text) = "docs.py" from rfl, illustrable.alone] at present
    cases present
  refine illustrable.toPrepared.every_write illustrable.direct illustrable.silent illustrable.outside alone ?_ run
  intro place bytes held inner last illustrated eq
  exact absurd (eq ▸ held) (illustrable.unwritten inner last bytes illustrated)

end

theorem blind_prepareFolder {site : Site} (clear : site.Clear) : Blind site prepareFolder := by
  unfold prepareFolder
  refine (blind_present _).bind fun present => ?_
  cases present with
  | false => exact blind_copyFolders clear
  | true => exact (blind_removeDirectory _).bind fun _ => blind_copyFolders clear

theorem runOn_writePages_stages {site : Site} {settings : Settings} (merges : settings.merges = true)
    {tree after : Tree} (run : (writePages settings).runOn site tree = (.ok (), after)) :
    ∃ prepared base written merged cleared moved toctree, prepareFolder.runOn site tree = (.ok (), prepared) ∧
      (Stub.gather settings settings.library).runOn site prepared = (.ok (), base) ∧
      (write settings settings.library).runOn site base = (.ok toctree, written) ∧
      (mergeAll settings).runOn site written = (.ok (), merged) ∧
      removeStubPages.runOn site merged = (.ok (), cleared) ∧
      (DataClass.relocate settings).runOn site cleared = (.ok (), moved) ∧
      Discussion.append.runOn site moved = (.ok (), after) := by
  unfold writePages at run
  simp only [merges, if_true] at run
  obtain ⟨_, prepared, preparing, run⟩ := Script.runOn_bind_ok run
  obtain ⟨_, base, gathering, run⟩ := Script.runOn_bind_ok run
  obtain ⟨toctree, written, writing, run⟩ := Script.runOn_bind_ok run
  obtain ⟨_, merged, merging, run⟩ := Script.runOn_bind_ok run
  obtain ⟨_, cleared, clearing, run⟩ := Script.runOn_bind_ok run
  obtain ⟨_, moved, moving, appending⟩ := Script.runOn_bind_ok run
  exact ⟨prepared, base, written, merged, cleared, moved, toctree, preparing, gathering, writing, merging, clearing,
    moving, appending⟩

def mergePages (settings : Settings) : Script Unit := do
  mergeAll settings
  removeStubPages
  DataClass.relocate settings
  Discussion.append

theorem runOn_writePages_merged {site : Site} {settings : Settings} (merges : settings.merges = true)
    {tree base written : Tree} {toctree : List Text × List Text}
    (gathered : (do prepareFolder; Stub.gather settings settings.library).runOn site tree = (.ok (), base))
    (wrote : (write settings settings.library).runOn site base = (.ok toctree, written)) :
    (writePages settings).runOn site tree = (mergePages settings).runOn site written := by
  have stages : writePages settings = (do
      (do prepareFolder; Stub.gather settings settings.library)
      let _ ← write settings settings.library
      mergePages settings) := by
    unfold writePages mergePages
    simp only [merges, if_true, bind_assoc]
  rw [stages, Script.runOn_bind, gathered, andThen_ok, Script.runOn_bind, wrote, andThen_ok]

/-- As many levels up as a folder lies deep, logos are found beside all pages, and from a folder that has moved beside
the pages of the data classes. -/
theorem follow_moved (site : Site) (head : Text) (inner : Place) :
    (top site ++ moved ["container", "array"] (head :: inner)).follow (times (head :: inner).length "../" ++ "logos") =
      if (head :: inner).head? = some ("array" : Text) ∨ (head :: inner).head? = some ("container" : Text) then
        top site ++ [("data_classes" : Text), ("logos" : Text)]
      else top site ++ [("logos" : Text)] := by
  by_cases moves : head ∈ [("container" : Text), ("array" : Text)]
  · have class' : (head :: inner).head? = some ("array" : Text) ∨
        (head :: inner).head? = some ("container" : Text) := by
      simpa [or_comm] using moves
    have down := @Place.follow_upwards (top site ++ [("data_classes" : Text)]) (head :: inner) "logos"
      (by decide) (by decide)
    rw [moved_of_mem moves, if_pos class']
    simpa using down
  · have other : ¬((head :: inner).head? = some ("array" : Text) ∨
        (head :: inner).head? = some ("container" : Text)) := by
      simpa [or_comm] using moves
    rw [moved_of_not_mem moves, if_neg other]
    exact Place.follow_upwards (top site) (head :: inner) (by decide) (by decide)

/-- Where the logos lead. On a page of a module's folder they are as many levels up as the folder lies deep, if the
library is one directory away. So they lead to the folder of logos beside the pages, and only on the pages of the data
classes, which have moved a level down, they lead to one beside these. -/
theorem logos_lead_to {site : Site} {settings : Settings} {lib : Place} {tree base written after : Tree}
    {toctree : List Text × List Text} (clear : site.Clear) (here : settings.here = site.here)
    (merges : settings.merges = true) (distinct : tree.Distinct)
    (gathered : (do prepareFolder; Stub.gather settings settings.library).runOn site tree = (.ok (), base))
    (illustrable : Illustrable site settings lib base)
    (wrote : (write settings settings.library).runOn site base = (.ok toctree, written))
    (functional : site.find written (Path.walked settings.here [folder, "functional", "ivy"]) =
      .ok (functionalPlace site, .directory)) (mergeable : MethodsMergeable site settings written)
    (run : (writePages settings).runOn site tree = (.ok (), after)) {inner : Place} {last : Text} {bytes : Bytes}
    (illustrated : Illustrated lib base inner last)
    (held : after.get? (top site ++ moved ["container", "array"] inner ++ [last]) = some (.file bytes)) :
    ∃ (text : Text) (links : List (Text × Text × Text)),
      bytes = Utf8.bytesOf (text ++ links.flatMap fun (name, forum, channel) =>
        Discussion.paragraph name forum channel) ∧
      ∀ name count, .char '\n' ∉ name → .char '/' ∉ name → logo name count <:+: text →
        count + 1 = inner.length + settings.library.count (.char '/') ∧
        (settings.library.count (.char '/') = 1 →
          (top site ++ moved ["container", "array"] inner).follow (times count "../" ++ "logos") =
            if inner.head? = some ("array" : Text) ∨ inner.head? = some ("container" : Text) then
              top site ++ [("data_classes" : Text), ("logos" : Text)]
            else top site ++ [("logos" : Text)]) := by
  -- the same stages, with the trees that the hypotheses name
  obtain ⟨prepared, base', written', merged, cleared, rearranged, _, preparing, gathering, writing, merging, clearing,
      moving, appending⟩ :=
    runOn_writePages_stages merges run
  obtain ⟨_, prepared', preparing', gathering'⟩ := Script.runOn_bind_ok gathered
  cases preparing.symm.trans preparing'
  cases gathering.symm.trans gathering'
  cases writing.symm.trans wrote
  obtain ⟨state, every⟩ := illustrable.every_write wrote
  have above : ∀ name ∈ site.start, Path.Named name := by
    have present : (written.get? ([] ++ functionalPlace site)).isSome = true := by
      rw [List.nil_append, (Site.find_eq_ok_iff.mp functional).2]
      rfl
    intro name member
    exact (state.sound illustrable.regular.sound).named_of_mem present name
      (List.mem_append_left _ (List.mem_append_left _ member))
  have holds := holds_mergeAll illustrable.toPrepared clear above here state every mergeable functional merging
  have kept := preserves_removeStubPages.keeps holds clearing
  have distinct' : cleared.Distinct := by
    have first := (blind_prepareFolder clear).distinct distinct preparing
    have second := (Stub.blind_gather _ _).distinct first gathering
    have third := (Pages.blind_write _ _).distinct second wrote
    have fourth := (Instance.blind_mergeAll _).distinct third merging
    exact blind_removeStubPages.distinct fourth clearing
  -- moving a folder changes no page in it, so its logos are as many levels up as before
  have relocated := DataClass.holds_relocate clear above here (fun inner last => illustrable.head_ne)
    distinct' kept moving
  have linked : rearranged.Holds (Shows site lib base (moved ["container", "array"])
      (Discussion.Linked (Raised settings))) := by
    refine ⟨relocated.sound, relocated.every.mono fun place bytes shows inner last illustrated eq => ?_⟩
    obtain ⟨text, plain, same, up⟩ := shows inner last illustrated eq
    exact ⟨text, plain, same, text, [], by simp, up⟩
  have final := (Discussion.preserves_append fun inner => logosUp_of_slashless List.not_mem_nil).keeps linked appending
  obtain ⟨_, _, rfl, text, links, rfl, up⟩ := final.every _ bytes held inner last illustrated rfl
  refine ⟨text, links, rfl, fun name count free slashless found => ?_⟩
  obtain rfl : count = logoLevels settings inner := up name count free slashless found
  cases inner with
  | nil =>
    obtain ⟨names, stem, _, below⟩ := illustrated.below
    exact absurd (List.prefix_nil.mp below) (by simp)
  | cons head inner =>
    refine ⟨?_, fun one => ?_⟩
    · rw [logoLevels, List.length_cons]
      omega
    have levels : logoLevels settings (head :: inner) = (head :: inner).length := by
      rw [logoLevels, one]
      simp
    rw [levels]
    exact follow_moved site head inner

def picturedSite : Site := .ascending "/workspace" ["docs"]

def picturedSettings : Settings :=
  { here := picturedSite.here, library := "../ivy", heading := .byDirectory, merges := true,
    frameworks := "\n.. |jax_logo| image:: logos/supported/jax_logo.png\n" }

def picturedStubs : Text := "#ivy.array.a\ndef f(self):\n"

def picturedTree : Tree :=
  ⟨[(["README.rst"], .file (Utf8.bytesOf "R\n")), (["docs"], .directory), (["docs", "ivy_modules.txt"], .file []),
    (["docs", "partial_source"], .directory), (["docs", "partial_source", "images"], .directory),
    (["docs", "partial_source", "discussion_links.json"], .file (Utf8.bytesOf "\x7b\x7d")),
    (["docs", "partial_source", "index_prepend.rst"], .file []),
    (["ivy"], .directory), (["ivy", "array"], .directory),
    (["ivy", "array", "array.py"], .file (Utf8.bytesOf "\nclass Array():\n")),
    (["ivy", "array", "array_methods.py"], .file (Utf8.bytesOf picturedStubs)),
    (["ivy", "container"], .directory), (["ivy", "container", "container.py"], .file []),
    (["ivy", "container", "container_methods.py"], .file []),
    (["ivy", "functional"], .directory), (["ivy", "functional", "ivy"], .directory),
    (["ivy", "functional", "ivy", "a.py"], .file (Utf8.bytesOf "\ndef f(x):\n")),
    (["ivy", "stateful"], .directory), (["ivy", "stateful", "s.py"], .file [])]⟩

def picturedBase : Tree :=
  ⟨picturedTree.entries ++ ([(["docs", "build"], .directory), (["docs", "build", "_images"], .directory),
    (["docs", "autogenerated_source"], .directory), (["docs", "autogenerated_source", "images"], .directory),
    (["docs", "autogenerated_source", "discussion_links.json"], .file (Utf8.bytesOf "\x7b\x7d")),
    (["docs", "autogenerated_source", "index_prepend.rst"], .file [])] : List (Place × Entry))⟩

def methodPage : Text :=
  "f array\n=======\n\n.. autofunction:: ivy.array.array_methods.f\n\n.. |jax_logo| image:: ../../logos/supported/jax_logo.png\n"

theorem evaluated_library :
    ((do prepareFolder; Stub.gather picturedSettings picturedSettings.library : Script Unit).runOn
      picturedSite picturedTree =
      (.ok (), picturedBase) ∧ 2 * (picturedBase.height + 4) = 16) ∧
    (Path.base picturedSettings.library ≠ [] ∧ index? (Path.base picturedSettings.library) picturedSettings.library =
      some (picturedSettings.library.length - (Path.base picturedSettings.library).length)) ∧
    (picturedBase.isSound = true ∧ isRegular picturedSettings ["ivy"] picturedBase = true ∧
      picturedSite.locate picturedBase picturedSettings.library = .ok ["ivy"] ∧
      linesAt picturedSite picturedBase (Path.join picturedSettings.here "ivy_modules.txt") = .ok []) ∧
    (¬("/logos" : Text) <:+: picturedSettings.frameworks ∧ ¬("autofunction" : Text) <:+: picturedSettings.frameworks) ∧
    (picturedBase.get? [("ivy" : Text), "docs.py"] = none ∧
      picturedBase.get? [("ivy" : Text), "data_classes"] = none ∧
        picturedBase.get? [("ivy" : Text), "data_classes.py"] = none) ∧
    picturedBase.entries.all (fun item => !(top picturedSite).isPrefixOf item.1 || item.1.length ≤ 3) = true ∧
    Utf8.decodeLines (Utf8.bytesOf methodPage) = .ok methodPage ∧
      (Text.lines (unifyNewlines methodPage)).find? isDirective = some ".. autofunction:: ivy.array.array_methods.f\n" ∧
      directiveName ".. autofunction:: ivy.array.array_methods.f\n" = .ok "f" ∧
      (moduleOf picturedStubs "f" ≠ [] ∧ .char '/' ∉ moduleOf picturedStubs "f") ∧
      baseName "f" ≠ [] ∧ .char '/' ∉ baseName "f" := by
  decide +kernel

theorem runOn_gather_pictured : (do prepareFolder; Stub.gather picturedSettings picturedSettings.library : Script
    Unit).runOn picturedSite
    picturedTree = (.ok (), picturedBase) := evaluated_library.1.1

theorem illustrable_pictured : Illustrable picturedSite picturedSettings ["ivy"] picturedBase := by
  obtain ⟨_, rooted, ⟨sound, regular, located, read⟩, ⟨direct, silent⟩, ⟨alone, unsectioned⟩, shallow, _⟩ :=
    evaluated_library
  have prepared : Prepared picturedSite picturedSettings ["ivy"] picturedBase :=
    ⟨.inr (by decide), by decide, regular_of_isRegular ⟨rooted.1, rooted.2⟩ (Tree.sound_of_isSound sound) regular,
      located, [], read, by decide⟩
  refine ⟨prepared, direct, silent, by decide, alone, unsectioned, ?_⟩
  intro inner last bytes illustrated held
  -- nothing lies so deep in the folder of pages
  have member : (top picturedSite ++ (inner ++ [last]), Entry.file bytes) ∈ picturedBase.entries := by
    refine Table.mem_of_get? ?_
    rwa [List.append_assoc, Tree.get?, if_neg (by simp)] at held
  have checked := List.all_eq_true.mp shallow _ member
  have below : (top picturedSite).isPrefixOf (top picturedSite ++ (inner ++ [last])) = true :=
    List.isPrefixOf_iff_prefix.mpr (List.prefix_append _ _)
  have deep : (top picturedSite).length = 2 := by decide
  simp only [below, Bool.not_true, Bool.false_or, decide_eq_true_eq, List.length_append, List.length_singleton,
    deep] at checked
  obtain ⟨names, stem, _, front⟩ := illustrated.below
  have length := front.length_le
  rw [List.length_append, List.length_singleton] at length
  omega

def picturedWriting : Except Fault (List Text × List Text) × Tree :=
  (writeUpTo picturedSettings 16 picturedSettings.library).runOn picturedSite picturedBase

def picturedRun : Except Fault Unit × Tree := (writePages picturedSettings).runOn picturedSite picturedTree

def picturedPage : Text :=
  ".. autoclass:: ivy.array.array.Array\n   :members:\n   :special-members: __init__\n   :undoc-members:\n   :show-inheritance:\n" ++
    "\n.. |jax_logo| image:: ../../logos/supported/jax_logo.png\n"

theorem pictured_pages :
    picturedWriting.1 = .ok (["../ivy/array", "../ivy/container", "../ivy/functional", "../ivy/stateful"], []) ∧
      picturedSite.find picturedWriting.2 (Path.walked picturedSettings.here [folder, "functional", "ivy"]) =
        .ok (functionalPlace picturedSite, .directory) ∧
      picturedWriting.2.names (top picturedSite ++ [("array" : Text), "array_methods"]) = [("f.rst" : Text)] ∧
      picturedWriting.2.names (top picturedSite ++ [("container" : Text), "container_methods"]) = [] ∧
      textAt picturedSite picturedWriting.2 (Path.walked picturedSettings.library ["array", "array_methods.py"]) =
        .ok picturedStubs ∧
      picturedSite.find picturedWriting.2 (Path.join (methodsFolder picturedSettings "array") "f.rst") =
        .ok (top picturedSite ++ [("array" : Text), "array_methods", "f.rst"], .file (Utf8.bytesOf methodPage)) ∧
      ((mergePages picturedSettings).runOn picturedSite picturedWriting.2).1 = .ok () ∧
      ((mergePages picturedSettings).runOn picturedSite picturedWriting.2).2.get?
        ["docs", "autogenerated_source", "data_classes", "array", "array", "Array.rst"] =
          some (.file (Utf8.bytesOf picturedPage)) := by
  decide +kernel

theorem mergeable_pictured : MethodsMergeable picturedSite picturedSettings picturedWriting.2 := by
  obtain ⟨_, _, methods, none, stubs, found, _⟩ := pictured_pages
  obtain ⟨_, _, _, _, _, _, decoded, first, named, module, function⟩ := evaluated_library
  rintro type given (rfl | rfl) read file member
  · cases stubs.symm.trans read
    obtain rfl : file = "f.rst" := by
      rw [← List.mem_singleton, ← methods]
      exact member
    have readPage := (linesAt_eq_ok_iff picturedSite picturedWriting.2).mpr ⟨_, _, _, found, decoded, rfl⟩
    exact mergeable_of_read (by decide) found (by decide) readPage first named (by decide) module function
  · have inside : file ∈ picturedWriting.2.names (top picturedSite ++ [("container" : Text), "container_methods"]) :=
      member
    rw [none] at inside
    exact absurd inside List.not_mem_nil

theorem pictured_run : picturedRun.1 = .ok () ∧
    picturedRun.2.get? ["docs", "autogenerated_source", "data_classes", "array", "array", "Array.rst"] =
      some (.file (Utf8.bytesOf picturedPage)) := by
  have rest : picturedRun = (mergePages picturedSettings).runOn picturedSite picturedWriting.2 :=
    runOn_writePages_merged rfl runOn_gather_pictured (runOn_write_of_ended evaluated_library.1.2 pictured_pages.1)
  rw [rest]
  exact pictured_pages.2.2.2.2.2.2

theorem logos_lead_to_sample : ∃ after, (writePages picturedSettings).runOn picturedSite picturedTree =
    (.ok (), after) ∧
    ∃ (text : Text) (links : List (Text × Text × Text)),
      after.get? ["docs", "autogenerated_source", "data_classes", "array", "array", "Array.rst"] = some (.file
        (Utf8.bytesOf (text ++ links.flatMap fun (name, forum, channel) => Discussion.paragraph name forum channel))) ∧
      ∀ name count, .char '\n' ∉ name → .char '/' ∉ name → logo name count <:+: text → count = 2 ∧
        Place.follow ["docs", "autogenerated_source", "data_classes", "array", "array"] (times count "../" ++ "logos") =
          [("docs" : Text), "autogenerated_source", "data_classes", "logos"] := by
  have clear : picturedSite.Clear := ⟨.inr (by decide), by decide, by decide, by decide⟩
  have distinct : picturedTree.Distinct := by unfold Tree.Distinct; decide
  have wrote : (write picturedSettings picturedSettings.library).runOn picturedSite picturedBase =
      (.ok (["../ivy/array", "../ivy/container", "../ivy/functional", "../ivy/stateful"], []), picturedWriting.2) :=
    runOn_write_of_ended evaluated_library.1.2 pictured_pages.1
  have run : picturedRun = (.ok (), picturedRun.2) :=
    (Prod.eta picturedRun).symm.trans (congrArg (·, picturedRun.2) pictured_run.1)
  have documented : Documented ["ivy"] picturedBase ["array"] "array" := ⟨by decide, by decide⟩
  have illustrated : Illustrated ["ivy"] picturedBase ["array", "array"] "Array.rst" :=
    .member documented fun long => absurd long (by decide)
  have down : top picturedSite ++ moved ["container", "array"] ["array", "array"] =
      [("docs" : Text), "autogenerated_source", "data_classes", "array", "array"] := by decide
  have place : top picturedSite ++ moved ["container", "array"] ["array", "array"] ++ [("Array.rst" : Text)] =
      [("docs" : Text), "autogenerated_source", "data_classes", "array", "array", "Array.rst"] := by decide
  obtain ⟨text, links, same, lead⟩ := logos_lead_to clear rfl rfl distinct runOn_gather_pictured
    illustrable_pictured wrote
    pictured_pages.2.1 mergeable_pictured run illustrated (place ▸ pictured_run.2)
  refine ⟨picturedRun.2, run, text, links, same ▸ pictured_run.2, fun name count free slashless found => ?_⟩
  obtain ⟨levels, leads⟩ := lead name count free slashless found
  have slashes : picturedSettings.library.count (.char '/') = 1 := by decide
  rw [slashes] at levels
  have leads := leads slashes
  rw [down, if_pos (.inl rfl)] at leads
  exact ⟨Nat.succ.inj levels, leads⟩

end Build
end ApiDocs
