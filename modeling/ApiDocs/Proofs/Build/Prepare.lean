import ApiDocs.Build
import ApiDocs.Proofs.File.Pair
import ApiDocs.Proofs.File.Relative

/-! The folder of pages at the start of a run. It is a copy of the sources, whatever it held before, so two runs
that begin with the same sources begin with the same pages. -/

set_option autoImplicit false

namespace ApiDocs

namespace Tree

variable {tree : Tree} {source target : Place}

def copied (tree : Tree) (source target : Place) : Tree := (tree.put target .directory).graft source target

section
variable (vacant : tree.get? target = none)
include vacant

theorem get?_put_vacant (entry : Entry) : (tree.put target entry).get? target = some entry :=
  get?_put_self entry (by rw [vacant]; intro eq; cases eq)

variable (sound : tree.Sound) (distinct : tree.Distinct)
include sound distinct

theorem get?_copied (directory : tree.get? source = some .directory) (inner : source ≠ []) (away : ¬source <+: target)
    (rest : Place) : (tree.copied source target).get? (target ++ rest) = tree.get? (source ++ rest) := by
  have proper : target ++ rest ≠ [] := by
    intro root
    rw [(List.append_eq_nil_iff.mp root).1] at vacant
    cases vacant
  have apart : target ≠ source ++ rest := fun eq => away ⟨rest, eq.symm⟩
  unfold copied
  rw [get?_graft_below (distinct.put _ _) inner target rest proper, get?_put_apart _ _ apart]
  cases rest with
  | nil => rw [List.append_nil, directory]; rfl
  | cons name names =>
    have below : target ≠ target ++ name :: names := fun eq => by simpa using congrArg List.length eq
    rw [get?_put_apart _ _ below, sound.vacant_below vacant, Option.or_none]

omit vacant sound in
theorem get?_copied_apart {place : Place} (apart : ¬target <+: place) :
    (tree.copied source target).get? place = tree.get? place := by
  unfold copied
  rw [get?_graft_apart (distinct.put _ _) _ apart, get?_put_apart]
  rintro rfl
  exact apart (List.prefix_refl _)

theorem sound_copied (inner : source ≠ [])
    (proper : ∃ before name, target = before ++ [name] ∧ Path.Named name ∧ tree.get? before = some .directory) :
    (tree.copied source target).Sound := by
  apply (sound.put (fun _ => rfl) (.inr proper)).graft (distinct.put _ _) inner
  · intro rest nonempty
    have below : target ≠ target ++ rest := fun eq => nonempty (by simpa using congrArg List.length eq)
    rw [get?_put_apart _ _ below, sound.vacant_below vacant]
  · exact .inl (by rw [get?_put_vacant vacant]; rfl)

end

theorem distinct_copied (distinct : tree.Distinct) (source target : Place) : (tree.copied source target).Distinct :=
  (distinct.put _ _).graft _ _

end Tree

namespace Build

open Script

variable {site : Site} (clear : site.Clear)
include clear

theorem relative_source : site.Relative "partial_source" ["partial_source"] :=
  clear.relative (by decide : ("partial_source" : Text) ∈ Site.folders) (.inl rfl) (by decide) (by decide)
    (Path.named_of_all (by decide))

theorem relative_images : site.Relative "partial_source/images" ["partial_source", "images"] :=
  clear.relative (by decide : ("partial_source" : Text) ∈ Site.folders) (.inr ⟨"images", by decide⟩) (by decide)
    (by decide) (Path.named_of_all (by decide))

theorem relative_pages : site.Relative Pages.folder ["autogenerated_source"] :=
  clear.relative (by decide : ("autogenerated_source" : Text) ∈ Site.folders) (.inl rfl) (by decide) (by decide)
    (Path.named_of_all (by decide))

theorem relative_build : site.Relative "build" ["build"] :=
  clear.relative (by decide : ("build" : Text) ∈ Site.folders) (.inl rfl) (by decide) (by decide)
    (Path.named_of_all (by decide))

theorem relative_builtImages : site.Relative "build/_images" ["build", "_images"] :=
  clear.relative (by decide : ("build" : Text) ∈ Site.folders) (.inr ⟨"_images", by decide⟩) (by decide) (by decide)
    (Path.named_of_all (by decide))

omit clear in
/-- What the tree holds once the folder of pages has been made anew. -/
def prepared (site : Site) (tree : Tree) (place : Place) : Option Entry :=
  if site.below ["autogenerated_source"] <+: place then
    tree.get? (site.below ["partial_source"] ++ place.drop (site.start.length + 1))
  else if site.below ["build", "_images"] <+: place then
    tree.get? (site.below ["partial_source", "images"] ++ place.drop (site.start.length + 2))
  else if place = site.below ["build"] then some .directory
  else tree.get? place

/-- The conditions under which the folder can be made. -/
structure Preparable (site : Site) (tree : Tree) : Prop where
  images : tree.get? (site.below ["partial_source", "images"]) = some .directory
  pages : tree.get? (site.below ["autogenerated_source"]) = none ∨
    tree.get? (site.below ["autogenerated_source"]) = some .directory
  build : tree.get? (site.below ["build"]) = none

omit clear in
def clearFolder : Script Unit := do
  if ← present Pages.folder then removeDirectory Pages.folder

omit clear in
theorem runOn_prepareFolder_eq (tree : Tree) :
    prepareFolder.runOn site tree = (do
      clearFolder
      copyDirectory "partial_source/images" "build/_images"
      copyDirectory "partial_source" Pages.folder : Script Unit).runOn site tree := by
  unfold prepareFolder clearFolder
  rw [Script.runOn_bind, Script.runOn_bind, Script.runOn_bind, runOn_present, andThen_ok, andThen_ok]
  cases (site.find tree Pages.folder).toOption.isSome with
  | false => rfl
  | true =>
    rw [if_pos rfl, if_pos rfl, Script.runOn_bind]

theorem runOn_clearFolder {tree : Tree} (sound : tree.Sound) (distinct : tree.Distinct)
    (start : tree.get? site.start = some .directory)
    (pages : tree.get? (site.below ["autogenerated_source"]) = none ∨
      tree.get? (site.below ["autogenerated_source"]) = some .directory) :
    ∃ after, clearFolder.runOn site tree = (.ok (), after) ∧ after.Sound ∧ after.Distinct ∧
      after.get? (site.below ["autogenerated_source"]) = none ∧
      ∀ place, ¬site.below ["autogenerated_source"] <+: place → after.get? place = tree.get? place := by
  have located := (relative_pages clear).locate_name sound start
  unfold clearFolder
  rw [Script.runOn_bind]
  rcases pages with vacant | directory
  · rw [runOn_present_vacant located vacant, andThen_ok]
    exact ⟨tree, rfl, sound, distinct, vacant, fun _ _ => rfl⟩
  · have found := Site.find_eq_ok_iff.mpr ⟨located, directory⟩
    have proper : site.below ["autogenerated_source"] ≠ [] := by simp
    rw [runOn_present_of_find found, andThen_ok, if_pos rfl, runOn_removeDirectory_of found]
    refine ⟨_, rfl, sound.erase _, distinct.erase _, ?_, fun place outside => ?_⟩
    · rw [Tree.get?_erase _ _ _ proper, if_pos (List.isPrefixOf_iff_prefix.mpr (List.prefix_refl _))]
    · by_cases root : place = []
      · rw [root]; rfl
      · rw [Tree.get?_erase _ _ _ root, if_neg fun inside => outside (List.isPrefixOf_iff_prefix.mp inside)]

theorem proper_build {tree : Tree} (start : tree.get? site.start = some .directory) :
    ∃ before name, site.below ["build"] = before ++ [name] ∧ Path.Named name ∧ tree.get? before = some .directory :=
  ⟨site.start, "build", rfl, (relative_build clear).named _ (by simp), start⟩

omit clear in
theorem vacant_builtImages {tree : Tree} (sound : tree.Sound) (vacant : tree.get? (site.below ["build"]) = none) :
    (tree.put (site.below ["build"]) .directory).get? (site.below ["build", "_images"]) = none := by
  rw [Tree.get?_put_apart _ _ (by simp)]
  have below := sound.vacant_below vacant ["_images"]
  rwa [List.append_assoc] at below

theorem runOn_copyImages {tree : Tree} (sound : tree.Sound)
    (images : tree.get? (site.below ["partial_source", "images"]) = some .directory)
    (vacant : tree.get? (site.below ["build"]) = none) :
    (copyDirectory "partial_source/images" "build/_images").runOn site tree =
      (.ok (), (tree.put (site.below ["build"]) .directory).copied (site.below ["partial_source", "images"])
        (site.below ["build", "_images"])) := by
  have start : tree.get? site.start = some .directory :=
    sound.above (List.cons_ne_nil _ _) (by rw [images]; rfl)
  have source : tree.get? (site.below ["partial_source"]) = some .directory :=
    sound.parent _ "images" (by rw [List.append_assoc]; exact images ▸ rfl)
  have build := (relative_build clear).locate_name sound start
  -- the folder of the built pages, then the one of its images
  have made := Tree.get?_put_vacant vacant .directory
  have soundBuild : (tree.put (site.below ["build"]) .directory).Sound :=
    sound.put (fun _ => rfl) (.inr (proper_build clear start))
  have built := (relative_builtImages clear).locate_pair soundBuild made
  have free := vacant_builtImages sound vacant
  have soundImages : ((tree.put (site.below ["build"]) .directory).put (site.below ["build", "_images"])
      .directory).Sound :=
    soundBuild.put (fun _ => rfl) (.inr ⟨site.below ["build"], "_images", by simp,
      (relative_builtImages clear).named _ (by simp), made⟩)
  apply runOn_copyDirectory_of
  · refine Site.find_eq_ok_iff.mpr ⟨?_, images⟩
    exact (relative_images clear).locate_pair sound source
  · apply runOn_makeDirectoriesUpTo_below (by decide) (by decide) (by decide)
    · exact runOn_present_vacant build vacant
    · apply runOn_makeDirectoriesUpTo_name _ (by decide) (by decide)
      exact runOn_makeDirectory_of (relative_build clear).accepted (by decide) build vacant
    · exact runOn_makeDirectory_of (relative_builtImages clear).accepted (by decide) built free
  · refine Site.find_eq_ok_iff.mpr ⟨?_, Tree.get?_put_vacant free .directory⟩
    apply (relative_builtImages clear).locate_pair soundImages
    rw [Tree.get?_put_apart _ _ (by simp)]
    exact made

theorem runOn_copySources {tree : Tree} (sound : tree.Sound)
    (source : tree.get? (site.below ["partial_source"]) = some .directory)
    (vacant : tree.get? (site.below ["autogenerated_source"]) = none) :
    (copyDirectory "partial_source" Pages.folder).runOn site tree =
      (.ok (), tree.copied (site.below ["partial_source"]) (site.below ["autogenerated_source"])) := by
  have start : tree.get? site.start = some .directory :=
    sound.above (List.cons_ne_nil _ _) (by rw [source]; rfl)
  have pages := (relative_pages clear).locate_name sound start
  have soundPages : (tree.put (site.below ["autogenerated_source"]) .directory).Sound := sound.put (fun _ => rfl)
    (.inr ⟨site.start, "autogenerated_source", rfl, (relative_pages clear).named _ (by simp), start⟩)
  apply runOn_copyDirectory_of
  · refine Site.find_eq_ok_iff.mpr ⟨?_, source⟩
    exact (relative_source clear).locate_name sound start
  · apply runOn_makeDirectoriesUpTo_name _ (by decide) (by decide)
    exact runOn_makeDirectory_of (relative_pages clear).accepted (by decide) pages vacant
  · refine Site.find_eq_ok_iff.mpr ⟨?_, Tree.get?_put_vacant vacant .directory⟩
    apply (relative_pages clear).locate_name soundPages
    rw [Tree.get?_put_apart _ _ (by simp)]
    exact start

theorem imagesCopied {tree : Tree} (sound : tree.Sound) (distinct : tree.Distinct)
    (images : tree.get? (site.below ["partial_source", "images"]) = some .directory)
    (vacant : tree.get? (site.below ["build"]) = none) :
    ∃ after, (copyDirectory "partial_source/images" "build/_images").runOn site tree = (.ok (), after) ∧
      after.Sound ∧ after.Distinct ∧
      (∀ rest, after.get? (site.below ["build", "_images"] ++ rest) =
        tree.get? (site.below ["partial_source", "images"] ++ rest)) ∧
      after.get? (site.below ["build"]) = some .directory ∧
      ∀ place, place ≠ site.below ["build"] → ¬site.below ["build", "_images"] <+: place →
        after.get? place = tree.get? place := by
  have start : tree.get? site.start = some .directory :=
    sound.above (List.cons_ne_nil _ _) (by rw [images]; rfl)
  -- the folder of built pages is made first, and then the copy goes into it
  have made := Tree.get?_put_vacant vacant .directory
  have soundBuild : (tree.put (site.below ["build"]) .directory).Sound :=
    sound.put (fun _ => rfl) (.inr (proper_build clear start))
  have distinctBuild := distinct.put (site.below ["build"]) .directory
  have free := vacant_builtImages sound vacant
  have apart : ∀ rest, site.below ["build"] ≠ site.below ["partial_source", "images"] ++ rest :=
    fun rest => Site.below_ne (by decide) [] ["images"] rest
  have source : (tree.put (site.below ["build"]) .directory).get? (site.below ["partial_source", "images"]) =
      some .directory := by
    have here := apart []
    rw [List.append_nil] at here
    rw [Tree.get?_put_apart _ _ here, images]
  refine ⟨_, runOn_copyImages clear sound images vacant, ?_, Tree.distinct_copied distinctBuild _ _, fun rest => ?_, ?_,
    fun place differs outside => ?_⟩
  · exact Tree.sound_copied free soundBuild distinctBuild (by simp)
      ⟨site.below ["build"], "_images", by simp, (relative_builtImages clear).named _ (by simp), made⟩
  · have away := site.not_below_names (by decide : ("partial_source" : Text) ≠ "build") ["images"] ["_images"]
    rw [Tree.get?_copied free soundBuild distinctBuild source (by simp) away, Tree.get?_put_apart _ _ (apart rest)]
  · rw [Tree.get?_copied_apart distinctBuild (by simp), made]
  · rw [Tree.get?_copied_apart distinctBuild outside, Tree.get?_put_apart _ _ differs.symm]

/-- Where the folder can be made, what is there afterwards is known place by place. -/
theorem runOn_prepareFolder {tree : Tree} (sound : tree.Sound) (distinct : tree.Distinct)
    (preparable : Preparable site tree) :
    ∃ after, prepareFolder.runOn site tree = (.ok (), after) ∧ after.Sound ∧ after.Distinct ∧
      ∀ place, after.get? place = prepared site tree place := by
  have start : tree.get? site.start = some .directory :=
    sound.above (List.cons_ne_nil _ _) (by rw [preparable.images]; rfl)
  obtain ⟨empty, cleared, soundEmpty, distinctEmpty, vacant, same⟩ :=
    runOn_clearFolder clear sound distinct start preparable.pages
  -- the sources are as they were, and so is everything else outside the folder of pages
  have keeps : ∀ {name : Text} (names rest : Place), name ≠ "autogenerated_source" →
      empty.get? (site.below (name :: names) ++ rest) = tree.get? (site.below (name :: names) ++ rest) :=
    fun names rest differs => same _ (Site.not_below differs.symm _ _ _)
  have images : empty.get? (site.below ["partial_source", "images"]) = some .directory := by
    have here := keeps ["images"] [] (by decide : ("partial_source" : Text) ≠ "autogenerated_source")
    rw [List.append_nil] at here
    exact here.trans preparable.images
  have build : empty.get? (site.below ["build"]) = none := by
    have here := keeps [] [] (by decide : ("build" : Text) ≠ "autogenerated_source")
    rw [List.append_nil] at here
    exact here.trans preparable.build
  obtain ⟨between, copied, soundBetween, distinctBetween, built, folder, others⟩ :=
    imagesCopied clear soundEmpty distinctEmpty images build
  have sources : ∀ rest, between.get? (site.below ["partial_source"] ++ rest) =
      tree.get? (site.below ["partial_source"] ++ rest) := by
    intro rest
    rw [others, keeps _ _ (by decide)]
    · exact (Site.below_ne (by decide : ("build" : Text) ≠ "partial_source") [] [] rest).symm
    · exact Site.not_below (by decide) _ _ _
  have free : between.get? (site.below ["autogenerated_source"]) = none := by
    rw [others, vacant]
    · intro eq
      exact absurd (List.cons.inj (List.append_cancel_left eq)).1 (by decide)
    · exact site.not_below_names (by decide) _ _
  have source : between.get? (site.below ["partial_source"]) = some .directory := by
    have here := sources []
    rw [List.append_nil] at here
    rw [here]
    exact sound.parent _ "images" (by rw [List.append_assoc]; exact preparable.images ▸ rfl)
  refine ⟨between.copied (site.below ["partial_source"]) (site.below ["autogenerated_source"]), ?_, ?_,
    Tree.distinct_copied distinctBetween _ _, fun place => ?_⟩
  · rw [runOn_prepareFolder_eq, Script.runOn_bind, cleared, andThen_ok, Script.runOn_bind, copied, andThen_ok,
      runOn_copySources clear soundBetween source free]
  · refine Tree.sound_copied free soundBetween distinctBetween (by simp)
      ⟨site.start, "autogenerated_source", rfl, (relative_pages clear).named _ (by simp), ?_⟩
    exact soundBetween.above (List.cons_ne_nil _ _) (by rw [source]; rfl)
  · unfold prepared
    by_cases inPages : site.below ["autogenerated_source"] <+: place
    · obtain ⟨rest, rfl⟩ := inPages
      have away := site.not_below_names (by decide : ("partial_source" : Text) ≠ "autogenerated_source") [] []
      rw [if_pos (List.prefix_append _ _), Tree.get?_copied free soundBetween distinctBetween source (by simp) away,
        sources]
      simp
    · rw [if_neg inPages, Tree.get?_copied_apart distinctBetween inPages]
      by_cases inImages : site.below ["build", "_images"] <+: place
      · obtain ⟨rest, rfl⟩ := inImages
        rw [if_pos (List.prefix_append _ _), built, keeps _ _ (by decide)]
        simp
      · rw [if_neg inImages]
        by_cases here : place = site.below ["build"]
        · rw [if_pos here, here, folder]
        · rw [if_neg here, others place here inImages, same place inPages]

/-- A run that has made the folder found what it needs for it. -/
theorem preparable_of_run {tree after : Tree} (sound : tree.Sound) (start : tree.get? site.start = some .directory)
    (build : tree.get? (site.below ["build"]) = none)
    (run : prepareFolder.runOn site tree = (.ok (), after)) : Preparable site tree := by
  rw [runOn_prepareFolder_eq] at run
  obtain ⟨_, empty, cleared, run⟩ := Script.runOn_bind_ok run
  obtain ⟨_, between, copied, _⟩ := Script.runOn_bind_ok run
  obtain ⟨origin, found⟩ := find_of_copyDirectory copied
  obtain ⟨located, directory⟩ := Site.find_eq_ok_iff.mp found
  obtain rfl := (relative_images clear).eq_of_locate located
  have away := site.not_below_names (by decide : ("autogenerated_source" : Text) ≠ "partial_source") [] ["images"]
  have pages := (relative_pages clear).locate_name sound start
  unfold clearFolder at cleared
  rw [Script.runOn_bind, runOn_present, andThen_ok] at cleared
  -- the copy shows the images after the clearing, which takes away the folder of pages only
  cases seen : (site.find tree Pages.folder).toOption.isSome with
  | false =>
    rw [seen] at cleared
    cases cleared
    refine ⟨directory, .inl ?_, build⟩
    cases held : tree.get? (site.below ["autogenerated_source"]) with
    | none => rfl
    | some entry => rw [Site.find_eq_ok_iff.mpr ⟨pages, held⟩] at seen; cases seen
  | true =>
    rw [seen, if_pos rfl] at cleared
    obtain ⟨place, old, rfl⟩ := runOn_removeDirectory_ok cleared
    obtain ⟨here, held⟩ := Site.find_eq_ok_iff.mp old
    obtain rfl := (relative_pages clear).eq_of_locate here
    refine ⟨?_, .inr held, build⟩
    rw [Tree.get?_erase _ _ _ (by simp), if_neg fun inside => away (List.isPrefixOf_iff_prefix.mp inside)] at directory
    exact directory

end Build
end ApiDocs
