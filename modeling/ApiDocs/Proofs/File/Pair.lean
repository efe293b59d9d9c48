import ApiDocs.Proofs.File.Twin

/-! Two runs that remove and move entries. What has been taken away no longer counts for how the trees may
differ, and what has been moved differs in its new place as it did in the old one. -/

set_option autoImplicit false

namespace ApiDocs

namespace Tree

/-- The trees of two runs, wherever the runs began. -/
structure Paired (differ : Place → Bytes → Bytes → Prop) (tree other : Tree) : Prop where
  alike : tree.Alike differ other
  sound : tree.Sound
  distinct : tree.Distinct
  otherDistinct : other.Distinct

variable {differ differ' : Place → Bytes → Bytes → Prop} {writes : Place → Prop} {tree other : Tree}

theorem Paired.twin (paired : tree.Paired differ other) : Twin differ writes tree tree other :=
  ⟨paired.alike, .refl paired.sound paired.distinct, paired.otherDistinct⟩

theorem Twin.paired {base : Tree} (twin : Twin differ writes base tree other) : tree.Paired differ other :=
  ⟨twin.alike, twin.grown.sound, twin.grown.distinct, twin.distinct⟩

theorem Paired.erase (paired : tree.Paired differ other) {place : Place}
    (rest : ∀ spot first second, ¬place <+: spot → differ spot first second → differ' spot first second) :
    (tree.erase place).Paired differ' (other.erase place) where
  alike := by
    have same := paired.alike.shape
    refine ⟨⟨fun spot => ?_, fun spot => ?_⟩, fun spot first second held there => ?_⟩
    · by_cases root : spot = []
      · simp [root, get?]
      · rw [get?_erase _ _ _ root, get?_erase _ _ _ root]
        split
        · rfl
        · exact same.directory spot
    · by_cases root : spot = []
      · simp [root, get?]
      · rw [get?_erase _ _ _ root, get?_erase _ _ _ root]
        split
        · rfl
        · exact same.present spot
    · have root : spot ≠ [] := by rintro rfl; cases held
      rw [get?_erase _ _ _ root] at held there
      split at held
      · cases held
      · rename_i outside
        rw [if_neg outside] at there
        have away : ¬place <+: spot := fun below => outside (List.isPrefixOf_iff_prefix.mpr below)
        exact (paired.alike.files spot first second held there).imp_right (rest spot first second away)
  sound := paired.sound.erase place
  distinct := paired.distinct.erase place
  otherDistinct := paired.otherDistinct.erase place

theorem get?_graft_vacant (distinct : tree.Distinct) {source target : Place} (inner : source ≠ [])
    (vacant : ∀ rest, tree.get? (target ++ rest) = none) (rest : Place) :
    (tree.graft source target).get? (target ++ rest) = tree.get? (source ++ rest) := by
  have proper : target ++ rest ≠ [] := by
    intro root
    have held := vacant rest
    rw [root] at held
    cases held
  rw [get?_graft_below distinct inner target rest proper, vacant, Option.or_none]

theorem Sound.vacant_below (sound : tree.Sound) {target : Place} (vacant : tree.get? target = none) (rest : Place) :
    tree.get? (target ++ rest) = none := by
  cases rest with
  | nil => rw [List.append_nil, vacant]
  | cons name names =>
    cases held : tree.get? (target ++ name :: names) with
    | none => rfl
    | some entry =>
      have above := sound.above (List.cons_ne_nil name names) (by rw [held]; rfl)
      rw [vacant] at above
      cases above

theorem Paired.graft (paired : tree.Paired differ other) {source target : Place} (inner : source ≠ [])
    (vacant : tree.get? target = none)
    (proper : ∃ before name, target = before ++ [name] ∧ Path.Named name ∧ tree.get? before = some .directory) :
    (tree.graft source target).Paired
      (fun spot first second => differ spot first second ∨ ∃ rest, spot = target ++ rest ∧
        differ (source ++ rest) first second)
      (other.graft source target) where
  alike := by
    have same := paired.alike.shape
    have empty := paired.sound.vacant_below vacant
    have empty' : ∀ rest, other.get? (target ++ rest) = none := fun rest => same.absent (empty rest)
    -- both trees show in the target what they hold in the source, and the rest is as it was
    have cases_ : ∀ spot, (∃ rest, spot = target ++ rest) ∨ ¬target <+: spot := fun spot => by
      by_cases below : target <+: spot
      · exact .inl (below.imp fun rest eq => eq.symm)
      · exact .inr below
    refine ⟨⟨fun spot => ?_, fun spot => ?_⟩, fun spot first second held there => ?_⟩
    · rcases cases_ spot with ⟨rest, rfl⟩ | apart
      · rw [get?_graft_vacant paired.distinct inner empty, get?_graft_vacant paired.otherDistinct inner empty']
        exact same.directory _
      · rw [get?_graft_apart paired.distinct _ apart, get?_graft_apart paired.otherDistinct _ apart]
        exact same.directory spot
    · rcases cases_ spot with ⟨rest, rfl⟩ | apart
      · rw [get?_graft_vacant paired.distinct inner empty, get?_graft_vacant paired.otherDistinct inner empty']
        exact same.present _
      · rw [get?_graft_apart paired.distinct _ apart, get?_graft_apart paired.otherDistinct _ apart]
        exact same.present spot
    · rcases cases_ spot with ⟨rest, rfl⟩ | apart
      · rw [get?_graft_vacant paired.distinct inner empty] at held
        rw [get?_graft_vacant paired.otherDistinct inner empty'] at there
        exact (paired.alike.files _ first second held there).imp_right fun differs => .inr ⟨rest, rfl, differs⟩
      · rw [get?_graft_apart paired.distinct _ apart] at held
        rw [get?_graft_apart paired.otherDistinct _ apart] at there
        exact (paired.alike.files _ first second held there).imp_right .inl
  sound := paired.sound.graft paired.distinct inner
    (fun rest _ => paired.sound.vacant_below vacant rest) (.inr proper)
  distinct := paired.distinct.graft source target
  otherDistinct := paired.otherDistinct.graft source target

end Tree

namespace Script

variable {site : Site} {differ differ' : Place → Bytes → Bytes → Prop}

theorem Follows.paired {α β : Type} {related : α → β → Prop} {first : Script α} {second : Script β}
    (writes : Place → Prop)
    (each : ∀ base, Follows site (Tree.Twin differ writes base) (Tree.Twin differ writes base) related first second) :
    Follows site (Tree.Paired differ) (Tree.Paired differ) related first second := by
  intro tree other value after paired run
  obtain ⟨result, final, run', holds, twin⟩ := each tree tree other value after paired.twin run
  exact ⟨result, final, run', holds, twin.paired⟩

theorem Follows.anywhere {α β : Type} {related : α → β → Prop} {first : Script α} {second : Script β}
    (each : ∀ base, Follows site (Tree.Twin differ (fun _ => True) base) (Tree.Twin differ (fun _ => True) base)
      related first second) :
    Follows site (Tree.Paired differ) (Tree.Paired differ) related first second :=
  Follows.paired (fun _ => True) each

theorem follows_writeText_anywhere (path text : Text) :
    Follows site (Tree.Paired differ) (Tree.Paired differ) Eq (writeText path text) (writeText path text) :=
  Follows.anywhere fun _ => follows_writeText (fun _ _ _ => trivial) (fun plain => plain) (.inl rfl)

theorem follows_appendText_page
    (grows : ∀ place first second added, Place.IsPage place → differ place first second →
      differ place (first ++ added) (second ++ added)) {path : Text} (ends : (".rst" : Text) <:+ path) (text : Text) :
    Follows site (Tree.Paired differ) (Tree.Paired differ) Eq (appendText path text) (appendText path text) := by
  intro tree other value after paired run
  -- the file that is written to is no directory, so it is not the root
  have page : ∀ place, site.Leads Place.IsPage tree path place → place ≠ [] → place.IsPage := by
    rintro place ⟨grown, _, located⟩ inner
    exact (Site.isPage_of_locate ends located).resolve_left inner
  have follows : Follows site (Tree.Twin differ Place.IsPage tree) (Tree.Twin differ Place.IsPage tree) Eq
      (appendText path text) (appendText path text) := by
    apply follows_appendText page (fun plain => plain)
    rintro place left right _ inside (rfl | differs)
    · exact .inl rfl
    · exact .inr (grows place left right _ inside differs)
  obtain ⟨result, final, run', same, twin⟩ := follows tree other value after paired.twin run
  exact ⟨result, final, run', same, twin.paired⟩

theorem runOn_removeDirectory_ok {path : Text} {tree after : Tree}
    (run : (removeDirectory path).runOn site tree = (.ok (), after)) :
    ∃ place, site.find tree path = .ok (place, .directory) ∧ after = tree.erase place := by
  simp only [removeDirectory, runOn_bind, runOn_inspect] at run
  unfold directoryPlace at run
  cases found : site.find tree path with
  | error refusal => rw [found] at run; cases run
  | ok pair =>
    obtain ⟨place, entry⟩ := pair
    rw [found] at run
    cases entry with
    | file bytes => cases run
    | directory =>
      cases run
      exact ⟨place, rfl, rfl⟩

theorem runOn_removeDirectory_of {path : Text} {tree : Tree} {place : Place}
    (found : site.find tree path = .ok (place, .directory)) :
    (removeDirectory path).runOn site tree = (.ok (), tree.erase place) := by
  simp only [removeDirectory, runOn_bind, runOn_inspect, directoryPlace, found]
  rfl

theorem follows_removeDirectory {path : Text}
    (rest : ∀ tree place, site.locate tree path = .ok place → ∀ spot first second, ¬place <+: spot →
      differ spot first second → differ' spot first second) :
    Follows site (Tree.Paired differ) (Tree.Paired differ') Eq (removeDirectory path) (removeDirectory path) := by
  intro tree other value after paired run
  obtain ⟨place, found, rfl⟩ := runOn_removeDirectory_ok run
  have again := ((find_shape paired.alike.shape path).1 place).mp found
  refine ⟨(), _, runOn_removeDirectory_of again, rfl, paired.erase ?_⟩
  exact rest tree place (Site.find_eq_ok_iff.mp found).1

theorem follows_removeFile {path : Text}
    (rest : ∀ tree place, site.locate tree path = .ok place → ∀ spot first second, ¬place <+: spot →
      differ spot first second → differ' spot first second) :
    Follows site (Tree.Paired differ) (Tree.Paired differ') Eq (removeFile path) (removeFile path) := by
  intro tree other value after paired run
  have same := paired.alike.shape
  simp only [removeFile, runOn_bind, runOn_inspect] at run
  cases found : site.find tree path with
  | error refusal => rw [found] at run; cases run
  | ok pair =>
    obtain ⟨place, entry⟩ := pair
    rw [found] at run
    cases entry with
    | directory => cases run
    | file bytes =>
      cases run
      obtain ⟨located, held⟩ := Site.find_eq_ok_iff.mp found
      obtain ⟨more, there⟩ := same.file held
      have again : site.find other path = .ok (place, .file more) :=
        Site.find_eq_ok_iff.mpr ⟨site.locate_shape same path ▸ located, there⟩
      refine ⟨(), other.erase place, ?_, rfl, paired.erase (rest tree place located)⟩
      simp only [removeFile, runOn_bind, runOn_inspect, again]
      rfl

/-- What moving does: the target is vacant, and the entries of the source are then found there. -/
theorem runOn_moveInto_ok {source directory : Text} {tree after : Tree}
    (run : (moveInto source directory).runOn site tree = (.ok (), after)) :
    ∃ origin destination, (∃ entry, site.find tree source = .ok (origin, entry)) ∧
      site.locate tree (Path.join directory (Path.base (Path.dropSlashes source))) = .ok destination ∧
      tree.get? destination = none ∧ after = (tree.graft origin destination).erase origin := by
  unfold moveInto at run
  rw [runOn_bind, runOn_present, andThen_ok] at run
  cases seen : (site.find tree (Path.join directory (Path.base (Path.dropSlashes source)))).toOption.isSome with
  | true => rw [seen] at run; cases run
  | false =>
    rw [seen] at run
    obtain ⟨⟨origin, entry⟩, between, first, run⟩ := runOn_bind_ok run
    rw [runOn_inspect] at first
    cases found : site.find tree source with
    | error refusal => rw [found] at first; cases first
    | ok pair =>
      rw [found] at first
      cases first
      obtain ⟨destination, between, first, run⟩ := runOn_bind_ok run
      rw [runOn_inspect] at first
      cases located : site.locate tree (Path.join directory (Path.base (Path.dropSlashes source))) with
      | error refusal => rw [located] at first; cases first
      | ok place =>
        rw [located] at first
        cases first
        cases run
        refine ⟨origin, destination, ⟨entry, rfl⟩, rfl, ?_, rfl⟩
        cases held : tree.get? destination with
        | none => rfl
        | some other => rw [Site.find_eq_ok_iff.mpr ⟨located, held⟩] at seen; cases seen

theorem runOn_moveInto_of {source directory : Text} {tree : Tree} {origin destination : Place} {entry : Entry}
    (found : site.find tree source = .ok (origin, entry))
    (located : site.locate tree (Path.join directory (Path.base (Path.dropSlashes source))) = .ok destination)
    (vacant : tree.get? destination = none) :
    (moveInto source directory).runOn site tree = (.ok (), (tree.graft origin destination).erase origin) := by
  have missing : (site.find tree (Path.join directory (Path.base (Path.dropSlashes source)))).toOption.isSome =
      false := by
    simp only [Site.find, located, vacant, bind, Except.bind]
    rfl
  unfold moveInto
  rw [runOn_bind, runOn_present, andThen_ok, missing]
  rw [show ∀ α β : Script Unit, (if false = true then α else β) = β from fun _ _ => rfl]
  rw [runOn_bind, runOn_inspect, found]
  simp only [Except.mapError, andThen_ok, runOn_bind, runOn_inspect, located, runOn_modify]

theorem follows_moveInto {source directory : Text}
    (inner : ∀ tree origin, site.locate tree source = .ok origin → origin ≠ [])
    (moved : ∀ tree origin destination, site.locate tree source = .ok origin →
      site.locate tree (Path.join directory (Path.base (Path.dropSlashes source))) = .ok destination →
      (∀ spot first second, ¬origin <+: spot → differ spot first second → differ' spot first second) ∧
      ∀ rest first second, differ (origin ++ rest) first second → differ' (destination ++ rest) first second) :
    Follows site (Tree.Paired differ) (Tree.Paired differ') Eq (moveInto source directory)
      (moveInto source directory) := by
  intro tree other value after paired run
  obtain ⟨origin, destination, ⟨entry, found⟩, located, vacant, rfl⟩ := runOn_moveInto_ok run
  have same := paired.alike.shape
  obtain ⟨found, held⟩ := Site.find_eq_ok_iff.mp found
  have present : (other.get? origin).isSome = true := by rw [← same.present, held]; rfl
  obtain ⟨entry', held'⟩ := Option.isSome_iff_exists.mp present
  have proper := (Site.locate_cases paired.sound located).resolve_left (by rw [vacant]; intro eq; cases eq)
  refine ⟨(), _, runOn_moveInto_of (Site.find_eq_ok_iff.mpr ⟨site.locate_shape same source ▸ found, held'⟩)
    (site.locate_shape same _ ▸ located) (same.absent vacant), rfl, ?_⟩
  obtain ⟨old, new⟩ := moved tree origin destination found located
  apply (paired.graft (inner tree origin found) vacant proper).erase
  rintro spot first second away (stays | ⟨rest, rfl, differs⟩)
  · exact old spot first second away stays
  · exact new rest first second differs

end Script
end ApiDocs
