import ApiDocs.Proofs.StubGathering

/-! Stubs gathered in a second run. The walk through the library comes to the same directories and modules, with the
files of stubs of the first run besides, which it passes over; so each file of stubs gets the sections again that it
got in the first run. -/

set_option autoImplicit false

namespace ApiDocs.Stub

open Script ApiDocs.Module

theorem Together.mono {lib : Place} {base other tree counterpart : Tree} {listed fewer : Text → Prop}
    (together : Together lib base other listed tree counterpart) (within : ∀ kind, fewer kind → listed kind) :
    Together lib base other fewer tree counterpart := by
  obtain ⟨added, sections, left, right, present⟩ := together
  exact ⟨added, sections, left, right, fun kind member shown => present kind member (within kind shown)⟩

theorem Together.listing {lib : Place} {base other tree counterpart : Tree} {listed : Text → Prop}
    (together : Together lib base other listed tree counterpart) :
    Together lib base other (fun kind => listed kind ∨ (counterpart.get? (stubPlace lib kind)).isSome = true)
      tree counterpart := by
  obtain ⟨added, sections, left, right, present⟩ := together
  exact ⟨added, sections, left, right, fun kind member shown => shown.elim (present kind member) id⟩

theorem isStub_snoc {lib front : Place} {name : Text} (stub : isStub lib (front ++ [name]) = true) :
    ∃ kind ∈ kinds, front = lib ++ [kind] ∧ name = stubName kind := by
  obtain ⟨kind, member, eq⟩ := isStub_iff.mp stub
  have cut : front ++ [name] = lib ++ [kind] ++ [stubName kind] := by rw [eq, stubPlace]; simp
  obtain ⟨above, last⟩ := List.append_inj' cut rfl
  exact ⟨kind, member, above, List.singleton_inj.mp last⟩

theorem runOn_gatherUpTo_of {site : Site} {settings : Settings} {depth : Nat} {directory : Text}
    {tree lower after : Tree} {place : Place} (located : site.locate tree directory = .ok place)
    (held : tree.get? place = some .directory)
    (inner : ((innerDirectories site tree (entryPaths site tree directory place)).forM fun inner =>
      if !(skippedDirectories settings).contains inner then gatherUpTo settings depth inner else pure ()).runOn site
        tree =
        (.ok (), lower))
    (modules : (((entryPaths site tree directory place).filter isModule).forM
      (appendModule (locate settings directory))).runOn
      site lower = (.ok (), after)) :
    (gatherUpTo settings (depth + 1) directory).runOn site tree = (.ok (), after) := by
  unfold gatherUpTo
  rw [Script.runOn_bind, runOn_names located held, andThen_ok, Script.runOn_bind, runOn_directories, andThen_ok,
    Script.runOn_bind]
  exact (congrArg (fun outcome => andThen outcome _ site) inner).trans modules

section
variable {site : Site} (placed : site.Sound) {settings : Settings} {lib : Place} {base other : Tree}
  (comparable : Comparable lib base other) {listed : Text → Prop}
include comparable

section
variable {tree counterpart : Tree} (together : Together lib base other listed tree counterpart)
include together

theorem Together.locate_iff {path : Text} {place : Place} :
    site.locate tree path = .ok place ↔ site.locate counterpart path = .ok place :=
  ⟨Together.locate comparable together,
    Site.locate_keeps fun place held => (Together.directory comparable together place).mpr held⟩

theorem Together.isDirectory (path : Text) :
    ((Script.isDirectory path).runOn site tree).1 = ((Script.isDirectory path).runOn site counterpart).1 := by
  obtain ⟨answer, run, seen⟩ := runOn_isDirectory site tree path
  obtain ⟨answer', run', seen'⟩ := runOn_isDirectory site counterpart path
  have agree : answer = answer' := by
    rw [Bool.eq_iff_iff, seen, seen']
    refine exists_congr fun place => ?_
    rw [Site.find_eq_ok_iff, Site.find_eq_ok_iff, Together.locate_iff comparable together,
      Together.directory comparable together]
  rw [run, run', agree]

theorem Together.root_directory (place : Place) :
    tree.get? place = some .directory ↔ base.get? place = some .directory := by
  obtain ⟨added, _, left, _, _⟩ := together
  exact left.directory comparable.files place

theorem Together.present {place : Place} (stub : isStub lib place = false) :
    (tree.get? place).isSome = (counterpart.get? place).isSome := by
  obtain ⟨left, right⟩ := Together.others comparable together stub
  rw [left, right]

theorem Together.named (sound : base.Sound) {front : Place} {name : Text}
    (present : (tree.get? (front ++ [name])).isSome = true ∨ (counterpart.get? (front ++ [name])).isSome = true) :
    Path.Named name := by
  cases stub : isStub lib (front ++ [name]) with
  | true =>
    obtain ⟨kind, member, _, rfl⟩ := isStub_snoc stub
    exact named_stubName member
  | false =>
    obtain ⟨left, right⟩ := Together.others comparable together stub
    rw [left, right] at present
    exact sound.named _ _ (present.elim id id)

theorem Together.listed_iff {place : Place} {name : Text} (stub : isStub lib (place ++ [name]) = false) :
    name ∈ site.arrange place (tree.names place) ↔ name ∈ site.arrange place (counterpart.names place) := by
  rw [(site.arrange_perm place _).mem_iff, (site.arrange_perm place _).mem_iff, Tree.mem_names, Tree.mem_names,
    Together.present comparable together stub]

theorem Together.filter_names {place : Place} {test : Text → Bool}
    (silent : ∀ name, isStub lib (place ++ [name]) = true → test name = false) :
    (Text.sort (site.arrange place (tree.names place))).filter test =
      (Text.sort (site.arrange place (counterpart.names place))).filter test := by
  apply Text.sort_filter_congr
  · exact (site.arrange_perm place _).nodup_iff.mpr (Tree.names_nodup _ _)
  · exact (site.arrange_perm place _).nodup_iff.mpr (Tree.names_nodup _ _)
  · intro name tested
    cases stub : isStub lib (place ++ [name]) with
    | false => exact Together.listed_iff comparable together stub
    | true => rw [silent name stub] at tested; cases tested

include placed

theorem Together.innerDirectories {directory : Text} {place : Place} (located : site.locate tree directory = .ok place)
    (held : tree.get? place = some .directory) :
    innerDirectories site tree (entryPaths site tree directory place) =
      innerDirectories site counterpart (entryPaths site counterpart directory place) := by
  unfold Module.innerDirectories entryPaths
  simp only [Together.isDirectory comparable together]
  rw [List.filter_map, List.filter_map]
  apply congrArg
  apply Together.filter_names comparable together
  intro name stub
  -- stubs are files
  obtain ⟨kind, member, above, rfl⟩ := isStub_snoc stub
  have file : counterpart.get? (place ++ [stubName kind]) ≠ some .directory := by
    rw [above, List.append_assoc]
    intro directory
    obtain ⟨added, _, _, right, _⟩ := together
    exact comparable.otherFiles kind member ((right.directory comparable.otherFiles _).mp directory)
  have answer := runOn_isDirectory_join placed (named_stubName member) (Together.locate comparable together located)
    ((Together.directory comparable together place).mp held)
  simp only [Function.comp_apply, answer, file, false_and, decide_false]
  rfl

theorem Together.find_listed {kind : Text} (known : kind ∈ kinds) (shown : listed kind)
    (short : Path.size (stubsPath settings kind) ≤ Path.pathLimit)
    (there : site.locate counterpart (Path.walked settings.library [kind]) = .ok (lib ++ [kind]))
    (held : counterpart.get? (lib ++ [kind]) = some .directory) :
    ∃ bytes, site.find counterpart (Path.join (Path.walked settings.library [kind]) (stubName kind)) =
      .ok (stubPlace lib kind, .file bytes) := by
  have further := Site.locate_join placed (named_stubName known) there held short
  rw [List.append_assoc] at further
  obtain ⟨added, _, _, right, still⟩ := together
  obtain ⟨entry, inside⟩ := Option.isSome_iff_exists.mp (still kind known shown)
  cases entry with
  | file bytes => exact ⟨bytes, Site.find_eq_ok_iff.mpr ⟨further, inside⟩⟩
  | directory => exact absurd ((right.directory comparable.otherFiles _).mp inside) (comparable.otherFiles kind known)

end

variable (flat : Flat settings lib base) (located : site.locate base settings.library = .ok lib) (sound : base.Sound)
  (short : ∀ kind ∈ kinds, Path.size (stubsPath settings kind) ≤ Path.pathLimit)
include placed flat located sound short

theorem follows_appendModules {names : Place} (named : ∀ name ∈ names, Path.Named name)
    (visited : Visited settings names) {tree counterpart : Tree}
    (together : Together lib base other listed tree counterpart)
    (there : site.locate tree (Path.walked settings.library names) = .ok (lib ++ names))
    (held : tree.get? (lib ++ names) = some .directory)
    (shown : ∀ kind ∈ kinds, (counterpart.get? (stubPlace lib kind)).isSome = true → listed kind) :
    Follows site (Together lib base other listed) (Together lib base other listed) Eq
      (((entryPaths site tree (Path.walked settings.library names) (lib ++ names)).filter isModule).forM
        (appendModule (locate settings (Path.walked settings.library names))))
      (((entryPaths site counterpart (Path.walked settings.library names) (lib ++ names)).filter isModule).forM
        (appendModule (locate settings (Path.walked settings.library names)))) := by
  unfold entryPaths
  rw [List.filter_map, List.filter_map, Script.forM_map, Script.forM_map]
  have same : ((Text.sort (site.arrange (lib ++ names) (tree.names (lib ++ names)))).filter
        (isModule ∘ Path.join (Path.walked settings.library names))).filter
          (fun name => !isStub lib (lib ++ names ++ [name])) =
      ((Text.sort (site.arrange (lib ++ names) (counterpart.names (lib ++ names)))).filter
        (isModule ∘ Path.join (Path.walked settings.library names))).filter
          (fun name => !isStub lib (lib ++ names ++ [name])) := by
    rw [List.filter_filter, List.filter_filter]
    exact Together.filter_names comparable together fun name stub => by simp only [stub, Bool.not_true, Bool.false_and]
  have present : ∀ {tree : Tree} {name : Text},
    name ∈ (Text.sort (site.arrange (lib ++ names) (tree.names (lib ++ names)))).filter
      (isModule ∘ Path.join (Path.walked settings.library names)) →
        (tree.get? (lib ++ names ++ [name])).isSome = true := by
    intro tree name member
    have listed := (Text.sort_perm _).mem_iff.mp (List.mem_filter.mp member).1
    exact Tree.mem_names.mp ((site.arrange_perm _ _).mem_iff.mp listed)
  refine Follows.forM_filter same (fun name member tested => ?_) (fun name member tested => ?_)
    (fun name member tested => ?_)
  · have new := Together.named comparable together sound (.inl (present member))
    exact follows_appendModule placed comparable flat located named new visited
      (by simpa only [Bool.not_eq_true'] using tested)
      (List.mem_filter.mp member).2
  · -- the first run has read the stubs and found no method in them
    obtain ⟨kind, known, above, rfl⟩ := isStub_snoc (by simpa only [Bool.not_eq_false'] using tested)
    obtain rfl : names = [kind] := List.append_cancel_left above
    intro tree counterpart after together run
    obtain ⟨text, between, first, _⟩ := runOn_bind_ok run
    obtain ⟨rfl, place, bytes, found, rfl⟩ := runOn_readLenient_ok site tree first
    have deeper : ∀ name ∈ [kind, stubName kind], Path.Named name := by
      intro name member
      rcases List.mem_cons.mp member with rfl | last
      · exact named _ List.mem_cons_self
      · rw [List.mem_singleton.mp last]
        exact named_stubName known
    obtain ⟨further, file⟩ := Site.find_eq_ok_iff.mp found
    have spot : place = stubPlace lib kind := Together.place placed comparable located together deeper further
    have quiet : Quiet bytes := Together.quiet comparable together known (.inl (spot ▸ file))
    rw [runOn_appendModule_quiet found quiet] at run
    cases run
    exact together
  · -- the second run can read the stubs that it has listed
    obtain ⟨kind, known, above, rfl⟩ := isStub_snoc (by simpa only [Bool.not_eq_false'] using tested)
    obtain rfl : names = [kind] := List.append_cancel_left above
    have listedKind : listed kind := shown kind known (by
      have here := present member
      rwa [List.append_assoc] at here)
    intro tree' counterpart' together'
    have there' : site.locate counterpart' (Path.walked settings.library [kind]) = .ok (lib ++ [kind]) :=
      Together.locate comparable together'
        ((Together.root comparable together').mpr ((Together.root comparable together).mp there))
    have held' : counterpart'.get? (lib ++ [kind]) = some .directory :=
      (Together.directory comparable together' _).mp ((Together.root_directory comparable together' _).mpr
        ((Together.root_directory comparable together _).mp held))
    obtain ⟨bytes, found⟩ := Together.find_listed placed comparable together' known listedKind
      (short kind known) there' held'
    have file := (Site.find_eq_ok_iff.mp found).2
    exact ⟨counterpart', runOn_appendModule_quiet found (Together.quiet comparable together' known (.inr file)) _,
      together'⟩

/-- The second run may go deeper: where the first one has come to an end, it comes to an end too. -/
theorem follows_gatherUpTo {depth further : Nat} (deep : depth ≤ further) {names : Place}
    (named : ∀ name ∈ names, Path.Named name) (visited : Visited settings names) :
    Follows site (Together lib base other listed) (Together lib base other listed) Eq
      (gatherUpTo settings depth (Path.walked settings.library names))
      (gatherUpTo settings further (Path.walked settings.library names)) := by
  induction depth generalizing further names listed with
  | zero => exact Follows.throw
  | succ depth ih =>
    obtain ⟨further, rfl⟩ : ∃ less, further = less + 1 := ⟨further - 1, by omega⟩
    -- the folders come first; stubs that they leave count as listed when the modules are appended
    intro tree counterpart value after together run
    obtain ⟨place, lower, there, directory, inner, modules⟩ := runOn_gatherUpTo_ok run
    obtain rfl : place = lib ++ names := Together.place placed comparable located together named there
    have listing := Together.listing together
    have loop : Follows site
        (Together lib base other fun kind => listed kind ∨ (counterpart.get? (stubPlace lib kind)).isSome = true)
        (Together lib base other fun kind => listed kind ∨ (counterpart.get? (stubPlace lib kind)).isSome = true) Eq
        ((innerDirectories site tree (entryPaths site tree (Path.walked settings.library names) (lib ++ names))).forM
          fun inner => if !(skippedDirectories settings).contains inner then gatherUpTo settings depth
            inner else pure ())
        ((innerDirectories site tree (entryPaths site tree (Path.walked settings.library names) (lib ++ names))).forM
          fun inner => if !(skippedDirectories settings).contains inner then gatherUpTo settings further
            inner else pure ()) := by
      refine Follows.forM fun path member => ?_
      obtain ⟨inside, kept⟩ := List.mem_filter.mp member
      obtain ⟨name, present, rfl⟩ := mem_entryPaths.mp inside
      have new := Together.named comparable together sound (.inl present)
      cases skipped : (skippedDirectories settings).contains (Path.join (Path.walked settings.library names) name) with
      | true => exact Follows.pure rfl
      | false =>
        rw [← Path.walked_snoc] at skipped kept ⊢
        rw [Bool.and_eq_true, Bool.not_eq_true'] at kept
        exact ih (Nat.le_of_succ_le_succ deep) (List.forall_mem_append.mpr ⟨named, List.forall_mem_singleton.mpr new⟩)
          (visited.snoc kept.2 skipped)
    obtain ⟨_, lower', inner', _, lowered⟩ := loop tree counterpart () lower listing inner
    rw [Together.innerDirectories placed comparable together there directory] at inner'
    obtain ⟨_, after', modules', _, ended⟩ :=
      follows_appendModules placed comparable flat located sound short named visited
      listing there directory (fun kind _ shown => .inr shown) lower lower' () after lowered modules
    refine ⟨(), after', ?_, rfl, ended.mono fun kind shown => .inl shown⟩
    exact runOn_gatherUpTo_of (Together.locate comparable together there)
      ((Together.directory comparable together _).mp directory) inner' modules'

theorem follows_gather {tree counterpart after : Tree} (together : Together lib base other listed tree counterpart)
    (taller : tree.height ≤ counterpart.height)
    (run : (gather settings settings.library).runOn site tree = (.ok (), after)) :
    ∃ final, (gather settings settings.library).runOn site counterpart = (.ok (), final) ∧
      Together lib base other listed after final := by
  have none : ∀ name ∈ ([] : Place), Path.Named name := fun name member => absurd member List.not_mem_nil
  rw [runOn_gather] at run
  obtain ⟨_, final, run', _, ended⟩ := follows_gatherUpTo placed comparable flat located sound short
    (Nat.add_le_add_right taller 2) none (visited_nil settings) tree counterpart () after together run
  exact ⟨final, (runOn_gather site counterpart settings settings.library).trans run', ended⟩

end

/-- Bytes that get the sections again in which they end. -/
def Regrown (first second : Bytes) : Prop :=
  ∃ added, Section added ∧ Utf8.bytesOf added <:+ first ∧ second = first ++ Utf8.bytesOf added

theorem regrown_refl (bytes : Bytes) : Regrown bytes bytes :=
  ⟨[], section_nil, List.nil_suffix, (List.append_nil bytes).symm⟩

theorem regrown_of_grown {entry : Option Entry} {added : Text} (part : Section added) {first second : Bytes}
    (held : grown entry added = some (.file first)) (again : grown (grown entry added) added = some (.file second)) :
    Regrown first second := by
  rw [held] at again
  unfold grown at held again
  split at again
  · cases again
    exact regrown_refl first
  · rename_i proper
    rw [if_neg proper] at held
    cases again
    refine ⟨added, part, ?_, rfl⟩
    split at held <;> cases held
    · exact List.suffix_append _ _
    · exact List.suffix_rfl

/-- A second run that has begun with the stubs of the first one has given each file of stubs its sections again. -/
theorem Together.alike {lib : Place} {base other tree counterpart : Tree} (comparable : Comparable lib base other)
    {listed : Text → Prop} (together : Together lib base other listed tree counterpart)
    (resumed : ∀ kind ∈ kinds, other.get? (stubPlace lib kind) = tree.get? (stubPlace lib kind)) :
    tree.Alike (fun place first second => isStub lib place = true ∧ Regrown first second) counterpart := by
  obtain ⟨added, sections, left, right, still⟩ := together
  have together : Together lib base other listed tree counterpart := ⟨added, sections, left, right, still⟩
  have stubs : ∀ kind ∈ kinds, counterpart.get? (stubPlace lib kind) =
      grown (grown (base.get? (stubPlace lib kind)) (added kind)) (added kind) := by
    intro kind member
    rw [right.stubs kind member, resumed kind member, left.stubs kind member]
  refine ⟨⟨Together.directory comparable together, fun place => ?_⟩, fun place first second held there => ?_⟩
  · cases stub : isStub lib place with
    | false => exact Together.present comparable together stub
    | true =>
      obtain ⟨kind, member, rfl⟩ := isStub_iff.mp stub
      rw [stubs kind member, left.stubs kind member]
      by_cases empty : added kind = []
      · rw [empty, grown_nil, grown_nil]
      · have filled : ∀ entry, (grown entry (added kind)).isSome = true := by
          intro entry
          unfold grown
          rw [if_neg empty]
          split <;> rfl
        rw [filled, filled]
  · cases stub : isStub lib place with
    | false =>
      obtain ⟨here, here'⟩ := Together.others comparable together stub
      rw [here] at held
      rw [here', held] at there
      cases there
      exact .inl rfl
    | true =>
      obtain ⟨kind, member, rfl⟩ := isStub_iff.mp stub
      rw [left.stubs kind member] at held
      rw [stubs kind member] at there
      exact .inr ⟨rfl, regrown_of_grown (sections kind member) held there⟩

section
variable {site : Site} {tree after : Tree} (sound : tree.Sound)
include sound

theorem sound_appendModule {location : Module.Location} {path : Text}
    (run : (appendModule location path).runOn site tree = (.ok (), after)) : after.Sound := by
  obtain ⟨text, between, first, rest⟩ := runOn_bind_ok run
  obtain ⟨rfl, _⟩ := runOn_readLenient_ok site tree first
  split at rest
  · unfold append at rest
    split at rest
    · obtain ⟨_, place, bytes, found, rfl⟩ := runOn_appendPieces_ok site between rest
      have vacant := not_directory_of_writable found
      exact sound.put (fun directory => absurd directory vacant)
        (.inr ((Site.locate_cases sound (locate_of_writable found)).resolve_left vacant))
    · cases rest
      exact sound
  · cases rest
    exact sound

theorem sound_gatherUpTo {settings : Settings} {depth : Nat} {directory : Text}
    (run : (gatherUpTo settings depth directory).runOn site tree = (.ok (), after)) : after.Sound := by
  induction depth generalizing directory tree after with
  | zero => cases run
  | succ depth ih =>
    obtain ⟨place, lower, _, _, inner, modules⟩ := runOn_gatherUpTo_ok run
    have lowered : lower.Sound := by
      refine (rounds_forM inner).keeps Tree.Sound sound fun path _ tree after sound run => ?_
      split at run
      · exact ih sound run
      · cases run
        exact sound
    exact (rounds_forM modules).keeps Tree.Sound lowered fun path _ tree after sound run => sound_appendModule sound run

theorem sound_gather {settings : Settings} {directory : Text}
    (run : (gather settings directory).runOn site tree = (.ok (), after)) : after.Sound := by
  rw [runOn_gather] at run
  exact sound_gatherUpTo sound run

end

end ApiDocs.Stub
