import ApiDocs.Proofs.File.Rounds
import ApiDocs.Proofs.File.Relative
import ApiDocs.Proofs.Module.Location
import ApiDocs.Stub

/-! Where stubs come to lie. The section of a module goes to the file of stubs beside the module, so the file that
is read for a data class gets the sections of the modules directly in the directory of the class. -/

set_option autoImplicit false

namespace ApiDocs.Stub

open Script Text ApiDocs.Module

def kinds : List Text := ["array", "container"]

def stubName (kind : Text) : Text := kind ++ "_methods.py"

def stubPlace (lib : Place) (kind : Text) : Place := lib ++ [kind, stubName kind]

def appendModule (location : Module.Location) (path : Text) : Script Unit := do
  let text ← readLenient path
  if Text.mentions "\n    def " text then append text path (location.dotted (location.depth path + 2) path)

theorem upTo_lastSlash {directory name : Text} (proper : directory ≠ []) (bare : directory.getLast? ≠ some (.char '/'))
    (named : Path.Named name) :
    Text.upTo (Path.join directory name) (Text.lastIndex "/" (Path.join directory name)) = directory := by
  have found : Text.lastIndex? "/" (directory ++ .char '/' :: name) = some directory.length := by
    apply Text.lastIndex?_append (by decide)
    · exact ⟨name, rfl⟩
    · intro inside
      exact named.noSlash (inside.subset (List.mem_singleton_self _))
  rw [Path.join_open named.head? proper bare, Text.lastIndex, found]
  simp [Text.signed, Text.upTo]

def dottedName (settings : Settings) (names : Place) (name : Text) : Text :=
  let location := Module.locate settings (Path.walked settings.library names)
  let path := Path.join (Path.walked settings.library names) name
  location.dotted (location.depth path + 2) path

theorem length_of_isModule {front rest : Text} (module : isModule (front ++ .char '/' :: rest) = true) :
    3 ≤ rest.length := by
  refine Nat.le_of_not_lt fun short => ?_
  have ending : since (front ++ .char '/' :: rest) (-3) = ".py" := by
    rw [isModule, Bool.and_eq_true] at module
    exact eq_of_beq module.1
  have late : bound (front ++ .char '/' :: rest).length (-3) ≤ front.length := by
    simp only [bound, List.length_append, List.length_cons]
    split <;> omega
  have inside : .char '/' ∈ since (front ++ .char '/' :: rest) (-3) := by
    rw [since, List.drop_append_of_le_length late]
    exact List.mem_append_right _ List.mem_cons_self
  rw [ending] at inside
  exact absurd inside (by decide)

/-- A module below a directory of the library has the directory's name between dots in its dotted name. -/
theorem mentions_dottedName {settings : Settings} (rooted : Path.base settings.library ≠ []) {kind : Text}
    {deeper : Place} {name : Text} (named : ∀ other ∈ kind :: deeper ++ [name], Path.Named other)
    (module : isModule (Path.join (Path.walked settings.library (kind :: deeper)) name) = true) :
    mentions ("." ++ kind ++ ".") (dottedName settings (kind :: deeper) name) = true := by
  obtain ⟨_, _, free⟩ := Path.base_suffix settings.library
  obtain ⟨proper, bare⟩ := Path.open_of_base rooted
  have slashless : .char '/' ∉ kind := (named kind (by simp)).noSlash
  -- the path has the directory's name between slashes, and more than the ending after that
  obtain ⟨rest, further⟩ : ∃ rest, (deeper ++ [name]).flatMap (.char '/' :: ·) = .char '/' :: rest := by
    cases deeper with
    | nil => exact ⟨name, by simp⟩
    | cons next deeper => exact ⟨_, rfl⟩
  have path : Path.join (Path.walked settings.library (kind :: deeper)) name =
      settings.library ++ .char '/' :: kind ++ .char '/' :: rest := by
    rw [← Path.walked_snoc, Path.walked_eq proper bare named, List.cons_append, List.flatMap_cons, further,
      List.append_assoc]
  have directory : Path.walked settings.library (kind :: deeper) =
      settings.library ++ (kind :: deeper).flatMap (.char '/' :: ·) :=
    Path.walked_eq proper bare fun other member => named other (List.mem_append_left _ member)
  obtain ⟨start, found, early, location⟩ := locate_start rooted
  have long : 3 ≤ rest.length := length_of_isModule (path ▸ module)
  have sliced : slice (settings.library ++ .char '/' :: kind ++ .char '/' :: rest) start (-3) =
      settings.library.drop start ++ .char '/' :: (kind ++ .char '/' :: rest.take (rest.length - 3)) := by
    have begin : start ≤ settings.library.length := by omega
    have regroup : settings.library ++ .char '/' :: kind ++ .char '/' :: rest =
        (settings.library ++ .char '/' :: (kind ++ [.char '/'])) ++ rest := by simp
    rw [regroup]
    have cut : slice ((settings.library ++ .char '/' :: (kind ++ [.char '/'])) ++ rest) start (-((3 : Nat) : Int)) =
        _ :=
      slice_append (by rw [List.length_append]; omega) (by decide) long
    refine cut.trans ?_
    rw [List.drop_append_of_le_length begin]
    simp
  rw [dottedName, directory, location, ← directory, path, Location.dotted_all, sliced]
  · have pieces : split "/" (settings.library.drop start ++
      .char '/' :: (kind ++ .char '/' :: rest.take (rest.length - 3))) =
        split "/" (settings.library.drop start) ++ kind :: split "/" (rest.take (rest.length - 3)) := by
      have outer := split_append (.char '/') (settings.library.drop start)
        (kind ++ .char '/' :: rest.take (rest.length - 3))
      rw [split_append (.char '/') kind, split_free slashless] at outer
      exact outer
    rw [pieces]
    exact mentions_iff.mpr (infix_join "." (splitSkipping_ne_nil _ _ _) (splitSkipping_ne_nil _ _ _) kind)
  · have stands : StandsAt (Path.base settings.library) (settings.library ++ .char '/' :: kind ++ .char '/' :: rest)
        start := by
      rw [List.append_assoc]
      exact (index?_eq_some_iff.mp found).1.append _ (by omega)
    exact Nat.le_succ_of_le (Nat.succ_le_succ (count_slice stands free))

theorem stubName_of_fileName? {dotted file : Text} (target : fileName? dotted = some file) :
    ∃ kind ∈ kinds, file = stubName kind := by
  unfold fileName? at target
  split at target
  · cases target
    exact ⟨"array", List.mem_cons_self, rfl⟩
  · split at target
    · cases target
      exact ⟨"container", List.mem_cons_of_mem _ List.mem_cons_self, rfl⟩
    · cases target

theorem named_stubName {kind : Text} (member : kind ∈ kinds) : Path.Named (stubName kind) := by
  simp only [kinds, List.mem_cons, List.not_mem_nil, or_false] at member
  rcases member with rfl | rfl <;> exact Path.named_of_isNamed (by decide)

/-- A tree to whose files of stubs something has been appended. -/
structure Extended (base tree : Tree) : Prop where
  directory : ∀ place, tree.get? place = some .directory ↔ base.get? place = some .directory
  kept : ∀ place bytes, base.get? place = some (.file bytes) → ∃ more, tree.get? place = some (.file (bytes ++ more))
  others : ∀ front name, (∀ kind ∈ kinds, name ≠ stubName kind) →
    tree.get? (front ++ [name]) = base.get? (front ++ [name])

theorem Extended.refl (tree : Tree) : Extended tree tree :=
  ⟨fun _ => .rfl, fun _ bytes held => ⟨[], by rwa [List.append_nil]⟩, fun _ _ _ => rfl⟩

theorem Extended.put {base tree : Tree} (extended : Extended base tree) {front : Place} {kind : Text}
    (member : kind ∈ kinds) {bytes : Bytes} (added : Bytes)
    (held : tree.get? (front ++ [stubName kind]) = some (.file bytes) ∨
      tree.get? (front ++ [stubName kind]) = none ∧ bytes = []) :
    Extended base (tree.put (front ++ [stubName kind]) (.file (bytes ++ added))) := by
  have vacant : tree.get? (front ++ [stubName kind]) ≠ some .directory := by
    rcases held with held | ⟨held, _⟩ <;> rw [held] <;> simp
  have new := Tree.get?_put_self (.file (bytes ++ added)) vacant
  constructor
  · intro place
    rw [← extended.directory place]
    by_cases same : front ++ [stubName kind] = place
    · subst same
      rw [new]
      exact ⟨fun eq => (nomatch eq), fun eq => absurd eq vacant⟩
    · rw [Tree.get?_put_apart _ _ same]
  · intro place old there
    obtain ⟨more, now⟩ := extended.kept place old there
    by_cases same : front ++ [stubName kind] = place
    · subst same
      rw [now] at held
      rcases held with eq | ⟨eq, _⟩
      · cases eq
        exact ⟨more ++ added, by rw [new, List.append_assoc]⟩
      · cases eq
    · exact ⟨more, by rw [Tree.get?_put_apart _ _ same, now]⟩
  · intro front' name proper
    have apart : front ++ [stubName kind] ≠ front' ++ [name] := fun same =>
      proper kind member (List.cons.inj (List.append_inj_right' same rfl)).1.symm
    rw [Tree.get?_put_apart _ _ apart]
    exact extended.others front' name proper

section
variable {site : Site} {base tree after : Tree} (extended : Extended base tree)
include extended

theorem Extended.append {text path dotted : Text} (run : (append text path dotted).runOn site tree = (.ok (), after)) :
    Extended base after := by
  unfold Stub.append at run
  cases target : fileName? dotted with
  | none =>
    rw [target] at run
    cases run
    exact extended
  | some file =>
    rw [target] at run
    obtain ⟨kind, member, rfl⟩ := stubName_of_fileName? target
    obtain ⟨_, place, bytes, found, rfl⟩ := runOn_appendPieces_ok site tree run
    obtain ⟨_, located, held⟩ := writable_eq_ok_iff.mp found
    rcases Site.locate_join_last (named_stubName member) located with rfl | ⟨front, rfl⟩
    · rw [Tree.get?_root] at held
      rcases held with eq | ⟨eq, _⟩ <;> cases eq
    · exact extended.put member _ held

theorem Extended.appendModule {location : Module.Location} {path : Text}
    (run : (appendModule location path).runOn site tree = (.ok (), after)) : Extended base after := by
  obtain ⟨text, between, first, rest⟩ := runOn_bind_ok run
  obtain ⟨rfl, _⟩ := runOn_readLenient_ok site tree first
  split at rest
  · exact extended.append rest
  · cases rest
    exact extended

end

theorem runOn_gather (site : Site) (tree : Tree) (settings : Settings) (directory : Text) :
    (gather settings directory).runOn site tree =
      (gatherUpTo settings (tree.height + 2) directory).runOn site tree := by
  rw [gather, Script.runOn_bind, runOn_get, andThen_ok]

theorem runOn_gatherUpTo_ok {site : Site} {settings : Settings} {depth : Nat} {directory : Text} {tree after : Tree}
    (run : (gatherUpTo settings (depth + 1) directory).runOn site tree = (.ok (), after)) :
    ∃ place lower, site.locate tree directory = .ok place ∧ tree.get? place = some .directory ∧
      ((innerDirectories site tree (entryPaths site tree directory place)).forM fun inner =>
        if !(skippedDirectories settings).contains inner then gatherUpTo settings depth inner else pure ()).runOn site
          tree =
          (.ok (), lower) ∧
      (((entryPaths site tree directory place).filter isModule).forM (appendModule (locate settings directory))).runOn
        site lower = (.ok (), after) := by
  obtain ⟨listing, _, listed, rest⟩ := runOn_bind_ok run
  obtain ⟨rfl, place, located, held, rfl⟩ := runOn_names_ok listed
  obtain ⟨directories, _, found, rest⟩ := runOn_bind_ok rest
  rw [Module.runOn_directories] at found
  cases found
  obtain ⟨_, lower, inner, rest⟩ := runOn_bind_ok rest
  exact ⟨place, lower, located, held, inner, rest⟩

theorem Extended.gatherUpTo {site : Site} {settings : Settings} {base : Tree} {depth : Nat} :
    ∀ {directory : Text} {tree after : Tree}, Extended base tree →
      (gatherUpTo settings depth directory).runOn site tree = (.ok (), after) → Extended base after := by
  induction depth with
  | zero => intro directory tree after extended run; cases run
  | succ depth ih =>
    intro directory tree after extended run
    obtain ⟨place, lower, _, _, inner, modules⟩ := runOn_gatherUpTo_ok run
    have below : Extended base lower := by
      refine (rounds_forM inner).keeps (Extended base) extended fun path _ tree after extended run => ?_
      split at run
      · exact ih extended run
      · cases run
        exact extended
    exact (rounds_forM modules).keeps (Extended base) below fun path _ tree after extended run =>
      extended.appendModule run

/-- A module whose section is due: gathering comes to it, and it is no file of stubs itself. -/
structure Due (settings : Settings) (names : Place) (name : Text) : Prop where
  visited : Visited settings names
  short : Path.size (Path.walked settings.library names) ≤ Path.pathLimit
  module : isModule (Path.join (Path.walked settings.library names) name) = true
  proper : ∀ kind ∈ kinds, name ≠ stubName kind

theorem Due.listed {site : Site} (placed : site.Sound) {settings : Settings} {lib : Place} {base tree : Tree}
    (sound : base.Sound) (extended : Extended base tree) {names deeper : Place} {new name : Text}
    (due : Due settings (names ++ new :: deeper) name)
    (present : (base.get? (lib ++ (names ++ new :: deeper ++ [name]))).isSome = true)
    (there : site.locate tree (Path.walked settings.library names) = .ok (lib ++ names))
    (inside : tree.get? (lib ++ names) = some .directory) :
    Path.walked settings.library (names ++ [new]) ∈
      innerDirectories site tree (entryPaths site tree (Path.walked settings.library names) (lib ++ names)) := by
  have named : ∀ other ∈ names ++ new :: deeper ++ [name], Path.Named other := sound.named_of_mem present
  have above : base.get? (lib ++ names ++ [new]) = some .directory := by
    refine sound.above (List.append_ne_nil_of_right_ne_nil deeper (List.cons_ne_nil name [])) ?_
    simpa using present
  rw [Path.walked_snoc]
  refine join_mem_innerDirectories placed (named new (by simp)) there ((extended.directory _).mpr above) inside ?_ ?_
  · -- its path is a part of one that is not too long
    have longer : _ ≤ Path.size (Path.walked (Path.walked settings.library (names ++ [new])) deeper) :=
      Path.size_le_walked _ fun other member => named other (by simp [member])
    have short := due.short
    rw [List.append_cons, Path.walked_append] at short
    rw [← Path.walked_snoc]
    exact Nat.le_trans longer short
  · rw [← Path.walked_snoc]
    exact (due.visited names new deeper rfl).1

/-- The section of a module is in the file of stubs beside it. -/
def Beside (site : Site) (settings : Settings) (lib : Place) (base tree : Tree) (names : Place) (name : Text) : Prop :=
  ∀ bytes file, base.get? (lib ++ names ++ [name]) = some (.file bytes) →
    mentions "\n    def " (unifyNewlines (Utf8.decodeLenient bytes)) = true →
    fileName? (dottedName settings names name) = some file →
    ∃ before later, site.find tree (Path.join (Path.walked settings.library names) file) =
      .ok (lib ++ names ++ [file], .file (before ++ Utf8.bytesOf
        (extract (dottedName settings names name) (unifyNewlines (Utf8.decodeLenient bytes))).flatten ++ later))

theorem Beside.extended {site : Site} {settings : Settings} {lib : Place} {base tree after : Tree} {names : Place}
    {name : Text} (beside : Beside site settings lib base tree names name) (extended : Extended tree after) :
    Beside site settings lib base after names name := by
  intro bytes file held methods target
  obtain ⟨before, later, there⟩ := beside bytes file held methods target
  obtain ⟨located, now⟩ := Site.find_eq_ok_iff.mp there
  obtain ⟨more, now⟩ := extended.kept _ _ now
  refine ⟨before, later ++ more, Site.find_eq_ok_iff.mpr ⟨?_, by rw [now, ← List.append_assoc]⟩⟩
  exact Site.locate_keeps (fun place => (extended.directory place).mpr) located

section
variable {site : Site} (placed : site.Sound) {settings : Settings} (rooted : Path.base settings.library ≠ [])
  {lib : Place} {base : Tree} (sound : base.Sound) (located : site.locate base settings.library = .ok lib)
include placed located

theorem Extended.place {tree : Tree} (extended : Extended base tree) {names : Place}
    (named : ∀ name ∈ names, Path.Named name) {place : Place}
    (there : site.locate tree (Path.walked settings.library names) = .ok place) : place = lib ++ names :=
  Site.locate_walked placed named (Site.locate_keeps (fun place => (extended.directory place).mpr) located) there

include rooted sound

theorem beside_appendModule {names : Place} {name : Text} (proper : ∀ kind ∈ kinds, name ≠ stubName kind)
    {tree after : Tree} (extended : Extended base tree)
    (run : (appendModule (locate settings (Path.walked settings.library names))
      (Path.join (Path.walked settings.library names) name)).runOn site tree = (.ok (), after)) :
    Beside site settings lib base after names name := by
  intro bytes file held methods target
  have present : (base.get? (lib ++ (names ++ [name]))).isSome = true := by rw [← List.append_assoc, held]; rfl
  have whole : ∀ other ∈ names ++ [name], Path.Named other := sound.named_of_mem present
  have named : ∀ other ∈ names, Path.Named other := fun other member => whole other (List.mem_append_left _ member)
  have new : Path.Named name := whole name (by simp)
  obtain ⟨text, between, first, rest⟩ := runOn_bind_ok run
  obtain ⟨rfl, place, read, found, rfl⟩ := runOn_readLenient_ok site tree first
  obtain ⟨there, file'⟩ := Site.find_eq_ok_iff.mp found
  -- what is read is the module as it was at first
  have spot : place = lib ++ names ++ [name] := by
    rw [List.append_assoc]
    exact extended.place placed located whole (by rw [Path.walked_snoc]; exact there)
  obtain rfl : read = bytes := by
    rw [spot, extended.others _ _ proper, held] at file'
    cases file'
    rfl
  rw [if_pos methods] at rest
  change (append _ _ (dottedName settings names name)).runOn site between = _ at rest
  unfold append at rest
  rw [target] at rest
  obtain ⟨kind, member, rfl⟩ := stubName_of_fileName? target
  obtain ⟨_, target', old, found', rfl⟩ := runOn_appendPieces_ok site between rest
  obtain ⟨open', bare⟩ := Path.open_of_base rooted
  obtain ⟨proper', bare'⟩ := Path.open_walked open' bare named
  rw [upTo_lastSlash proper' bare' new] at found'
  obtain ⟨_, there', _⟩ := writable_eq_ok_iff.mp found'
  have spot' : target' = lib ++ names ++ [stubName kind] := by
    rw [List.append_assoc]
    exact extended.place placed located
      (List.forall_mem_append.mpr ⟨named, List.forall_mem_singleton.mpr (named_stubName member)⟩)
        (by rw [Path.walked_snoc]; exact there')
  have vacant := not_directory_of_writable found'
  refine ⟨old, [], Site.find_eq_ok_iff.mpr ⟨?_, ?_⟩⟩
  · rw [← spot']
    exact Site.locate_keeps (Tree.keepsDirectories_put _ vacant) there'
  · rw [← spot', Tree.get?_put_self _ vacant, List.append_nil]

/-- Every section that is due below a directory is there after gathering from the directory. -/
theorem beside_gatherUpTo {depth : Nat} :
    ∀ {names : Place} {tree after : Tree}, Extended base tree →
      (gatherUpTo settings depth (Path.walked settings.library names)).runOn site tree = (.ok (), after) →
      ∀ deeper name, Due settings (names ++ deeper) name →
        Beside site settings lib base after (names ++ deeper) name := by
  induction depth with
  | zero => intro names tree after extended run; cases run
  | succ depth ih =>
    intro names tree after extended run deeper name due bytes file held methods target
    obtain ⟨place, lower, there, directory, inner, modules⟩ := runOn_gatherUpTo_ok run
    have present : (base.get? (lib ++ (names ++ deeper ++ [name]))).isSome = true := by
      rw [← List.append_assoc, held]
      rfl
    have named : ∀ other ∈ names ++ deeper ++ [name], Path.Named other := sound.named_of_mem present
    have spot : place = lib ++ names :=
      extended.place placed located (fun other member => named other (by simp [member])) there
    have inside : tree.get? (lib ++ names) = some .directory := spot ▸ directory
    -- one round appends or gathers the section, and the sections stay in the rounds after it
    have visit : ∀ inner tree after, (if !(skippedDirectories settings).contains inner then gatherUpTo
      settings depth inner
        else pure ()).runOn site tree = (.ok (), after) → ∀ base, Extended base tree → Extended base after := by
      intro inner tree after run base extended
      split at run
      · exact extended.gatherUpTo run
      · cases run
        exact extended
    have lowered : Extended base lower := (rounds_forM inner).keeps (Extended base) extended
      fun inner _ tree after extended run => visit inner tree after run base extended
    have raised : Extended lower after := (rounds_forM modules).keeps (Extended lower) (.refl lower)
      fun path _ tree after extended run => extended.appendModule run
    cases deeper with
    | nil =>
      rw [List.append_nil] at due held target present ⊢
      have ended := (rounds_forM modules).all (Extended base)
        (fun path tree => path = Path.join (Path.walked settings.library names) name →
          Beside site settings lib base tree names name)
        lowered
        (fun path _ tree after extended run => ⟨extended.appendModule run, fun same =>
          beside_appendModule placed rooted sound located due.proper extended (same ▸ run)⟩)
        (List.pairwise_of_forall fun path other tree after extended run beside same =>
          (beside same).extended ((Extended.refl tree).appendModule run))
      have listed : Path.join (Path.walked settings.library names) name ∈
          (entryPaths site tree (Path.walked settings.library names) place).filter isModule := by
        refine List.mem_filter.mpr ⟨mem_entryPaths.mpr ⟨name, ?_, rfl⟩, due.module⟩
        rw [spot, extended.others _ _ due.proper, held]
        rfl
      exact ended.2 _ listed rfl bytes file held methods target
    | cons new deeper =>
      have regroup : names ++ new :: deeper = names ++ [new] ++ deeper := by simp
      have ended := (rounds_forM inner).all (Extended base)
        (fun inner tree => inner = Path.walked settings.library (names ++ [new]) →
          Beside site settings lib base tree (names ++ new :: deeper) name)
        extended
        (fun inner _ tree after extended run => ⟨visit inner tree after run base extended, fun same => ?_⟩)
        (List.pairwise_of_forall fun inner other tree after extended run beside same =>
          (beside same).extended (visit other tree after run tree (.refl tree)))
      · have listed := due.listed placed sound extended present (spot ▸ there) inside
        rw [← spot] at listed
        exact (ended.2 _ listed rfl).extended raised bytes file held methods target
      · rw [same, (due.visited names new deeper rfl).2] at run
        rw [regroup] at due ⊢
        exact ih extended run deeper name due

end

/-- Below the directory of a data class, a module's stubs go with that class, or with the arrays if a directory on the
way is named like theirs. -/
theorem fileName?_below {settings : Settings} (rooted : Path.base settings.library ≠ []) {kind : Text}
    (member : kind ∈ kinds) {deeper : Place} {name : Text}
    (named : ∀ other ∈ kind :: deeper ++ [name], Path.Named other)
    (module : isModule (Path.join (Path.walked settings.library (kind :: deeper)) name) = true) :
    ∃ stubs ∈ kinds, fileName? (dottedName settings (kind :: deeper) name) = some (stubName stubs) ∧
      (stubs = kind ↔ kind = "array" ∨ mentions ".array." (dottedName settings (kind :: deeper) name) = false) := by
  have inside := mentions_dottedName rooted named module
  simp only [kinds, List.mem_cons, List.not_mem_nil, or_false] at member
  rcases member with rfl | rfl
  · have arrays : mentions ".array." (dottedName settings ("array" :: deeper) name) = true := inside
    exact ⟨"array", by simp [kinds], by rw [fileName?, arrays]; rfl, by simp⟩
  · have containers : mentions ".container." (dottedName settings ("container" :: deeper) name) = true := inside
    cases arrays : mentions ".array." (dottedName settings ("container" :: deeper) name) with
    | true => exact ⟨"array", by simp [kinds], by rw [fileName?, arrays]; rfl, fun same => .inl same.symm,
        fun either => either.elim Eq.symm fun free => nomatch free⟩
    | false => exact ⟨"container", by simp [kinds], by rw [fileName?, arrays, containers]; rfl, by simp⟩

def stubsPath (settings : Settings) (kind : Text) : Text := Path.join (Path.join settings.library kind) (stubName kind)

/-- After gathering, the section of every module with methods below the directory of a data class is in the file of
stubs of the module's own directory. That is the file that is read for the class exactly if the module lies directly in
the directory of the class, and, below the containers, no directory on the way is named like that of the arrays. -/
theorem gather_beside {site : Site} (placed : site.Sound) {settings : Settings}
    (root : Path.base settings.library = "ivy") {lib : Place} {tree after : Tree} (sound : tree.Sound)
    (located : site.locate tree settings.library = .ok lib)
    (run : (gather settings settings.library).runOn site tree = (.ok (), after))
    {kind : Text} (member : kind ∈ kinds) {deeper : Place} {name : Text} {bytes : Bytes}
    (due : Due settings (kind :: deeper) name)
    (held : tree.get? (lib ++ (kind :: deeper) ++ [name]) = some (.file bytes))
    (methods : mentions "\n    def " (unifyNewlines (Utf8.decodeLenient bytes)) = true) :
    ∃ stubs ∈ kinds, ∃ before later,
      site.find after (Path.join (Path.walked settings.library (kind :: deeper)) (stubName stubs)) =
        .ok (lib ++ (kind :: deeper) ++ [stubName stubs], .file (before ++ Utf8.bytesOf
          (extract (dottedName settings (kind :: deeper) name) (unifyNewlines (Utf8.decodeLenient bytes))).flatten ++
            later)) ∧
      (stubs = kind ↔ kind = "array" ∨ mentions ".array." (dottedName settings (kind :: deeper) name) = false) ∧
      (Path.join (Path.walked settings.library (kind :: deeper)) (stubName stubs) = stubsPath settings kind ↔
        deeper = [] ∧ stubs = kind) := by
  have rooted : Path.base settings.library ≠ [] := by rw [root]; decide
  have present : (tree.get? (lib ++ (kind :: deeper ++ [name]))).isSome = true := by
    rw [← List.append_assoc, held]
    rfl
  have named : ∀ other ∈ kind :: deeper ++ [name], Path.Named other := sound.named_of_mem present
  obtain ⟨stubs, known, target, agree⟩ := fileName?_below rooted member named due.module
  rw [runOn_gather, show settings.library = Path.walked settings.library [] from rfl] at run
  obtain ⟨before, later, there⟩ := beside_gatherUpTo placed rooted sound located (.refl tree) run
    (kind :: deeper) name due
    bytes (stubName stubs) held methods target
  refine ⟨stubs, known, before, later, there, agree, fun same => ?_, ?_⟩
  · -- both paths are followed from the library by proper names, so these are the same
    have longer : ∀ other ∈ kind :: deeper ++ [stubName stubs], Path.Named other := by
      intro other inside
      rcases List.mem_append.mp inside with old | last
      · exact named other (List.mem_append_left _ old)
      · rw [List.mem_singleton.mp last]
        exact named_stubName known
    have fixed : ∀ other ∈ [kind, stubName kind], Path.Named other := by
      intro other inside
      rcases List.mem_cons.mp inside with rfl | last
      · exact named _ (by simp)
      · rw [List.mem_singleton.mp last]
        exact named_stubName member
    have parts := congrArg Path.parts same
    rw [← Path.walked_snoc, Path.parts_walked _ longer, show stubsPath settings kind =
      Path.walked settings.library [kind, stubName kind] from rfl, Path.parts_walked _ fixed] at parts
    have tails := List.cons.inj (List.append_cancel_left parts)
    cases deeper with
    | nil => exact ⟨rfl, List.append_cancel_right (List.cons.inj tails.2).1⟩
    | cons new deeper => simp at tails
  · rintro ⟨rfl, rfl⟩
    rfl

def besideSite : Site := .ascending "/workspace" ["docs"]

def besideSettings : Settings := { library := "../ivy" }

def besideTree : Tree := ⟨[(["docs"], .directory), (["ivy"], .directory), (["ivy", "array"], .directory),
  (["ivy", "array", "deep"], .directory),
  (["ivy", "array", "deep", "a.py"], .file (Utf8.bytesOf "class A:\n    def f(self):\n"))]⟩

def besideAfter : Tree := ((gatherUpTo besideSettings 6 "../ivy").runOn besideSite besideTree).2

theorem runOn_gather_sample : (gather besideSettings "../ivy").runOn besideSite besideTree = (.ok (), besideAfter) := by
  have height : besideTree.height = 4 := by decide
  have ended : ((gatherUpTo besideSettings 6 "../ivy").runOn besideSite besideTree).1 = .ok () := by decide +kernel
  rw [runOn_gather, height, besideAfter, ← ended]

theorem gather_beside_sample :
    (∃ stubs ∈ kinds, ∃ before later, besideSite.find besideAfter (Path.join "../ivy/array/deep" (stubName stubs)) =
        .ok (["ivy", "array", "deep", stubName stubs], .file (before ++ Utf8.bytesOf
          (extract "ivy.array.deep.a" "class A:\n    def f(self):\n").flatten ++ later))) ∧
      besideAfter.get? (stubPlace ["ivy"] "array") = none := by
  have placed : besideSite.Sound := .inr (by decide)
  have sound : besideTree.Sound := Tree.sound_of_isSound (by decide +kernel)
  have located : besideSite.locate besideTree besideSettings.library = .ok ["ivy"] := by decide +kernel
  have due : Due besideSettings ["array", "deep"] "a.py" :=
    ⟨visited_of_all (by decide +kernel), by decide +kernel, by decide +kernel, by decide +kernel⟩
  have held : besideTree.get? (["ivy"] ++ ["array", "deep"] ++ ["a.py"]) =
      some (.file (Utf8.bytesOf "class A:\n    def f(self):\n")) := by decide +kernel
  have path : Path.walked besideSettings.library ["array", "deep"] = "../ivy/array/deep" := by decide +kernel
  have dotted : dottedName besideSettings ["array", "deep"] "a.py" = "ivy.array.deep.a" := by decide +kernel
  have text : unifyNewlines (Utf8.decodeLenient (Utf8.bytesOf "class A:\n    def f(self):\n")) =
      "class A:\n    def f(self):\n" := by decide +kernel
  have vacant : besideAfter.get? (stubPlace ["ivy"] "array") = none := by decide +kernel
  obtain ⟨stubs, known, before, later, there, _⟩ :=
    gather_beside placed rfl sound located runOn_gather_sample (by simp [kinds]) due held (by rw [text]; decide +kernel)
  rw [path, dotted, text] at there
  exact ⟨⟨stubs, known, before, later, there⟩, vacant⟩

end ApiDocs.Stub
