import ApiDocs.Proofs.File.Change

/-! Paths that are written from the start directory, where they lead, and what making and copying directories
there does. -/

set_option autoImplicit false

namespace ApiDocs

abbrev Site.below (site : Site) (names : Place) : Place := site.start ++ names

/-- A path that is taken from the start directory and has these names. -/
structure Site.Relative (site : Site) (path : Text) (names : Place) : Prop where
  accepted : Path.accept path = .ok path
  proper : path ≠ []
  fromStart : ¬site.FromRoot path
  relative : path.head? ≠ some (.char '/')
  listed : Path.names path = names
  named : ∀ name ∈ names, Path.Named name

namespace Site

theorem not_below {site : Site} {first second : Text} (differs : first ≠ second) (names others rest : Place) :
    ¬site.below (first :: names) <+: site.below (second :: others) ++ rest := by
  rw [List.append_assoc, List.prefix_append_right_inj, List.cons_append, List.cons_prefix_cons]
  exact fun both => differs both.1

theorem not_below_names (site : Site) {first second : Text} (differs : first ≠ second) (names others : Place) :
    ¬site.below (first :: names) <+: site.below (second :: others) := by
  have apart : ¬site.below (first :: names) <+: site.below (second :: others) ++ [] := not_below differs names others []
  rwa [List.append_nil] at apart

theorem below_ne {site : Site} {first second : Text} (differs : first ≠ second) (names others rest : Place) :
    site.below (first :: names) ≠ site.below (second :: others) ++ rest := by
  intro eq
  exact not_below differs names others rest ⟨[], by rw [List.append_nil, eq]⟩

def folders : List Text := ["partial_source", "autogenerated_source", "build"]

/-- A site whose start directory can be written, and whose root is not written like one of the folders that a run
works with. -/
structure Clear (site : Site) : Prop where
  sound : site.Sound
  proper : site.root ≠ []
  root : site.root ∉ folders
  written : Path.accept site.here = .ok site.here

/-- A path is taken from the root only if the root is written like the path's first name. -/
theorem Sound.not_fromRoot {site : Site} (sound : site.Sound) {path name : Text} (differs : site.root ≠ name)
    (slashless : .char '/' ∉ name) (first : path = name ∨ ∃ rest, path = name ++ .char '/' :: rest)
    (relative : path.head? ≠ some (.char '/')) : ¬site.FromRoot path := by
  have free : .char '/' ∉ site.root ∨ site.root.head? = some (.char '/') := sound.imp_right And.left
  rintro (rfl | ⟨rest, rfl⟩)
  · rcases first with same | ⟨rest, eq⟩
    · exact differs same
    · rcases free with free | slash
      · exact free (by rw [eq]; simp)
      · exact relative slash
  · rcases free with free | slash
    · rcases first with same | ⟨more, eq⟩
      · exact slashless (by rw [← same]; simp)
      · exact differs (Text.append_mark_inj free slashless eq).1
    · cases root : site.root with
      | nil => rw [root] at slash; cases slash
      | cons c tail => rw [root] at slash relative; exact relative slash

theorem Clear.relative {site : Site} (clear : site.Clear) {path name : Text} {names : Place} (known : name ∈ folders)
    (first : path = name ∨ ∃ rest, path = name ++ .char '/' :: rest) (accepted : Path.accept path = .ok path)
    (listed : Path.names path = names) (named : ∀ name ∈ names, Path.Named name) : site.Relative path names := by
  have plain : .char '/' ∉ name ∧ name ≠ [] := by
    simp only [folders, List.mem_cons, List.not_mem_nil, or_false] at known
    rcases known with rfl | rfl | rfl <;> decide
  have relative : path.head? ≠ some (.char '/') := by
    cases cut : name with
    | nil => exact absurd cut plain.2
    | cons c rest =>
      have begins : path.head? = some c := by
        rcases first with eq | ⟨rest, eq⟩ <;> rw [eq, cut] <;> rfl
      rw [begins]
      intro slash
      apply plain.1
      rw [cut, Option.some.inj slash]
      exact List.mem_cons_self
  have proper : path ≠ [] := by
    rintro rfl
    rcases first with eq | ⟨rest, eq⟩
    · exact plain.2 eq.symm
    · simp at eq
  exact ⟨accepted, proper, clear.sound.not_fromRoot (fun same => clear.root (same ▸ known)) plain.1 first relative,
    relative, listed, named⟩

theorem walk_directory {tree : Tree} (sound : tree.Sound) {start names : Place}
    (directory : tree.get? (start ++ names) = some .directory) : walk tree start names = .ok (start ++ names) := by
  induction names using List.reverseRecOn with
  | nil => rw [List.append_nil, walk]
  | append_singleton names name ih =>
    rw [← List.append_assoc] at directory ⊢
    have present : (tree.get? (start ++ names ++ [name])).isSome = true := by rw [directory]; rfl
    have above := sound.parent _ _ present
    rw [walk_append, ih above]
    exact walk_named (sound.named _ _ present) above

variable {site : Site} {path : Text} {names : Place}

theorem Relative.eq_of_locate (relative : site.Relative path names) {tree : Tree} {place : Place}
    (located : site.locate tree path = .ok place) : place = site.start ++ names := by
  obtain ⟨known, start, rest, accepted, origin, walked⟩ := locate_eq_ok_iff.mp located
  rw [relative.accepted] at accepted
  cases accepted
  obtain ⟨_, ⟨fromRoot, _⟩ | ⟨_, _, rfl, rfl⟩⟩ := origin_eq_ok_iff.mp origin
  · exact absurd fromRoot relative.fromStart
  · rw [relative.listed] at walked
    exact walk_names (fun name member => (relative.named name member).single) walked

theorem Relative.locate (relative : site.Relative path names) {tree : Tree} (sound : tree.Sound) {front : Place}
    {last : Text} (cut : names = front ++ [last]) (directory : tree.get? (site.start ++ front) = some .directory) :
    site.locate tree path = .ok (site.start ++ names) := by
  refine locate_eq_ok_iff.mpr ⟨path, site.start, path, relative.accepted, ?_, ?_⟩
  · exact origin_eq_ok_iff.mpr ⟨relative.proper, .inr ⟨relative.fromStart, relative.relative, rfl, rfl⟩⟩
  · have named : Path.Named last := relative.named last (by rw [cut]; simp)
    rw [relative.listed, cut, walk_append, walk_directory sound directory, ← List.append_assoc]
    exact walk_named named directory

theorem Relative.locate_name {name : Text} (relative : site.Relative path [name]) {tree : Tree} (sound : tree.Sound)
    (directory : tree.get? site.start = some .directory) : site.locate tree path = .ok (site.below [name]) :=
  relative.locate sound (List.nil_append _).symm (by rwa [List.append_nil])

theorem Relative.locate_pair {first second : Text} (relative : site.Relative path [first, second]) {tree : Tree}
    (sound : tree.Sound) (directory : tree.get? (site.below [first]) = some .directory) :
    site.locate tree path = .ok (site.below [first, second]) :=
  relative.locate sound (List.singleton_append).symm directory

theorem join_walked {root : Text} {names : Place} (proper : root ≠ []) (bare : root.getLast? ≠ some (.char '/'))
    (named : ∀ name ∈ names, Path.Named name) : Text.join "/" (root :: names) = Path.walked root names := by
  induction names generalizing root with
  | nil => rfl
  | cons name names ih =>
    have new := named name List.mem_cons_self
    have joined : Path.join root name = root ++ "/" ++ name := by
      rw [Path.join_open new.head? proper bare, List.append_assoc]
      rfl
    show root ++ "/" ++ Text.join "/" (name :: names) = Path.walked (Path.join root name) names
    rw [← ih (fun eq => ?_) (Path.getLast?_join _ new) fun other member => named other (List.mem_cons_of_mem _ member),
      joined]
    · cases names <;> simp [Text.join]
    · rw [joined] at eq
      simp [proper] at eq

theorem Clear.locate_here (clear : site.Clear) {tree : Tree} (sound : tree.Sound)
    (directory : tree.get? site.start = some .directory) : site.locate tree site.here = .ok site.start := by
  have named : ∀ name ∈ site.start, Path.Named name := by
    apply sound.named_of_mem
    rw [List.nil_append, directory]
    rfl
  have written : site.here = Path.walked site.root site.start := join_walked clear.proper clear.sound.bare named
  have origin : site.origin site.root = .ok ([], []) :=
    origin_eq_ok_iff.mpr ⟨clear.proper, .inl ⟨.inl rfl, rfl, by simp⟩⟩
  obtain ⟨rest, origin', parts⟩ := origin_walked clear.sound named origin
  rw [← written] at origin'
  refine locate_eq_ok_iff.mpr ⟨_, [], rest, clear.written, origin', ?_⟩
  have walked : walk tree [] site.start = .ok ([] ++ site.start) := walk_directory sound (by rwa [List.nil_append])
  rw [Path.names_eq, parts, Path.parts_nil, List.nil_append, walk_append, walked, List.nil_append]
  split
  · simp [Except.bind, walk, directory, step, bind]
  · rfl

theorem walk_congr {tree other : Tree} {start names : Place} (named : ∀ name ∈ names, Path.Named name)
    (agree : ∀ front, front <+: names → tree.get? (start ++ front) = other.get? (start ++ front)) :
    walk tree start names = walk other start names := by
  induction names generalizing start with
  | nil => rfl
  | cons name names ih =>
    have here := agree [] List.nil_prefix
    rw [List.append_nil] at here
    have later : walk tree (start ++ [name]) names = walk other (start ++ [name]) names := by
      refine ih (fun other member => named other (List.mem_cons_of_mem _ member)) fun front inside => ?_
      rw [List.append_assoc]
      exact agree _ (List.cons_prefix_cons.mpr ⟨rfl, inside⟩)
    simp only [walk, here, step_named (named name List.mem_cons_self), bind, Except.bind, later]

theorem Relative.locate_eq_walk (relative : site.Relative path names) (tree : Tree) :
    site.locate tree path = walk tree site.start names := by
  have origin : site.origin path = .ok (site.start, path) :=
    origin_eq_ok_iff.mpr ⟨relative.proper, .inr ⟨relative.fromStart, relative.relative, rfl, rfl⟩⟩
  simp only [Site.locate, relative.accepted, origin, relative.listed, bind, Except.bind]

/-- A path below the written start directory leads there, if it leads anywhere. -/
theorem Clear.eq_of_locate_here (clear : site.Clear) (above : ∀ name ∈ site.start, Path.Named name)
    (named : ∀ name ∈ names, Path.Named name) {tree : Tree} {place : Place}
    (located : site.locate tree (Path.walked site.here names) = .ok place) : place = site.below names := by
  obtain ⟨known, start, rest, accepted, origin, walked⟩ := locate_eq_ok_iff.mp located
  rw [Path.accept_walked named clear.written (Path.size_le_of_accept accepted)] at accepted
  obtain rfl := Except.ok.inj accepted
  have root : site.origin site.root = .ok ([], []) :=
    origin_eq_ok_iff.mpr ⟨clear.proper, .inl ⟨.inl rfl, rfl, by simp⟩⟩
  have every : ∀ name ∈ site.start ++ names, Path.Named name := fun name member =>
    (List.mem_append.mp member).elim (above name) (named name)
  obtain ⟨more, again, parts⟩ := origin_walked clear.sound every root
  have written : site.here = Path.walked site.root site.start := join_walked clear.proper clear.sound.bare above
  rw [written, ← Path.walked_append, again] at origin
  cases origin
  have whole := walk_parts walked
  rw [parts, Path.parts_nil, List.nil_append] at whole
  exact (walk_names (fun name member => (every name member).single) whole).trans (List.nil_append _)

end Site

namespace Script

variable {site : Site}

theorem runOn_makeDirectory_of {path : Text} {tree : Tree} {place : Place} (accepted : Path.accept path = .ok path)
    (bare : Path.dropSlashes path = path) (located : site.locate tree path = .ok place)
    (vacant : tree.get? place = none) :
    (makeDirectory path).runOn site tree = (.ok (), tree.put place .directory) := by
  unfold makeDirectory
  rw [runOn_bind, runOn_inspect]
  simp only [accepted, bind, Except.bind, bare, located, vacant]
  rfl

theorem runOn_present_of_find {path : Text} {tree : Tree} {place : Place} {entry : Entry}
    (found : site.find tree path = .ok (place, entry)) : (present path).runOn site tree = (.ok true, tree) := by
  rw [runOn_present, found]
  rfl

theorem runOn_present_vacant {path : Text} {tree : Tree} {place : Place} (located : site.locate tree path = .ok place)
    (vacant : tree.get? place = none) : (present path).runOn site tree = (.ok false, tree) := by
  rw [runOn_present]
  simp only [Site.find, located, vacant, bind, Except.bind]
  rfl

theorem runOn_makeDirectoriesUpTo_name {path : Text} {existing : Bool} {tree after : Tree} (depth : Nat)
    (alone : Path.directory path = []) (proper : (Path.base path).isEmpty = false)
    (made : (makeDirectory path).runOn site tree = (.ok (), after)) :
    (makeDirectoriesUpTo existing (depth + 1) path).runOn site tree = (.ok (), after) := by
  unfold makeDirectoriesUpTo
  simp only [proper, Bool.false_eq_true, if_false, alone]
  rw [runOn_bind, runOn_present, andThen_ok]
  simp only [List.isEmpty_nil, Bool.not_true, Bool.false_and, Bool.false_eq_true, if_false]
  rw [runOn_tryCatch, made]

theorem runOn_makeDirectoriesUpTo_below {path : Text} {existing : Bool} {tree between after : Tree} {depth : Nat}
    (above : (Path.directory path).isEmpty = false) (proper : (Path.base path).isEmpty = false)
    (plain : Path.base path ≠ ".") (missing : (present (Path.directory path)).runOn site tree = (.ok false, tree))
    (first : (makeDirectoriesUpTo existing depth (Path.directory path)).runOn site tree = (.ok (), between))
    (made : (makeDirectory path).runOn site between = (.ok (), after)) :
    (makeDirectoriesUpTo existing (depth + 1) path).runOn site tree = (.ok (), after) := by
  unfold makeDirectoriesUpTo
  simp only [proper, Bool.false_eq_true, if_false, above]
  rw [runOn_bind, missing, andThen_ok]
  simp only [Bool.not_false, Bool.and_self, if_true]
  rw [runOn_bind, runOn_tryCatch, first]
  simp only [andThen_ok, plain, if_false]
  rw [runOn_tryCatch, made]

theorem directoryPlace_of_find {path : Text} {tree : Tree} {place : Place}
    (found : site.find tree path = .ok (place, .directory)) : directoryPlace path site tree = .ok place := by
  unfold directoryPlace
  rw [found]
  rfl

theorem find_of_directoryPlace {path : Text} {tree : Tree} {place : Place}
    (found : directoryPlace path site tree = .ok place) : site.find tree path = .ok (place, .directory) := by
  unfold directoryPlace at found
  cases seen : site.find tree path with
  | error refusal => rw [seen] at found; cases found
  | ok pair =>
    obtain ⟨spot, entry⟩ := pair
    rw [seen] at found
    cases entry with
    | file bytes => cases found
    | directory =>
      cases found
      rfl

theorem find_of_copyDirectory {source target : Text} {tree after : Tree}
    (run : (copyDirectory source target).runOn site tree = (.ok (), after)) :
    ∃ origin, site.find tree source = .ok (origin, .directory) := by
  obtain ⟨origin, between, first, _⟩ := runOn_bind_ok run
  rw [runOn_inspect] at first
  cases found : directoryPlace source site tree with
  | error refusal => rw [found] at first; cases first
  | ok place => exact ⟨place, find_of_directoryPlace found⟩

theorem runOn_copyDirectory_of {source target : Text} {tree between : Tree} {origin destination : Place}
    (found : site.find tree source = .ok (origin, .directory))
    (made : (makeDirectories target false).runOn site tree = (.ok (), between))
    (there : site.find between target = .ok (destination, .directory)) :
    (copyDirectory source target).runOn site tree = (.ok (), between.graft origin destination) := by
  unfold copyDirectory
  rw [runOn_bind, runOn_inspect, directoryPlace_of_find found]
  simp only [Except.mapError, andThen_ok]
  rw [runOn_bind, made, andThen_ok, runOn_bind, runOn_inspect, directoryPlace_of_find there]
  simp only [Except.mapError, andThen_ok, runOn_modify]

end Script
end ApiDocs
