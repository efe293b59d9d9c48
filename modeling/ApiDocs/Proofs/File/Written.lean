import ApiDocs.Proofs.File.Below

/-! What writing a file and making directories change. One place gets a file and the others keep what they hold;
directories are only added. -/

set_option autoImplicit false

namespace ApiDocs

namespace Path

theorem dropSlashes_open {path : Text} (bare : path.getLast? ≠ some (.char '/')) : dropSlashes path = path := by
  rcases List.eq_nil_or_concat path with rfl | ⟨front, c, eq⟩
  · rfl
  · rw [List.concat_eq_append] at eq
    subst eq
    have other : (c == .char '/') = false := by
      rw [beq_eq_false_iff_ne]
      rintro rfl
      exact bare (by simp)
    simp [dropSlashes, other]

theorem directory_name {name : Text} (slashless : .char '/' ∉ name) : directory name = [] := by
  have last : base name = name := Text.afterLast_free slashless
  simp [directory, last]

theorem directory_join {path name : Text} (proper : path ≠ []) (bare : path.getLast? ≠ some (.char '/'))
    (slashless : .char '/' ∉ name) : directory (join path name) = path := by
  have joined : join path name = path ++ .char '/' :: name :=
    join_open (fun first => slashless (List.mem_of_head? first)) proper bare
  have last : base (path ++ .char '/' :: name) = name := Text.afterLast_mark path slashless
  have front : (path ++ .char '/' :: name).take ((path ++ .char '/' :: name).length - name.length) =
      path ++ [.char '/'] := by
    rw [List.length_append, List.length_cons,
      show path.length + (name.length + 1) - name.length = path.length + 1 by omega, List.take_length_add_append]
    rfl
  have other : List.all (path ++ [CodePoint.char '/']) (· == CodePoint.char '/') = false := by
    rw [List.all_append, Bool.and_eq_false_iff]
    refine .inl (List.all_eq_false.mpr ⟨path.getLast proper, List.getLast_mem proper, ?_⟩)
    rw [List.getLast?_eq_some_getLast proper] at bare
    simpa using bare
  have dropped : dropSlashes (path ++ [.char '/']) = dropSlashes path := by simp [dropSlashes]
  rw [joined]
  simp only [directory, last, front, other, Bool.false_eq_true, if_false]
  rw [dropped, dropSlashes_open bare]

theorem accept_open {path known : Text} (bare : path.getLast? ≠ some (.char '/')) (accepted : accept path = .ok known) :
    known.getLast? ≠ some (.char '/') := by
  obtain ⟨bytes, spelled, _, _, rfl⟩ := accept_eq_ok_iff.mp accepted
  intro last
  obtain ⟨before, eq⟩ := List.getLast?_eq_some_iff.mp last
  have naming := Utf8.spelled_decodeName bytes
  rw [eq] at naming
  obtain ⟨left, right, rfl, _, tail⟩ := naming.split
  rw [tail.unique Utf8.spelled_slash] at spelled
  exact bare spelled.slash_last

end Path

namespace Tree

structure Written (place : Place) (bytes : Bytes) (tree after : Tree) : Prop where
  vacant : tree.get? place ≠ some .directory
  here : after.get? place = some (.file bytes)
  others : ∀ other, other ≠ place → after.get? other = tree.get? other
  sound : tree.Sound → after.Sound

theorem Written.keeps {place : Place} {bytes : Bytes} {tree after : Tree} (written : Written place bytes tree after) :
    tree.KeepsDirectories after := by
  intro other held
  rw [written.others other fun same => written.vacant (same ▸ held)]
  exact held

theorem Written.find {site : Site} {path : Text} {place other : Place} {bytes : Bytes} {entry : Entry}
    {tree after : Tree} (written : Written other bytes tree after) (apart : other ≠ place)
    (found : site.find tree path = .ok (place, entry)) :
    site.find after path = .ok (place, entry) := by
  obtain ⟨located, held⟩ := Site.find_eq_ok_iff.mp found
  exact Site.find_eq_ok_iff.mpr ⟨Site.locate_keeps written.keeps located,
    (written.others place (Ne.symm apart)).trans held⟩

theorem Written.again {place : Place} {bytes more : Bytes} {tree between after : Tree}
    (first : Written place bytes tree between) (second : Written place more between after) :
    Written place more tree after where
  vacant := first.vacant
  here := second.here
  others := fun other apart => (second.others other apart).trans (first.others other apart)
  sound := fun sound => second.sound (first.sound sound)

structure Widened (tree after : Tree) : Prop where
  kept : ∀ place entry, tree.get? place = some entry → after.get? place = some entry
  new : ∀ place, tree.get? place = none → after.get? place = none ∨ after.get? place = some .directory
  sound : tree.Sound → after.Sound

theorem Widened.refl (tree : Tree) : Widened tree tree := ⟨fun _ _ held => held, fun _ vacant => .inl vacant, id⟩

theorem Widened.keeps {tree after : Tree} (widened : Widened tree after) : tree.KeepsDirectories after :=
  fun place held => widened.kept place .directory held

theorem Widened.find {site : Site} {path : Text} {place : Place} {entry : Entry} {tree after : Tree}
    (widened : Widened tree after) (found : site.find tree path = .ok (place, entry)) :
    site.find after path = .ok (place, entry) := by
  obtain ⟨located, held⟩ := Site.find_eq_ok_iff.mp found
  exact Site.find_eq_ok_iff.mpr ⟨Site.locate_keeps widened.keeps located, widened.kept place entry held⟩

theorem Widened.trans {tree between after : Tree} (first : Widened tree between) (second : Widened between after) :
    Widened tree after where
  kept := fun place entry held => second.kept place entry (first.kept place entry held)
  new := fun place vacant => (first.new place vacant).elim (second.new place) fun held =>
    .inr (second.kept place _ held)
  sound := fun sound => second.sound (first.sound sound)

end Tree

namespace Script

variable {site : Site} {tree after : Tree}

theorem written_put {path : Text} {place : Place} {bytes : Bytes} (found : writable path site tree = .ok (place, bytes))
    (new : Bytes) : Tree.Written place new tree (tree.put place (.file new)) := by
  have vacant := not_directory_of_writable found
  refine ⟨vacant, Tree.get?_put_self _ vacant, fun other apart => Tree.get?_put_apart _ _ (Ne.symm apart),
    fun sound => ?_⟩
  refine sound.put (fun held => absurd held vacant) (.inr ?_)
  exact (Site.locate_cases sound (locate_of_writable found)).resolve_left vacant

theorem written_writeText {path text : Text} (run : (writeText path text).runOn site tree = (.ok (), after)) :
    text.Plain ∧ ∃ place bytes, writable path site tree = .ok (place, bytes) ∧
      Tree.Written place (Utf8.bytesOf text) tree after := by
  obtain ⟨plain, place, bytes, found, rfl⟩ := runOn_writeText_ok site tree run
  exact ⟨plain, place, bytes, found, written_put found _⟩

theorem written_appendText {path text : Text} (run : (appendText path text).runOn site tree = (.ok (), after)) :
    text.Plain ∧ ∃ place bytes, writable path site tree = .ok (place, bytes) ∧
      Tree.Written place (bytes ++ Utf8.bytesOf text) tree after := by
  obtain ⟨plain, place, bytes, found, rfl⟩ := runOn_appendText_ok site tree run
  exact ⟨plain, place, bytes, found, written_put found _⟩

theorem locate_accepted {path known : Text} (accepted : Path.accept path = .ok known) (tree : Tree) :
    site.locate tree known = site.locate tree path := by
  unfold Site.locate
  rw [accepted, Path.accept_accepted accepted]

theorem widened_put {path : Text} {place : Place} (located : site.locate tree path = .ok place)
    (vacant : tree.get? place = none) : Tree.Widened tree (tree.put place .directory) := by
  have free : tree.get? place ≠ some .directory := by rw [vacant]; simp
  refine ⟨fun other entry held => ?_, fun other absent => ?_, fun sound => ?_⟩
  · rw [Tree.get?_put_apart _ _ (fun same => ?_), held]
    rw [← same, vacant] at held
    cases held
  · by_cases same : place = other
    · subst same
      exact .inr (Tree.get?_put_self _ free)
    · rw [Tree.get?_put_apart _ _ same]
      exact .inl absent
  · exact sound.put (fun _ => rfl) (.inr ((Site.locate_cases sound located).resolve_left free))

theorem runOn_makeDirectory (path : Text) (site : Site) (tree : Tree) :
    (∃ fault, (makeDirectory path).runOn site tree = (.error fault, tree)) ∨
      ∃ known place, Path.accept path = .ok known ∧ site.locate tree (Path.dropSlashes known) = .ok place ∧
        tree.get? place = none ∧ (makeDirectory path).runOn site tree = (.ok (), tree.put place .directory) := by
  unfold makeDirectory
  rw [runOn_bind, runOn_inspect]
  cases accepted : Path.accept path with
  | error refusal => exact .inl ⟨_, rfl⟩
  | ok known =>
    cases located : site.locate tree (Path.dropSlashes known) with
    | error refusal =>
      simp only [bind, Except.bind, located]
      exact .inl ⟨_, rfl⟩
    | ok place =>
      simp only [bind, Except.bind, located]
      cases held : tree.get? place with
      | some entry => exact .inl ⟨_, rfl⟩
      | none => exact .inr ⟨known, place, rfl, located, held, rfl⟩

/-- A change that may also be none, or several of its kind. -/
structure Cumulative (change : Tree → Tree → Prop) : Prop where
  refl : ∀ tree, change tree tree
  trans : ∀ {tree between after}, change tree between → change between after → change tree after

/-- A script that changes trees only as a relation allows, whether it succeeds or not. -/
def Respects {α : Type} (site : Site) (change : Tree → Tree → Prop) (script : Script α) : Prop :=
  ∀ tree, change tree (script.runOn site tree).2

section
variable {α β : Type} {change : Tree → Tree → Prop} (cumulative : Cumulative change)
include cumulative

theorem Respects.of_look {script : Script α} {look : Tree → Except Fault α}
    (run : ∀ tree, script.runOn site tree = (look tree, tree)) : Respects site change script := by
  intro tree
  rw [run]
  exact cumulative.refl tree

theorem Respects.bind {first : Script α} {next : α → Script β} (begin : Respects site change first)
    (rest : ∀ value, Respects site change (next value)) : Respects site change (first >>= next) := by
  intro tree
  have start := begin tree
  rw [runOn_bind]
  rcases ended : first.runOn site tree with ⟨outcome, between⟩
  rw [ended] at start
  cases outcome with
  | error fault => exact start
  | ok value => exact cumulative.trans start (rest value between)

theorem Respects.tryCatch {script : Script α} {rescue : Fault → Script α} (begin : Respects site change script)
    (rest : ∀ fault, Respects site change (rescue fault)) : Respects site change (tryCatch script rescue) := by
  intro tree
  have start := begin tree
  rw [runOn_tryCatch]
  rcases ended : script.runOn site tree with ⟨outcome, between⟩
  rw [ended] at start
  cases outcome with
  | error fault => exact cumulative.trans start (rest fault between)
  | ok value => exact start

/-- Making directories respects what making one of them does, for a path and those above it. -/
theorem respects_makeDirectoriesUpTo {known : Text → Prop}
    (above : ∀ path, known path → Path.directory path = [] ∨ known (Path.directory path))
    (each : ∀ path, known path → Respects site change (makeDirectory path)) (existing : Bool) (depth : Nat)
    {path : Text} (start : known path) : Respects site change (makeDirectoriesUpTo existing depth path) := by
  induction depth generalizing path with
  | zero => exact fun tree => cumulative.refl tree
  | succ depth ih =>
    have last : Respects site change (tryCatch (makeDirectory path) fun fault => do
        if existing && (← isDirectory path) then pure () else throw fault) := by
      apply (each path start).tryCatch cumulative
      intro fault tree
      obtain ⟨answer, run, _⟩ := runOn_isDirectory site tree path
      rw [runOn_bind, run, andThen_ok]
      split <;> exact cumulative.refl tree
    unfold makeDirectoriesUpTo
    dsimp only
    -- the directory above is known too, or it is the start directory and is not made
    have inner : Path.directory (if (Path.base path).isEmpty = true then Path.directory path else path) = [] ∨
        known (Path.directory (if (Path.base path).isEmpty = true then Path.directory path else path)) := by
      split
      · rcases above path start with alone | further
        · rw [alone]
          exact .inl rfl
        · exact above _ further
      · exact above path start
    generalize (if (Path.base path).isEmpty = true then Path.directory path else path) = inside at inner ⊢
    apply Respects.bind cumulative (Respects.of_look cumulative fun tree => runOn_present site tree _)
    intro answer
    by_cases missing : (!(Path.directory inside).isEmpty && !(Path.base inside).isEmpty && !answer) = true
    · rw [if_pos missing]
      have further : known (Path.directory inside) := by
        refine inner.resolve_left fun alone => ?_
        rw [alone] at missing
        cases missing
      apply Respects.bind cumulative
      · apply (ih further).tryCatch cumulative
        intro fault
        split <;> exact fun tree => cumulative.refl tree
      · intro _
        split
        · exact fun tree => cumulative.refl tree
        · exact last
    · rw [if_neg missing]
      exact last

end

theorem widened_makeDirectory (path : Text) : Respects site Tree.Widened (makeDirectory path) := by
  intro tree
  rcases runOn_makeDirectory path site tree with ⟨fault, run⟩ | ⟨known, place, _, located, vacant, run⟩ <;> rw [run]
  · exact .refl tree
  · exact widened_put located vacant

theorem widened_makeDirectories {path : Text} {existing : Bool} {outcome : Except Fault Unit}
    (run : (makeDirectories path existing).runOn site tree = (outcome, after)) : Tree.Widened tree after := by
  have above : ∀ path : Text, True → Path.directory path = [] ∨ True := fun _ known => .inr known
  have widened : Respects site Tree.Widened (makeDirectories path existing) :=
    respects_makeDirectoriesUpTo ⟨Tree.Widened.refl, Tree.Widened.trans⟩ above
      (fun path _ => widened_makeDirectory path) existing _ trivial
  have result := widened tree
  rwa [run] at result

/-- Below a directory that exists, one directory is made at most. -/
theorem runOn_makeDirectories_below {path : Text} {place : Place} {entry : Entry} (proper : Path.base path ≠ [])
    (above : site.find tree (Path.directory path) = .ok (place, entry))
    (run : (makeDirectories path true).runOn site tree = (.ok (), after)) :
    (after = tree ∧ ∃ place, site.find tree path = .ok (place, .directory)) ∨
      ∃ place, site.locate tree path = .ok place ∧ tree.get? place = none ∧ after = tree.put place .directory := by
  have named : (Path.base path).isEmpty = false := by simpa using proper
  unfold makeDirectories makeDirectoriesUpTo at run
  simp only [named, Bool.false_eq_true, if_false] at run
  obtain ⟨answer, between, seen, rest⟩ := runOn_bind_ok run
  rw [runOn_present, above] at seen
  cases seen
  simp only [Except.toOption, Option.isSome_some, Bool.not_true, Bool.and_false, Bool.false_eq_true, if_false] at rest
  rw [runOn_tryCatch] at rest
  -- a failure is forgiven if the directory is there already
  rcases runOn_makeDirectory path site tree with ⟨fault, failed⟩ | ⟨known, place, accepted, located, vacant, made⟩
  · rw [failed] at rest
    obtain ⟨answer, run, seen⟩ := runOn_isDirectory site tree path
    dsimp only at rest
    rw [runOn_bind, run, andThen_ok] at rest
    cases answer with
    | false => cases rest
    | true =>
      cases rest
      exact .inl ⟨rfl, seen.mp rfl⟩
  · rw [made] at rest
    cases rest
    rw [Path.dropSlashes_open (Path.accept_open (Path.open_of_base proper).2 accepted),
      locate_accepted accepted] at located
    exact .inr ⟨place, located, vacant, rfl⟩

theorem widened_makeDirectories_join (placed : site.Sound) {path name : Text} {place : Place}
    (single : Path.Single name) (plain : name.Plain) (there : site.find tree path = .ok (place, .directory))
    (bare : Path.base path ≠ []) (run : (makeDirectories (Path.join path name) true).runOn site tree =
      (.ok (), after)) :
    site.locate tree (Path.join path name) = .ok (place ++ [name]) ∧ after.get? (place ++ [name]) = some .directory ∧
      ∀ other, other ≠ place ++ [name] → after.get? other = tree.get? other := by
  obtain ⟨located, inside⟩ := Site.find_eq_ok_iff.mp there
  obtain ⟨proper, open'⟩ := Path.open_of_base bare
  have named : Path.base (Path.join path name) ≠ [] := by
    rw [Path.base_join path single.slashless]
    exact single.proper
  rw [← Path.directory_join proper open' single.slashless] at there
  rcases runOn_makeDirectories_below named there run with ⟨rfl, other, found⟩ | ⟨other, further, vacant, rfl⟩
  · obtain ⟨further, held⟩ := Site.find_eq_ok_iff.mp found
    obtain rfl := Site.locate_join_plain placed single plain located inside further
    exact ⟨further, held, fun _ _ => rfl⟩
  · obtain rfl := Site.locate_join_plain placed single plain located inside further
    refine ⟨further, Tree.get?_put_self _ (by simp [vacant]), fun other apart => ?_⟩
    exact Tree.get?_put_apart _ _ (Ne.symm apart)

end Script
end ApiDocs
