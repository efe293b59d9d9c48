import ApiDocs.DataClass
import ApiDocs.Proofs.File.Change

/-! Paths that are replaced in the pages below a directory. The walk goes down into every folder and updates the pages
of those that hold no folder; a page beside a folder stays as it is. Each folder is settled by itself, so the order in
which the folders are listed does not matter. -/

set_option autoImplicit false

namespace ApiDocs.DataClass

open Script

/-- The bytes of a page with a path replaced in its text. Bytes that are no text stay as they are. -/
def replacedBytes (old new : Text) (bytes : Bytes) : Bytes :=
  match Utf8.decode bytes with
  | .ok text => Utf8.bytesOf (Text.replace old new (Text.unifyNewlines text))
  | .error _ => bytes

def replacedEntry (old new : Text) : Entry → Entry
  | .file bytes => .file (replacedBytes old new bytes)
  | .directory => .directory

def holdsFolder (tree : Tree) (place : Place) : Bool :=
  (tree.names place).any fun name => tree.get? (place ++ [name]) = some .directory

/-- What is at a place after all pages have been updated that are not beside a folder. -/
def updatedAt (old new : Text) (tree : Tree) (place : Place) : Option Entry :=
  if holdsFolder tree place.dropLast then tree.get? place else (tree.get? place).map (replacedEntry old new)

/-- A directory whose pages can be updated: below it there are directories and pages, told apart by their names, with
paths that are not too long, and the pages that are updated can be read and written. -/
structure Updatable (old new : Text) (tree : Tree) (path : Text) (place : Place) : Prop where
  kinds : ∀ front name, (tree.get? (place ++ front ++ [name])).isSome = true →
    (tree.get? (place ++ front ++ [name]) = some .directory ↔ Text.mentions ".rst" name = false)
  short : ∀ names, (tree.get? (place ++ names)).isSome = true → Path.size (Path.walked path names) ≤ Path.pathLimit
  texts : ∀ front name bytes, tree.get? (place ++ front ++ [name]) = some (.file bytes) →
    holdsFolder tree (place ++ front) = false →
      ∃ text, Utf8.decode bytes = .ok text ∧ (Text.replace old new (Text.unifyNewlines text)).Plain

theorem holdsFolder_iff {tree : Tree} {place : Place} :
    holdsFolder tree place = true ↔ ∃ name, tree.get? (place ++ [name]) = some .directory := by
  rw [holdsFolder, List.any_eq_true]
  constructor
  · rintro ⟨name, _, folder⟩
    exact ⟨name, of_decide_eq_true folder⟩
  · rintro ⟨name, folder⟩
    exact ⟨name, Tree.mem_names.mpr (by rw [folder]; rfl), decide_eq_true folder⟩

section
variable {old new : Text} {tree : Tree} {place : Place}

theorem updatedAt_directory (directory : tree.get? place = some .directory) :
    updatedAt old new tree place = some .directory := by
  rw [updatedAt, directory]
  split <;> rfl

theorem updatedAt_none (vacant : tree.get? place = none) : updatedAt old new tree place = none := by
  rw [updatedAt, vacant]
  split <;> rfl

theorem updatedAt_entry (name : Text) : updatedAt old new tree (place ++ [name]) =
    if holdsFolder tree place then tree.get? (place ++ [name]) else (tree.get? (place ++ [name])).map
      (replacedEntry old new) := by
  rw [updatedAt, List.dropLast_concat]

theorem Updatable.entry {path name : Text} (updatable : Updatable old new tree path place)
    (there : (tree.get? (place ++ [name])).isSome = true) :
    tree.get? (place ++ [name]) = some .directory ↔ Text.mentions ".rst" name = false := by
  simpa using updatable.kinds [] name (by simpa using there)

theorem Updatable.below {path name : Text} (updatable : Updatable old new tree path place) :
    Updatable old new tree (Path.join path name) (place ++ [name]) where
  kinds := fun front last => by simpa using updatable.kinds (name :: front) last
  short := fun names there => updatable.short (name :: names) (by simpa using there)
  texts := fun front last bytes => by simpa using updatable.texts (name :: front) last bytes

end

/-- A script settles what is below a place: it succeeds on every tree that has not been changed there, reaches the goal
there, and changes nothing elsewhere. -/
def Settles (site : Site) (tree : Tree) (goal : Place → Option Entry) (place : Place) (script : Script Unit) : Prop :=
  ∀ now, tree.SameShape now → (∀ rest, now.get? (place ++ rest) = tree.get? (place ++ rest)) →
    ∃ after, script.runOn site now = (.ok (), after) ∧ tree.SameShape after ∧
      (∀ rest, after.get? (place ++ rest) = goal (place ++ rest)) ∧ ∀ other, ¬place <+: other →
        after.get? other = now.get? other

section
variable {site : Site} {tree : Tree} {goal : Place → Option Entry} {place : Place}

theorem settled_forM {names : List Text} {step : Text → Script Unit} (distinct : names.Nodup)
    (each : ∀ name ∈ names, Settles site tree goal (place ++ [name]) (step name)) {now : Tree}
    (same : tree.SameShape now) (fresh : ∀ name ∈ names, ∀ rest, now.get? (place ++ name :: rest) =
      tree.get? (place ++ name :: rest)) :
    ∃ after, (names.forM step).runOn site now = (.ok (), after) ∧ tree.SameShape after ∧
      (∀ name ∈ names, ∀ rest, after.get? (place ++ name :: rest) = goal (place ++ name :: rest)) ∧
      ∀ other, (∀ name ∈ names, ¬place ++ [name] <+: other) → after.get? other = now.get? other := by
  induction names generalizing now with
  | nil => exact ⟨now, rfl, same, fun _ member => absurd member List.not_mem_nil, fun _ _ => rfl⟩
  | cons name names ih =>
    obtain ⟨apart, distinct⟩ := List.nodup_cons.mp distinct
    have outside : ∀ other ∈ names, ∀ rest, ¬place ++ [name] <+: place ++ other :: rest := by
      intro other member rest begins
      rw [List.prefix_append_right_inj, List.cons_prefix_cons] at begins
      exact apart (begins.1 ▸ member)
    obtain ⟨between, first, same', done, kept⟩ := each name List.mem_cons_self now same fun rest => by
      simpa using fresh name List.mem_cons_self rest
    obtain ⟨after, later, same'', all, others⟩ :=
      ih distinct (fun other member => each other (List.mem_cons_of_mem name member))
      same' fun other member rest => by
        rw [kept _ (outside other member rest)]
        exact fresh other (List.mem_cons_of_mem name member) rest
    refine ⟨after, ?_, same'', fun other member rest => ?_, fun other away => ?_⟩
    · rw [runOn_forM_cons, first, andThen_ok, later]
    · rcases List.mem_cons.mp member with rfl | inside
      · -- the rounds to come are about other names, so what this one has brought about stays
        have still := others (place ++ other :: rest) fun next inside begins => by
          rw [List.prefix_append_right_inj, List.cons_prefix_cons] at begins
          exact apart (begins.1 ▸ inside)
        rw [still]
        simpa using done rest
      · exact all other inside rest
    · rw [others other fun next member => away next (List.mem_cons_of_mem name member),
        kept other (away name List.mem_cons_self)]

/-- A directory is settled by settling some of its entries, if there is nothing to do about the others. -/
theorem settles_forM {names : List Text} {step : Text → Script Unit} (distinct : names.Nodup)
    (each : ∀ name ∈ names, Settles site tree goal (place ++ [name]) (step name)) (here : goal place = tree.get? place)
    (others : ∀ name ∉ names, ∀ rest, goal (place ++ name :: rest) = tree.get? (place ++ name :: rest)) :
    Settles site tree goal place (names.forM step) := by
  intro now same fresh
  obtain ⟨after, run, same', done, kept⟩ := settled_forM distinct each same fun name _ rest => fresh (name :: rest)
  refine ⟨after, run, same', fun rest => ?_, fun other away => ?_⟩
  · cases rest with
    | nil =>
      have away : ∀ name ∈ names, ¬place ++ [name] <+: place ++ [] := by
        intro name _ begins
        have shorter := begins.length_le
        simp only [List.length_append, List.length_singleton, List.length_nil] at shorter
        omega
      rw [kept _ away, fresh, List.append_nil, here]
    | cons name rest =>
      by_cases member : name ∈ names
      · exact done name member rest
      · have away : ∀ next ∈ names, ¬place ++ [next] <+: place ++ name :: rest := by
          intro next inside begins
          rw [List.prefix_append_right_inj, List.cons_prefix_cons] at begins
          exact member (begins.1 ▸ inside)
        rw [kept _ away, fresh, others name member rest]
  · exact kept other fun name _ begins => away ((List.prefix_append place [name]).trans begins)

end

def updatePage (old new path : Text) : Script Unit := do
  writeText path (Text.replace old new (← readText path))

theorem updateImagesUpTo_succ (old new : Text) (depth : Nat) (folder : Text) :
    updateImagesUpTo old new (depth + 1) folder = (do
      let folders := (← names folder).filter (!Text.mentions ".rst" ·)
      if folders.isEmpty then
        ((← names folder).filter (Text.mentions ".rst")).forM fun file => updatePage old new (Path.join folder file)
      folders.forM fun inner => updateImagesUpTo old new depth (Path.join folder inner)) := rfl

section
variable {old new : Text} {site : Site} {tree : Tree} {path : Text} {place : Place}

theorem settles_updatePage (placed : site.Sound) (sound : tree.Sound) (updatable : Updatable old new tree path place)
    (located : site.locate tree path = .ok place) (directory : tree.get? place = some .directory)
    (flat : holdsFolder tree place = false) {name : Text} {bytes : Bytes}
    (held : tree.get? (place ++ [name]) = some (.file bytes)) :
    Settles site tree (updatedAt old new tree) (place ++ [name]) (updatePage old new (Path.join path name)) := by
  intro now same fresh
  have present : (tree.get? (place ++ [name])).isSome = true := by rw [held]; rfl
  obtain ⟨text, decoded, plain⟩ := updatable.texts [] name bytes (by simpa using held) (by simpa using flat)
  have still : now.get? (place ++ [name]) = some (.file bytes) := by simpa [held] using fresh []
  have leads : site.locate tree (Path.join path name) = .ok (place ++ [name]) :=
    Site.locate_join placed (sound.named place name present) located directory (updatable.short [name] present)
  have found : site.find now (Path.join path name) = .ok (place ++ [name], .file bytes) :=
    Site.find_eq_ok_iff.mpr ⟨site.locate_shape same _ ▸ leads, still⟩
  have read : textAt site now (Path.join path name) = .ok (Text.unifyNewlines text) :=
    (textAt_eq_ok_iff site now).mpr ⟨_, bytes, text, found, decoded, rfl⟩
  have bytes_eq : Utf8.bytesOf (Text.replace old new (Text.unifyNewlines text)) = replacedBytes old new bytes := by
    rw [replacedBytes, decoded]
  refine ⟨now.put (place ++ [name]) (.file (replacedBytes old new bytes)), ?_, same.trans (Tree.sameShape_put still _),
    fun rest => ?_, fun other away => ?_⟩
  · rw [updatePage, runOn_bind, runOn_readText, read, andThen_ok,
      runOn_writeText_of site now plain (writable_of_find found), bytes_eq]
  · by_cases own : rest = []
    · subst own
      rw [List.append_nil, Tree.get?_put_file _ still, updatedAt_entry, flat, held]
      rfl
    · -- there is nothing below a page
      have vacant : tree.get? (place ++ [name] ++ rest) = none := by
        by_contra some
        rw [sound.above own (Option.isSome_iff_ne_none.mpr some)] at held
        cases held
      rw [Tree.get?_put_apart _ _ (by simpa using own), fresh, vacant, updatedAt_none vacant]
  · refine Tree.get?_put_apart _ _ ?_
    rintro rfl
    exact away List.prefix_rfl

/-- What lies below an entry that is no directory stays as it is, the entry itself included if a folder is beside it. -/
theorem updatedAt_passed (sound : tree.Sound) {name : Text} (closed : tree.get? (place ++ [name]) ≠ some .directory)
    (beside : holdsFolder tree place = false → tree.get? (place ++ [name]) = none) (rest : Place) :
    updatedAt old new tree (place ++ name :: rest) = tree.get? (place ++ name :: rest) := by
  by_cases own : rest = []
  · subst own
    rw [updatedAt_entry]
    split
    · rfl
    · rename_i flat
      rw [beside (by simpa using flat)]
      rfl
  · have vacant : tree.get? (place ++ name :: rest) = none := by
      by_contra some
      refine closed (sound.above own ?_)
      rw [List.append_assoc]
      exact Option.isSome_iff_ne_none.mpr some
    rw [vacant, updatedAt_none vacant]

theorem mem_folders (updatable : Updatable old new tree path place) {name : Text} :
    name ∈ (site.arrange place (tree.names place)).filter (!Text.mentions ".rst" ·) ↔
      tree.get? (place ++ [name]) = some .directory := by
  rw [List.mem_filter, Site.mem_listed, Bool.not_eq_true']
  constructor
  · rintro ⟨there, bare⟩
    exact (updatable.entry there).mpr bare
  · intro folder
    have there : (tree.get? (place ++ [name])).isSome = true := by rw [folder]; rfl
    exact ⟨there, (updatable.entry there).mp folder⟩

theorem settles_pages (placed : site.Sound) (sound : tree.Sound) (updatable : Updatable old new tree path place)
    (located : site.locate tree path = .ok place) (directory : tree.get? place = some .directory)
    (flat : holdsFolder tree place = false) :
    Settles site tree (updatedAt old new tree) place
      (((site.arrange place (tree.names place)).filter (Text.mentions ".rst")).forM fun file =>
        updatePage old new (Path.join path file)) := by
  have closed : ∀ name, tree.get? (place ++ [name]) ≠ some .directory := by
    intro name folder
    rw [holdsFolder_iff.mpr ⟨name, folder⟩] at flat
    cases flat
  refine settles_forM (Site.nodup_listed.filter _) ?_ ((updatedAt_directory directory).trans directory.symm) ?_
  · intro name member
    obtain ⟨entry, held⟩ := Option.isSome_iff_exists.mp (Site.mem_listed.mp (List.mem_of_mem_filter member))
    cases entry with
    | directory => exact absurd held (closed name)
    | file bytes => exact settles_updatePage placed sound updatable located directory flat held
  · intro name missing rest
    refine updatedAt_passed sound (closed name) (fun _ => ?_) rest
    by_contra some
    have there := Option.isSome_iff_ne_none.mpr some
    refine missing (List.mem_filter.mpr ⟨Site.mem_listed.mpr there, ?_⟩)
    by_contra bare
    exact closed name ((updatable.entry there).mpr (Bool.eq_false_iff.mpr bare))

theorem settles_folders (sound : tree.Sound) (updatable : Updatable old new tree path place)
    (directory : tree.get? place = some .directory) (deeper : holdsFolder tree place = true) {step : Text → Script Unit}
    (each : ∀ name, tree.get? (place ++ [name]) = some .directory →
      Settles site tree (updatedAt old new tree) (place ++ [name]) (step name)) :
    Settles site tree (updatedAt old new tree) place
      (((site.arrange place (tree.names place)).filter (!Text.mentions ".rst" ·)).forM step) := by
  refine settles_forM (Site.nodup_listed.filter _) ?_ ((updatedAt_directory directory).trans directory.symm) ?_
  · exact fun name member => each name ((mem_folders updatable).mp member)
  · intro name missing rest
    refine updatedAt_passed sound (fun folder => missing ((mem_folders updatable).mpr folder)) (fun flat => ?_) rest
    rw [deeper] at flat
    cases flat

theorem settles_updateImagesUpTo (placed : site.Sound) (sound : tree.Sound) {depth : Nat}
    (updatable : Updatable old new tree path place) (located : site.locate tree path = .ok place)
    (directory : tree.get? place = some .directory)
    (deep : ∀ other, (tree.get? other).isSome = true → other.length < place.length + depth) :
    Settles site tree (updatedAt old new tree) place (updateImagesUpTo old new depth path) := by
  induction depth generalizing path place with
  | zero =>
    have impossible := deep place (by rw [directory]; rfl)
    omega
  | succ depth ih =>
    intro now same fresh
    have listed : (names path).runOn site now = (.ok (site.arrange place (tree.names place)), now) := by
      rw [runOn_names (site.locate_shape same path ▸ located) ((same.directory place).mp directory), same.names]
    rw [updateImagesUpTo_succ, runOn_bind, listed, andThen_ok]
    cases deeper : holdsFolder tree place with
    | false =>
      -- a folder without folders: its pages are all that is listed
      have none : (site.arrange place (tree.names place)).filter (!Text.mentions ".rst" ·) = [] := by
        refine List.eq_nil_iff_forall_not_mem.mpr fun name member => ?_
        rw [holdsFolder_iff.mpr ⟨name, (mem_folders updatable).mp member⟩] at deeper
        cases deeper
      obtain ⟨after, run, settled⟩ := settles_pages placed sound updatable located directory deeper now same fresh
      refine ⟨after, ?_, settled⟩
      simp only [none, List.isEmpty_nil, if_true]
      rw [runOn_bind, listed, andThen_ok, runOn_bind, run, andThen_ok, runOn_forM_nil]
    | true =>
      -- a folder with folders: the walk goes on in them, with one level less to go
      obtain ⟨name, folder⟩ := holdsFolder_iff.mp deeper
      have some : ((site.arrange place (tree.names place)).filter (!Text.mentions ".rst" ·)).isEmpty = false :=
        List.isEmpty_eq_false_iff.mpr (List.ne_nil_of_mem ((mem_folders updatable).mpr folder))
      simp only [some, Bool.false_eq_true, if_false]
      refine settles_folders sound updatable directory deeper (fun name folder => ?_) now same fresh
      have there : (tree.get? (place ++ [name])).isSome = true := by rw [folder]; rfl
      refine ih updatable.below (Site.locate_join placed (sound.named place name there) located directory
        (updatable.short [name] there)) folder fun other inside => ?_
      have bound := deep other inside
      rw [List.length_append, List.length_singleton]
      omega

end

/-- Image paths are updated in the pages of every folder that holds no folder, however deep it lies, whatever the order
in which the folders are listed. A page beside a folder stays as it is, and so does everything that is no page or is not
below the directory. So all pages are updated exactly if that would change no page beside a folder. -/
theorem updateImages_pages {site : Site} {tree : Tree} {folder old new : Text} {place : Place} (placed : site.Sound)
    (sound : tree.Sound) (found : site.find tree folder = .ok (place, .directory))
    (updatable : Updatable old new tree folder place) :
    ∃ after, (updateImages folder old new).runOn site tree = (.ok (), after) ∧
      (∀ front name bytes, tree.get? (place ++ front ++ [name]) = some (.file bytes) →
        after.get? (place ++ front ++ [name]) =
          some (.file (if holdsFolder tree (place ++ front) then bytes else replacedBytes old new bytes))) ∧
      (∀ other, (place <+: other → ∀ bytes, tree.get? other ≠ some (.file bytes)) →
        after.get? other = tree.get? other) ∧
      ((∀ front name bytes, tree.get? (place ++ front ++ [name]) = some (.file bytes) →
          after.get? (place ++ front ++ [name]) = some (.file (replacedBytes old new bytes))) ↔
        ∀ front name bytes, tree.get? (place ++ front ++ [name]) = some (.file bytes) →
          holdsFolder tree (place ++ front) = true → replacedBytes old new bytes = bytes) := by
  obtain ⟨located, directory⟩ := Site.find_eq_ok_iff.mp found
  obtain ⟨after, run, same, below, others⟩ := settles_updateImagesUpTo placed sound updatable located directory
    (fun other there => by
      have bound := Tree.length_le_height there
      show _ < place.length + (tree.height + 2)
      omega) tree (.refl tree) fun _ => rfl
  have pages : ∀ front name bytes, tree.get? (place ++ front ++ [name]) = some (.file bytes) →
      after.get? (place ++ front ++ [name]) =
        some (.file (if holdsFolder tree (place ++ front) then bytes else replacedBytes old new bytes)) := by
    intro front name bytes held
    rw [List.append_assoc, below, ← List.append_assoc, updatedAt_entry, held]
    split <;> rfl
  refine ⟨after, ?_, pages, fun other bare => ?_, ?_⟩
  · rw [updateImages, runOn_bind, runOn_get, andThen_ok, run]
  · by_cases inside : place <+: other
    · obtain ⟨rest, rfl⟩ := inside
      rw [below]
      cases held : tree.get? (place ++ rest) with
      | none => exact updatedAt_none held
      | some entry =>
        cases entry with
        | directory => exact updatedAt_directory held
        | file bytes => exact absurd held (bare (List.prefix_append _ _) bytes)
    · exact others other inside
  · -- pages beside a folder keep their bytes, so all are updated exactly if updating changes none of these
    constructor
    · intro all front name bytes held deeper
      have updated := all front name bytes held
      rw [pages front name bytes held, if_pos deeper] at updated
      exact (Entry.file.inj (Option.some.inj updated)).symm
    · intro settled front name bytes held
      rw [pages front name bytes held]
      split
      · rename_i deeper
        rw [settled front name bytes held deeper]
      · rfl

theorem mem_entries_below {tree : Tree} {place names : Place} (proper : names ≠ [])
    (there : (tree.get? (place ++ names)).isSome = true) :
    names ∈ tree.entries.map fun entry => entry.1.drop place.length := by
  rw [Tree.get?, if_neg (by simp [proper]), Table.isSome_get?] at there
  obtain ⟨entry, member, eq⟩ := List.mem_map.mp there
  exact List.mem_map.mpr ⟨entry, member, by rw [eq, List.drop_left]⟩

def mixedTree : Tree := ⟨[(["p"], .directory), (["p", "a.rst"], .file (Utf8.bytesOf "x\n")),
  (["p", "s"], .directory), (["p", "s", "b.rst"], .file (Utf8.bytesOf "x\n"))]⟩

theorem updatable_sample : Updatable "x" "y" mixedTree "p" ["p"] where
  kinds := by
    have checked : ∀ names ∈ mixedTree.entries.map fun entry => entry.1.drop 1, ∀ name ∈ names.getLast?,
        mixedTree.get? ((["p"] : Place) ++ names) = some .directory ↔ Text.mentions ".rst" name = false := by
          decide +kernel
    intro front name there
    rw [List.append_assoc] at there ⊢
    exact checked _ (mem_entries_below (List.concat_ne_nil _ _) there) name List.getLast?_concat
  short := by
    have checked : ∀ names ∈ mixedTree.entries.map fun entry => entry.1.drop 1,
        Path.size (Path.walked "p" names) ≤ Path.pathLimit := by decide +kernel
    intro names there
    by_cases own : names = []
    · rw [own]
      exact checked [] List.mem_cons_self
    · exact checked names (mem_entries_below own there)
  texts := by
    have checked : ∀ names ∈ mixedTree.entries.map fun entry => entry.1.drop 1,
        mixedTree.get? ((["p"] : Place) ++ names) = some .directory ∨
          mixedTree.get? ((["p"] : Place) ++ names) = some (.file (Utf8.bytesOf "x\n")) := by decide +kernel
    intro front name bytes held _
    rw [List.append_assoc] at held
    rcases checked _ (mem_entries_below (List.concat_ne_nil _ _) (by rw [held]; rfl)) with folder | page
    · cases held.symm.trans folder
    · cases held.symm.trans page
      have decoded : Utf8.decode (Utf8.bytesOf "x\n") = .ok "x\n" := by decide +kernel
      have replaced : Text.replace "x" "y" (Text.unifyNewlines "x\n") = "y\n" := by decide +kernel
      exact ⟨_, decoded, replaced ▸ Text.plain_ofChars _⟩

theorem updateImages_pages_sample : ∃ after,
    (updateImages "p" "x" "y").runOn (.ascending "/workspace" []) mixedTree = (.ok (), after) ∧
      after.get? ["p", "a.rst"] = some (.file (Utf8.bytesOf "x\n")) ∧
      after.get? ["p", "s", "b.rst"] = some (.file (Utf8.bytesOf "y\n")) := by
  have found : (Site.ascending "/workspace" []).find mixedTree "p" = .ok (["p"], .directory) := by decide +kernel
  have mixed : holdsFolder mixedTree ((["p"] : Place) ++ []) = true ∧
      holdsFolder mixedTree ((["p"] : Place) ++ [("s" : Text)]) = false ∧
      replacedBytes "x" "y" (Utf8.bytesOf "x\n") = Utf8.bytesOf "y\n" := by decide +kernel
  obtain ⟨after, run, pages, _⟩ := updateImages_pages (.inr (by decide))
    (Tree.sound_of_isSound (by decide +kernel)) found
    updatable_sample
  have beside := pages [] "a.rst" (Utf8.bytesOf "x\n") (by decide +kernel)
  have inside := pages ["s"] "b.rst" (Utf8.bytesOf "x\n") (by decide +kernel)
  rw [if_pos mixed.1] at beside
  simp only [mixed.2.1, mixed.2.2, Bool.false_eq_true, if_false] at inside
  exact ⟨after, run, beside, inside⟩

end ApiDocs.DataClass
