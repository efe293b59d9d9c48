import ApiDocs.Proofs.File.Lockstep

/-! The steps of a script in two runs. Looking at names and directories gives the same in both; reading gives
the same bytes where the trees do not differ; writing keeps the trees alike. -/

set_option autoImplicit false

namespace ApiDocs.Script

variable {site : Site} {differ : Place → Bytes → Bytes → Prop} {writes : Place → Prop} {base : Tree}

theorem follows_of_look {α β : Type} {related : α → β → Prop} {first : Script α} {second : Script β}
    (look : ∀ tree other, Tree.Twin differ writes base tree other → ∀ value after,
      first.runOn site tree = (.ok value, after) →
        after = tree ∧ ∃ result, second.runOn site other = (.ok result, other) ∧ related value result) :
    Follows site (Tree.Twin differ writes base) (Tree.Twin differ writes base) related first second := by
  intro tree other value after twin run
  obtain ⟨rfl, result, run', holds⟩ := look tree other twin value after run
  exact ⟨result, other, run', holds, twin⟩

theorem follows_names (path : Text) :
    Follows site (Tree.Twin differ writes base) (Tree.Twin differ writes base)
      (fun names others => names = others ∧ ∀ name ∈ names, Path.Named name) (names path) (names path) := by
  apply follows_of_look
  intro tree other twin names after run
  obtain ⟨rfl, place, located, held, rfl⟩ := runOn_names_ok run
  have same := twin.alike.shape
  refine ⟨rfl, _, runOn_names (site.locate_shape same path ▸ located) ((same.directory place).mp held), ?_, ?_⟩
  · rw [same.names]
  · intro name member
    have listed := (site.arrange_perm place _).mem_iff.mp member
    exact twin.grown.sound.named place name (Tree.mem_names.mp listed)

theorem find_shape {tree other : Tree} (same : tree.SameShape other) (path : Text) :
    (∀ place, site.find tree path = .ok (place, .directory) ↔ site.find other path = .ok (place, .directory)) ∧
      (site.find tree path).toOption.isSome = (site.find other path).toOption.isSome := by
  constructor
  · intro place
    rw [Site.find_eq_ok_iff, Site.find_eq_ok_iff, site.locate_shape same, same.directory]
  · unfold Site.find
    rw [site.locate_shape same]
    cases site.locate other path with
    | error refusal => rfl
    | ok place =>
      have present := same.present place
      simp only [bind, Except.bind]
      cases left : tree.get? place <;> cases right : other.get? place <;> simp_all [Except.toOption]

theorem follows_present (path : Text) :
    Follows site (Tree.Twin differ writes base) (Tree.Twin differ writes base) Eq (present path) (present path) := by
  apply follows_of_look
  intro tree other twin answer after run
  rw [runOn_present] at run
  obtain ⟨answer, rfl⟩ := Prod.mk.inj run
  refine ⟨rfl, _, runOn_present site other path, ?_⟩
  rw [← Except.ok.inj answer]
  exact (find_shape twin.alike.shape path).2

theorem isDirectory_shape {tree other : Tree} (same : tree.SameShape other) (path : Text) :
    ((isDirectory path).runOn site tree).1 = ((isDirectory path).runOn site other).1 := by
  obtain ⟨answer, run, seen⟩ := runOn_isDirectory site tree path
  obtain ⟨answer', run', seen'⟩ := runOn_isDirectory site other path
  have agree : answer = answer' := by
    rw [Bool.eq_iff_iff, seen, seen']
    exact exists_congr (find_shape same path).1
  rw [run, run', agree]

theorem follows_readBytes (path : Text) :
    Follows site (Tree.Twin differ writes base) (Tree.Twin differ writes base)
      (fun first second => first = second ∨ ∃ place, site.Leads writes base path place ∧ differ place first second)
      (readBytes path) (readBytes path) := by
  apply follows_of_look
  intro tree other twin bytes after run
  rw [runOn_readBytes] at run
  obtain ⟨read, rfl⟩ := Prod.mk.inj run
  obtain ⟨place, found⟩ := (bytesAt_eq_ok_iff site tree).mp read
  obtain ⟨located, held⟩ := Site.find_eq_ok_iff.mp found
  have same := twin.alike.shape
  obtain ⟨more, there⟩ := same.file held
  have again : site.find other path = .ok (place, .file more) :=
    Site.find_eq_ok_iff.mpr ⟨site.locate_shape same path ▸ located, there⟩
  refine ⟨rfl, more, ?_, (twin.alike.files place bytes more held there).imp_right fun allowed => ?_⟩
  · rw [runOn_readBytes, (bytesAt_eq_ok_iff site other).mpr ⟨place, again⟩]
  · exact ⟨place, ⟨tree, twin.grown, located⟩, allowed⟩

section
variable {path : Text}
  (apart : ∀ place first second, site.Leads writes base path place → ¬differ place first second)
include apart

theorem follows_readBytes_apart :
    Follows site (Tree.Twin differ writes base) (Tree.Twin differ writes base) Eq (readBytes path)
      (readBytes path) := by
  apply (follows_readBytes path).weaken (fun _ _ twin => twin) _ (fun _ _ twin => twin)
  rintro first second (same | ⟨place, leads, differs⟩)
  · exact same
  · exact absurd differs (apart place first second leads)

theorem follows_readText :
    Follows site (Tree.Twin differ writes base) (Tree.Twin differ writes base) Eq (readText path) (readText path) := by
  unfold readText
  apply (follows_readBytes_apart apart).andThen
  intro bytes
  apply Follows.ofExcept_self.andThen
  exact fun text => Follows.pure rfl

theorem follows_readLines_text :
    Follows site (Tree.Twin differ writes base) (Tree.Twin differ writes base)
      (fun lines others => lines = others ∧ ∃ text, lines = Text.lines text) (readLines path) (readLines path) := by
  unfold readLines
  apply (follows_readBytes_apart apart).andThen
  intro bytes
  apply Follows.ofExcept_self.andThen
  exact fun text => Follows.pure ⟨rfl, _, rfl⟩

theorem follows_readLines :
    Follows site (Tree.Twin differ writes base) (Tree.Twin differ writes base) Eq (readLines path) (readLines path) :=
  (follows_readLines_text apart).weaken (fun _ _ twin => twin) (fun _ _ both => both.1) (fun _ _ twin => twin)

theorem follows_readLenient :
    Follows site (Tree.Twin differ writes base) (Tree.Twin differ writes base) Eq
      (readLenient path) (readLenient path) := by
  unfold readLenient
  apply (follows_readBytes_apart apart).andThen
  exact fun bytes => Follows.pure rfl

end

section
variable {path first second : Text}
  (allowed : ∀ place, site.Leads writes base path place → place ≠ [] → writes place)
  (plain : first.Plain → second.Plain)
include allowed

theorem Twin.writable {tree other : Tree} (twin : Tree.Twin differ writes base tree other) {place : Place}
    {bytes : Bytes} (found : Script.writable path site tree = .ok (place, bytes)) :
    site.Leads writes base path place ∧ writes place ∧
      (∃ more, Script.writable path site other = .ok (place, more) ∧ (bytes = more ∨ differ place bytes more)) ∧
      ∀ left right, left = right ∨ differ place left right →
        Tree.Twin differ writes base (tree.put place (.file left)) (other.put place (.file right)) := by
  have located := locate_of_writable found
  have leads : site.Leads writes base path place := ⟨tree, twin.grown, located⟩
  have vacant := not_directory_of_writable found
  have proper := (Site.locate_cases twin.grown.sound located).resolve_left vacant
  have inner : place ≠ [] := by rintro rfl; exact vacant rfl
  obtain ⟨more, found', held | ⟨_, _, rfl, rfl⟩⟩ := writable_shape twin.alike.shape found
  all_goals refine ⟨leads, allowed place leads inner, ⟨_, found', ?_⟩, fun left right related =>
    ⟨twin.alike.put related, twin.grown.putFile (allowed place leads inner) vacant proper _, twin.distinct.put _ _⟩⟩
  · exact twin.alike.files place bytes more held.1 held.2
  · exact .inl rfl

include plain

theorem follows_writeText
    (texts : first = second ∨ ∀ place, site.Leads writes base path place → writes place →
      differ place (Utf8.bytesOf first) (Utf8.bytesOf second)) :
    Follows site (Tree.Twin differ writes base) (Tree.Twin differ writes base) Eq
      (writeText path first) (writeText path second) := by
  intro tree other value after twin run
  obtain ⟨good, place, bytes, found, rfl⟩ := runOn_writeText_ok site tree run
  obtain ⟨leads, inside, ⟨more, found', _⟩, keeps⟩ := Twin.writable allowed twin found
  refine ⟨(), _, runOn_writeText_of site other (plain good) found', rfl, keeps _ _ ?_⟩
  exact texts.imp (congrArg Utf8.bytesOf) fun differs => differs place leads inside

theorem follows_appendText
    (texts : ∀ place left right, site.Leads writes base path place → writes place →
      left = right ∨ differ place left right →
      left ++ Utf8.bytesOf first = right ++ Utf8.bytesOf second ∨
        differ place (left ++ Utf8.bytesOf first) (right ++ Utf8.bytesOf second)) :
    Follows site (Tree.Twin differ writes base) (Tree.Twin differ writes base) Eq
      (appendText path first) (appendText path second) := by
  intro tree other value after twin run
  obtain ⟨good, place, bytes, found, rfl⟩ := runOn_appendText_ok site tree run
  obtain ⟨leads, inside, ⟨more, found', related⟩, keeps⟩ := Twin.writable allowed twin found
  exact ⟨(), _, runOn_appendText_of site other (plain good) found', rfl,
    keeps _ _ (texts place bytes more leads inside related)⟩

end

theorem Twin.congr {tree other final : Tree} (twin : Tree.Twin differ writes base tree other)
    (same : ∀ place, final.get? place = other.get? place) (distinct : final.Distinct) :
    Tree.Twin differ writes base tree final where
  alike := by
    refine ⟨⟨fun place => ?_, fun place => ?_⟩, fun place first second held there => ?_⟩
    · rw [same]; exact twin.alike.shape.directory place
    · rw [same]; exact twin.alike.shape.present place
    · rw [same] at there; exact twin.alike.files place first second held there
  grown := twin.grown
  distinct := distinct

theorem writable_after {path text other more : Text} {tree after : Tree} {place : Place}
    (held : writable path site tree = .ok (place, Utf8.bytesOf text))
    (run : (writeText other more).runOn site tree = (.ok (), after))
    (agree : ∀ bytes, writable other site tree = .ok (place, bytes) → more = text) :
    writable path site after = .ok (place, Utf8.bytesOf text) := by
  obtain ⟨_, spot, bytes, found, rfl⟩ := runOn_writeText_ok site tree run
  by_cases same : spot = place
  · subst same
    rw [agree bytes found]
    exact writable_put held _
  · exact writable_put_apart held (not_directory_of_writable found) same _

section
variable {α : Type} {path text : α → Text}

theorem writable_forM {items : List α}
    (agree : ∀ first ∈ items, ∀ second ∈ items, ∀ tree place bytes more,
      writable (path first) site tree = .ok (place, bytes) → writable (path second) site tree = .ok (place, more) →
      text first = text second)
    {tree after : Tree} (run : (items.forM fun item => writeText (path item) (text item)).runOn site tree =
      (.ok (), after)) :
    ∀ item ∈ items, (text item).Plain ∧
      ∃ place, writable (path item) site after = .ok (place, Utf8.bytesOf (text item)) := by
  -- the loop is cut into what has been written and what is still to come
  suffices general : ∀ (done rest : List α) (tree : Tree), items = done ++ rest →
      (∀ item ∈ done, (text item).Plain ∧
        ∃ place, writable (path item) site tree = .ok (place, Utf8.bytesOf (text item))) →
      (rest.forM fun item => writeText (path item) (text item)).runOn site tree = (.ok (), after) →
      ∀ item ∈ items, (text item).Plain ∧
        ∃ place, writable (path item) site after = .ok (place, Utf8.bytesOf (text item)) by
    exact general [] items tree rfl (by simp) run
  clear run
  intro done rest
  induction rest generalizing done with
  | nil =>
    intro tree cut held run
    cases run
    rwa [cut, List.append_nil]
  | cons next rest ih =>
    intro tree cut held run
    obtain ⟨_, between, first, further⟩ := runOn_bind_ok run
    obtain ⟨plain, spot, bytes, found, rfl⟩ := runOn_writeText_ok site tree first
    refine ih (done ++ [next]) _ (by rw [cut, List.append_assoc]; rfl) (fun item member => ?_) further
    rcases List.mem_append.mp member with old | new
    · obtain ⟨plain, place, there⟩ := held item old
      refine ⟨plain, place, writable_after there first fun more other => ?_⟩
      exact agree next (by simp [cut]) item (by simp [cut, old]) tree place more _ other there
    · rw [List.mem_singleton.mp new]
      exact ⟨plain, spot, writable_put found _⟩

theorem writable_congr {tree other : Tree} (same : ∀ place, other.get? place = tree.get? place) {path : Text}
    {place : Place} {bytes : Bytes} (found : writable path site tree = .ok (place, bytes)) :
    writable path site other = .ok (place, bytes) := by
  obtain ⟨bare, located, held⟩ := writable_eq_ok_iff.mp found
  refine writable_eq_ok_iff.mpr ⟨bare, ?_, ?_⟩
  · exact Site.locate_keeps (fun place directory => (same place).trans directory) located
  · rwa [same]

/-- Texts that are written again change nothing. -/
theorem runOn_forM_again {items : List α} {tree : Tree} (distinct : tree.Distinct)
    (held : ∀ item ∈ items, (text item).Plain ∧ Utf8.bytesOf (text item) ≠ [] ∧
      ∃ place, writable (path item) site tree = .ok (place, Utf8.bytesOf (text item))) :
    ∃ after, (items.forM fun item => writeText (path item) (text item)).runOn site tree = (.ok (), after) ∧
      (∀ place, after.get? place = tree.get? place) ∧ after.Distinct := by
  induction items generalizing tree with
  | nil => exact ⟨tree, rfl, fun _ => rfl, distinct⟩
  | cons item items ih =>
    obtain ⟨plain, proper, place, found⟩ := held item List.mem_cons_self
    -- an empty file could have been absent, so the text must have bytes
    have there : tree.get? place = some (.file (Utf8.bytesOf (text item))) :=
      (writable_spec found).resolve_right fun vacant => proper vacant.2
    have same : ∀ other, (tree.put place (.file (Utf8.bytesOf (text item)))).get? other = tree.get? other := by
      intro other
      by_cases here : place = other
      · rw [← here, Tree.get?_put_file _ there, there]
      · exact Tree.get?_put_apart _ _ here
    obtain ⟨after, run, kept, still⟩ := ih (distinct.put place _) fun other member => by
      obtain ⟨plain, proper, spot, there⟩ := held other (List.mem_cons_of_mem _ member)
      exact ⟨plain, proper, spot, writable_congr same there⟩
    refine ⟨after, ?_, fun other => (kept other).trans (same other), still⟩
    rw [runOn_forM_cons, runOn_writeText_of site tree plain found, andThen_ok, run]

/-- A loop that goes on with what it has written already does the same. -/
theorem follows_forM_again {items more : List α} (subset : more ⊆ items)
    (agree : ∀ first ∈ items, ∀ second ∈ items, ∀ tree place bytes others,
      writable (path first) site tree = .ok (place, bytes) → writable (path second) site tree = .ok (place, others) →
      text first = text second)
    (proper : ∀ item ∈ items, Utf8.bytesOf (text item) ≠ [])
    (allowed : ∀ item ∈ items, ∀ place, site.Leads writes base (path item) place → place ≠ [] → writes place) :
    Follows site (Tree.Twin differ writes base) (Tree.Twin differ writes base) Eq
      (items.forM fun item => writeText (path item) (text item))
      ((items ++ more).forM fun item => writeText (path item) (text item)) := by
  intro tree other value after twin run
  have once : Follows site (Tree.Twin differ writes base) (Tree.Twin differ writes base) Eq
      (items.forM fun item => writeText (path item) (text item))
      (items.forM fun item => writeText (path item) (text item)) :=
    Follows.forM fun item member => follows_writeText (allowed item member) (fun plain => plain) (.inl rfl)
  obtain ⟨_, between, first, _, twin⟩ := once tree other value after twin run
  -- after the first loop each path holds its own text, as no two of different texts share a place
  have held := writable_forM agree first
  have further : ∀ item ∈ more, (text item).Plain ∧ Utf8.bytesOf (text item) ≠ [] ∧
      ∃ place, writable (path item) site between = .ok (place, Utf8.bytesOf (text item)) := by
    intro item member
    obtain ⟨plain, there⟩ := held item (subset member)
    exact ⟨plain, proper item (subset member), there⟩
  obtain ⟨final, again, same, distinct⟩ := runOn_forM_again twin.distinct further
  refine ⟨(), final, ?_, rfl, Twin.congr twin same distinct⟩
  rw [runOn_forM_append, first, andThen_ok, again]

end

/-- A script that comes to the same outcome in both runs, be it a failure. -/
def Mirrors {α : Type} (site : Site) (keep : Tree → Tree → Prop) (script : Script α) : Prop :=
  ∀ tree other, keep tree other → (script.runOn site tree).1 = (script.runOn site other).1 ∧
    keep (script.runOn site tree).2 (script.runOn site other).2

section
variable {α β : Type} {keep : Tree → Tree → Prop}

theorem Mirrors.follows {script : Script α} (mirrors : Mirrors site keep script) :
    Follows site keep keep Eq script script := by
  intro tree other value after kept run
  obtain ⟨same, kept⟩ := mirrors tree other kept
  rcases right : script.runOn site other with ⟨outcome, final⟩
  rw [run, right] at same kept
  obtain rfl : .ok value = outcome := same
  exact ⟨value, final, rfl, rfl, kept⟩

theorem Mirrors.pure (value : α) : Mirrors site keep (pure value) := fun _ _ kept => ⟨rfl, kept⟩

theorem Mirrors.throw (fault : Fault) : Mirrors site keep (throw fault : Script α) := fun _ _ kept => ⟨rfl, kept⟩

theorem Mirrors.bind_known {first : Script α} {next : α → Script β} {known : α → Prop} (begin : Mirrors site keep first)
    (values : ∀ tree value after, first.runOn site tree = (.ok value, after) → known value)
    (rest : ∀ value, known value → Mirrors site keep (next value)) : Mirrors site keep (first >>= next) := by
  intro tree other kept
  obtain ⟨same, kept⟩ := begin tree other kept
  rw [runOn_bind, runOn_bind]
  rcases left : first.runOn site tree with ⟨outcome, after⟩
  rcases right : first.runOn site other with ⟨outcome', after'⟩
  rw [left, right] at same kept
  obtain rfl : outcome = outcome' := same
  cases outcome with
  | error fault => exact ⟨rfl, kept⟩
  | ok value => exact rest value (values tree value after left) after after' kept

theorem Mirrors.bind {first : Script α} {next : α → Script β} (begin : Mirrors site keep first)
    (rest : ∀ value, Mirrors site keep (next value)) : Mirrors site keep (first >>= next) :=
  begin.bind_known (fun _ _ _ _ => trivial) fun value _ => rest value

theorem Mirrors.tryCatch {script : Script α} {rescue : Fault → Script α} (begin : Mirrors site keep script)
    (rest : ∀ fault, Mirrors site keep (rescue fault)) : Mirrors site keep (tryCatch script rescue) := by
  intro tree other kept
  obtain ⟨same, kept⟩ := begin tree other kept
  rw [runOn_tryCatch, runOn_tryCatch]
  rcases left : script.runOn site tree with ⟨outcome, after⟩
  rcases right : script.runOn site other with ⟨outcome', after'⟩
  rw [left, right] at same kept
  obtain rfl : outcome = outcome' := same
  cases outcome with
  | error fault => exact rest fault after after' kept
  | ok value => exact ⟨rfl, kept⟩

end

theorem mirrors_present (path : Text) : Mirrors site (Tree.Twin differ writes base) (present path) := by
  intro tree other twin
  rw [runOn_present, runOn_present, (find_shape twin.alike.shape path).2]
  exact ⟨rfl, twin⟩

theorem mirrors_isDirectory (path : Text) : Mirrors site (Tree.Twin differ writes base) (isDirectory path) := by
  intro tree other twin
  refine ⟨isDirectory_shape twin.alike.shape path, ?_⟩
  obtain ⟨answer, run, _⟩ := runOn_isDirectory site tree path
  obtain ⟨answer', run', _⟩ := runOn_isDirectory site other path
  rw [run, run']
  exact twin

theorem mirrors_makeDirectory (path : Text) :
    Mirrors site (Tree.Twin differ writes base) (makeDirectory path) := by
  intro tree other twin
  have same := twin.alike.shape
  unfold makeDirectory
  rw [runOn_bind, runOn_bind, runOn_inspect, runOn_inspect]
  cases accepted : Path.accept path with
  | error refusal => exact ⟨rfl, twin⟩
  | ok known =>
    simp only [bind, Except.bind]
    rw [← site.locate_shape same]
    cases located : site.locate tree (Path.dropSlashes known) with
    | error refusal => exact ⟨rfl, twin⟩
    | ok place =>
      simp only [← same.present place]
      cases held : tree.get? place with
      | some entry => exact ⟨rfl, twin⟩
      | none =>
        have proper := (Site.locate_cases twin.grown.sound located).resolve_left (by rw [held]; intro eq; cases eq)
        exact ⟨rfl, twin.alike.putDirectory place, twin.grown.putDirectory held proper, twin.distinct.put _ _⟩

theorem mirrors_makeDirectoriesUpTo_of {keep : Tree → Tree → Prop} (present : ∀ path, Mirrors site keep (present path))
    (isDirectory : ∀ path, Mirrors site keep (isDirectory path))
    (makeDirectory : ∀ path, Mirrors site keep (makeDirectory path)) (existing : Bool) (depth : Nat) (path : Text) :
    Mirrors site keep (makeDirectoriesUpTo existing depth path) := by
  induction depth generalizing path with
  | zero => exact Mirrors.throw _
  | succ depth ih =>
    have last : Mirrors site keep (tryCatch (Script.makeDirectory path) fun fault => do
        if existing && (← Script.isDirectory path) then pure () else throw fault) := by
      apply (makeDirectory path).tryCatch
      intro fault
      apply (isDirectory path).bind
      intro answer
      split
      · exact Mirrors.pure ()
      · exact Mirrors.throw fault
    unfold Script.makeDirectoriesUpTo
    dsimp only
    -- a path that ends with a slash is made as the one without it
    generalize (if (Path.base path).isEmpty = true then Path.directory path else path) = inner
    apply Mirrors.bind
    · exact present _
    intro answer
    by_cases missing : (!(Path.directory inner).isEmpty && !(Path.base inner).isEmpty && !answer) = true
    · rw [if_pos missing]
      apply Mirrors.bind
      · apply Mirrors.tryCatch
        · exact ih _
        · intro fault
          split
          · exact Mirrors.pure ()
          · exact Mirrors.throw _
      · intro _
        split
        · exact Mirrors.pure ()
        · exact last
    · rw [if_neg missing]
      exact last

theorem mirrors_makeDirectoriesUpTo (existing : Bool) (depth : Nat) (path : Text) :
    Mirrors site (Tree.Twin differ writes base) (makeDirectoriesUpTo existing depth path) :=
  mirrors_makeDirectoriesUpTo_of mirrors_present mirrors_isDirectory mirrors_makeDirectory existing depth path

theorem follows_makeDirectories (path : Text) (existing : Bool) :
    Follows site (Tree.Twin differ writes base) (Tree.Twin differ writes base) Eq
      (makeDirectories path existing) (makeDirectories path existing) :=
  (mirrors_makeDirectoriesUpTo existing _ path).follows

end ApiDocs.Script
