import ApiDocs.Proofs.Pages.Again
import ApiDocs.Proofs.StubBeside
import ApiDocs.Proofs.Text.Lines

/-! Stubs that are gathered in two runs. The second run begins with the stubs that the first one left, lists them
with the modules and passes over them; to each file of stubs both runs append the same sections. -/

set_option autoImplicit false

namespace ApiDocs

namespace Text

theorem sort_filter_congr {texts others : List Text} {test : Text → Bool} (nodup : texts.Nodup) (nodup' : others.Nodup)
    (same : ∀ text, test text = true → (text ∈ texts ↔ text ∈ others)) :
    (sort texts).filter test = (sort others).filter test := by
  refine List.Perm.eq_of_pairwise (fun _ _ _ _ => le_antisymm) ((sorted_sort _).filter _) ((sorted_sort _).filter _) ?_
  refine (List.perm_ext_iff_of_nodup (((sort_perm _).nodup_iff.mpr nodup).filter _)
    (((sort_perm _).nodup_iff.mpr nodup').filter _)).mpr fun text => ?_
  rw [List.mem_filter, List.mem_filter, (sort_perm _).mem_iff, (sort_perm _).mem_iff]
  constructor
  · exact fun both => ⟨(same text both.2).mp both.1, both.2⟩
  · exact fun both => ⟨(same text both.2).mpr both.1, both.2⟩

end Text

namespace Stub

open Script ApiDocs.Module

theorem stubPlace_inj {lib : Place} {kind other : Text} (same : stubPlace lib kind = stubPlace lib other) :
    kind = other := (List.cons.inj (List.append_cancel_left same)).1

def isStub (lib place : Place) : Bool := kinds.any fun kind => place == stubPlace lib kind

theorem isStub_iff {lib place : Place} : isStub lib place = true ↔ ∃ kind ∈ kinds, place = stubPlace lib kind := by
  simp [isStub]

def Quiet (bytes : Bytes) : Prop := Text.mentions "\n    def " (Text.unifyNewlines (Utf8.decodeLenient bytes)) = false

def grown (entry : Option Entry) (added : Text) : Option Entry :=
  if added = [] then entry
  else match entry with
    | some (.file bytes) => some (.file (bytes ++ Utf8.bytesOf added))
    | _ => some (.file (Utf8.bytesOf added))

theorem grown_nil (entry : Option Entry) : grown entry [] = entry := by simp [grown]

theorem grown_ne_directory {entry : Option Entry} (file : entry ≠ some .directory) (added : Text) :
    grown entry added ≠ some .directory := by
  unfold grown
  split
  · exact file
  · split <;> simp

theorem isSome_grown {entry : Option Entry} (present : entry.isSome = true) (added : Text) :
    (grown entry added).isSome = true := by
  unfold grown
  split
  · exact present
  · split <;> rfl

theorem grown_append {entry : Option Entry} {bytes : Bytes} {added more : Text}
    (held : grown entry added = some (.file bytes) ∨ grown entry added = none ∧ bytes = []) (proper : more ≠ []) :
    grown entry (added ++ more) = some (.file (bytes ++ Utf8.bytesOf more)) := by
  have whole : added ++ more ≠ [] := by simp [proper]
  unfold grown at held ⊢
  rw [if_neg whole]
  by_cases empty : added = []
  · rw [if_pos empty] at held
    subst empty
    rcases held with held | ⟨held, rfl⟩ <;> rw [held] <;> rfl
  · rw [if_neg empty] at held
    rcases held with held | ⟨held, _⟩
    · split at held <;> cases held <;> simp [Utf8.bytesOf]
    · split at held <;> cases held

/-- A tree to whose stubs texts have been appended. -/
structure Gathered (lib : Place) (base tree : Tree) (added : Text → Text) : Prop where
  others : ∀ place, isStub lib place = false → tree.get? place = base.get? place
  stubs : ∀ kind ∈ kinds, tree.get? (stubPlace lib kind) = grown (base.get? (stubPlace lib kind)) (added kind)

theorem gathered_refl (lib : Place) (tree : Tree) : Gathered lib tree tree fun _ => [] :=
  ⟨fun _ _ => rfl, fun _ _ => (grown_nil _).symm⟩

section
variable {lib : Place} {base tree : Tree} {added : Text → Text} (gathered : Gathered lib base tree added)
  (files : ∀ kind ∈ kinds, base.get? (stubPlace lib kind) ≠ some .directory)
include gathered

theorem Gathered.cases (place : Place) : (∃ kind ∈ kinds, place = stubPlace lib kind ∧
    tree.get? place = grown (base.get? place) (added kind)) ∨ isStub lib place = false ∧
      tree.get? place = base.get? place := by
  cases stub : isStub lib place with
  | false => exact .inr ⟨rfl, gathered.others place stub⟩
  | true =>
    obtain ⟨kind, member, rfl⟩ := isStub_iff.mp stub
    exact .inl ⟨kind, member, rfl, gathered.stubs kind member⟩

theorem Gathered.present {place : Place} (held : (base.get? place).isSome = true) :
    (tree.get? place).isSome = true := by
  rcases gathered.cases place with ⟨kind, _, _, eq⟩ | ⟨_, eq⟩ <;> rw [eq]
  · exact isSome_grown held _
  · exact held

include files

theorem Gathered.directory (place : Place) : tree.get? place = some .directory ↔ base.get? place = some .directory := by
  rcases gathered.cases place with ⟨kind, member, rfl, eq⟩ | ⟨_, eq⟩
  · rw [eq]
    exact ⟨fun held => absurd held (grown_ne_directory (files kind member) _),
      fun held => absurd held (files kind member)⟩
  · rw [eq]

theorem Gathered.locate {site : Site} {path : Text} {place : Place} :
    site.locate tree path = .ok place ↔ site.locate base path = .ok place :=
  ⟨Site.locate_keeps fun place held => (gathered.directory files place).mp held,
    Site.locate_keeps fun place held => (gathered.directory files place).mpr held⟩

end

theorem Added.unifyNewlines {text : Text} (added : Added text) : Added (Text.unifyNewlines text) := by
  constructor
  · intro proper
    have nonempty : text ≠ [] := by
      rintro rfl
      exact proper rfl
    obtain ⟨rest, rfl⟩ := added.marked nonempty
    exact ⟨Text.unifyNewlines rest, rfl⟩
  · rcases added.ended with rfl | ⟨body, rfl⟩
    · exact .inl rfl
    · exact .inr (Text.unifyNewlines_line body)

structure Section (text : Text) : Prop where
  added : Added text
  plain : text.Plain
  quiet : Text.mentions "\n    def " (Text.unifyNewlines text) = false

theorem section_nil : Section [] := ⟨added_nil, fun _ member => absurd member List.not_mem_nil, rfl⟩

/-- A file with sections at its end is read as the file and then the sections. -/
theorem read_sections (bytes : Bytes) {text : Text} (part : Added text) (plain : text.Plain) :
    Text.unifyNewlines (Utf8.decodeLenient (bytes ++ Utf8.bytesOf text)) =
      Text.unifyNewlines (Utf8.decodeLenient bytes) ++ Text.unifyNewlines text := by
  by_cases empty : text = []
  · simp [empty, Utf8.bytesOf, Text.unifyNewlines]
  · obtain ⟨rest, rfl⟩ := part.marked empty
    have bytesEq : Utf8.bytesOf (.char '#' :: rest) = 0x23 :: Utf8.bytesOf rest := rfl
    have whole := Utf8.decodeLenient_bytesOf plain
    rw [bytesEq] at whole ⊢
    rw [Utf8.decodeLenient_low (by decide), whole, Text.unifyNewlines_mark _ _ (by decide)]

theorem unify_sections (text : Text) {more : Text} (part : Added more) :
    Text.unifyNewlines (text ++ more) = Text.unifyNewlines text ++ Text.unifyNewlines more := by
  by_cases empty : more = []
  · simp [empty, Text.unifyNewlines]
  · obtain ⟨rest, rfl⟩ := part.marked empty
    exact Text.unifyNewlines_mark _ _ (by decide)

theorem quiet_append {text more : Text} (part : Added more) (first : Text.mentions "\n    def " text = false)
    (second : Text.mentions "\n    def " more = false) : Text.mentions "\n    def " (text ++ more) = false := by
  rw [Bool.eq_false_iff]
  intro found
  rcases part.infix_append (by decide) (Text.mentions_iff.mp found) with left | right
  · exact absurd (Text.mentions_iff.mpr left) (by rw [first]; decide)
  · exact absurd (Text.mentions_iff.mpr right) (by rw [second]; decide)

theorem Section.append {first second : Text} (left : Section first) (right : Section second) :
    Section (first ++ second) := by
  refine ⟨left.added.append right.added, Text.plain_append.mpr ⟨left.plain, right.plain⟩, ?_⟩
  rw [unify_sections _ right.added]
  exact quiet_append right.added.unifyNewlines left.quiet right.quiet

theorem quiet_grown {entry : Option Entry} {added : Text} (part : Section added)
    (quiet : ∀ bytes, entry = some (.file bytes) → Quiet bytes) {bytes : Bytes}
    (held : grown entry added = some (.file bytes)) : Quiet bytes := by
  unfold grown at held
  split at held
  · exact quiet bytes held
  · split at held
    · rename_i old
      cases held
      unfold Quiet
      rw [read_sections _ part.added part.plain]
      exact quiet_append part.added.unifyNewlines (quiet old rfl) part.quiet
    · cases held
      unfold Quiet
      rw [Utf8.decodeLenient_bytesOf part.plain]
      exact part.quiet

/-- Two trees that differ in their stubs only. The stubs of the first may be missing. -/
structure Comparable (lib : Place) (base other : Tree) : Prop where
  same : ∀ place, isStub lib place = false → base.get? place = other.get? place
  files : ∀ kind ∈ kinds, base.get? (stubPlace lib kind) ≠ some .directory
  otherFiles : ∀ kind ∈ kinds, other.get? (stubPlace lib kind) ≠ some .directory
  quiet : ∀ kind ∈ kinds, ∀ bytes, base.get? (stubPlace lib kind) = some (.file bytes) → Quiet bytes
  otherQuiet : ∀ kind ∈ kinds, ∀ bytes, other.get? (stubPlace lib kind) = some (.file bytes) → Quiet bytes

/-- What two runs have come to that have appended the same sections. Stubs that the second run may have listed are
there. -/
def Together (lib : Place) (base other : Tree) (listed : Text → Prop) (tree counterpart : Tree) : Prop :=
  ∃ added, (∀ kind ∈ kinds, Section (added kind)) ∧ Gathered lib base tree added ∧
    Gathered lib other counterpart added ∧
    ∀ kind ∈ kinds, listed kind → (counterpart.get? (stubPlace lib kind)).isSome = true

section
variable {lib : Place} {base other : Tree} (comparable : Comparable lib base other)
include comparable

theorem Comparable.directory (place : Place) :
    base.get? place = some .directory ↔ other.get? place = some .directory := by
  cases stub : isStub lib place with
  | false => rw [comparable.same place stub]
  | true =>
    obtain ⟨kind, member, rfl⟩ := isStub_iff.mp stub
    exact ⟨fun held => absurd held (comparable.files kind member),
      fun held => absurd held (comparable.otherFiles kind member)⟩

variable {listed : Text → Prop} {tree counterpart : Tree} (together : Together lib base other listed tree counterpart)
include together

theorem Together.directory (place : Place) :
    tree.get? place = some .directory ↔ counterpart.get? place = some .directory := by
  obtain ⟨added, _, left, right, _⟩ := together
  rw [left.directory comparable.files, right.directory comparable.otherFiles, comparable.directory]

theorem Together.locate {site : Site} {path : Text} {place : Place} (located : site.locate tree path = .ok place) :
    site.locate counterpart path = .ok place :=
  Site.locate_keeps (fun place held => (Together.directory comparable together place).mp held) located

theorem Together.root {site : Site} {path : Text} {place : Place} :
    site.locate tree path = .ok place ↔ site.locate base path = .ok place := by
  obtain ⟨added, _, left, _, _⟩ := together
  exact left.locate comparable.files

theorem Together.others {place : Place} (stub : isStub lib place = false) :
    tree.get? place = base.get? place ∧ counterpart.get? place = base.get? place := by
  obtain ⟨added, _, left, right, _⟩ := together
  exact ⟨left.others place stub, (right.others place stub).trans (comparable.same place stub).symm⟩

theorem Together.quiet {kind : Text} (member : kind ∈ kinds) {bytes : Bytes}
    (held : tree.get? (stubPlace lib kind) = some (.file bytes) ∨
      counterpart.get? (stubPlace lib kind) = some (.file bytes)) :
    Quiet bytes := by
  obtain ⟨added, sections, left, right, _⟩ := together
  rcases held with held | held
  · rw [left.stubs kind member] at held
    exact quiet_grown (sections kind member) (comparable.quiet kind member) held
  · rw [right.stubs kind member] at held
    exact quiet_grown (sections kind member) (comparable.otherQuiet kind member) held

omit comparable in
theorem Together.append {kind : Text} (member : kind ∈ kinds) {more : Text} (part : Section more) (proper : more ≠ [])
    {bytes bytes' : Bytes}
    (held : tree.get? (stubPlace lib kind) = some (.file bytes) ∨ tree.get? (stubPlace lib kind) = none ∧ bytes = [])
    (held' : counterpart.get? (stubPlace lib kind) = some (.file bytes') ∨
      counterpart.get? (stubPlace lib kind) = none ∧ bytes' = []) :
    Together lib base other listed (tree.put (stubPlace lib kind) (.file (bytes ++ Utf8.bytesOf more)))
      (counterpart.put (stubPlace lib kind) (.file (bytes' ++ Utf8.bytesOf more))) := by
  obtain ⟨added, sections, left, right, present⟩ := together
  have inner : ∀ kind, stubPlace lib kind ≠ [] := fun kind => by simp [stubPlace]
  -- one tree after the other, whatever it began with
  have grows : ∀ {base tree : Tree} {bytes : Bytes}, Gathered lib base tree added →
      (tree.get? (stubPlace lib kind) = some (.file bytes) ∨ tree.get? (stubPlace lib kind) = none ∧ bytes = []) →
      Gathered lib base (tree.put (stubPlace lib kind) (.file (bytes ++ Utf8.bytesOf more)))
        (Function.update added kind (added kind ++ more)) := by
    intro base tree bytes gathered held
    refine ⟨fun place stub => ?_, fun kind' member' => ?_⟩
    · have apart : stubPlace lib kind ≠ place := by
        rintro rfl
        rw [isStub_iff.mpr ⟨kind, member, rfl⟩] at stub
        cases stub
      rw [Tree.get?_put_apart _ _ apart]
      exact gathered.others place stub
    · rw [Tree.get?_put _ _ _ _ (inner kind')]
      by_cases same : kind = kind'
      · subst same
        rw [gathered.stubs kind member] at held
        rw [if_pos rfl, Function.update_self, grown_append held proper]
      · rw [if_neg fun eq => same (stubPlace_inj eq), Function.update_of_ne (Ne.symm same)]
        exact gathered.stubs kind' member'
  refine ⟨_, fun kind' member' => ?_, grows left held, grows right held', fun kind' member' shown => ?_⟩
  · by_cases same : kind' = kind
    · subst same
      rw [Function.update_self]
      exact (sections kind' member').append part
    · rw [Function.update_of_ne same]
      exact sections kind' member'
  · rw [Tree.get?_put _ _ _ _ (inner kind')]
    split
    · rfl
    · exact present kind' member' shown

end

theorem runOn_appendModule_quiet {site : Site} {tree : Tree} {path : Text} {place : Place} {bytes : Bytes}
    (found : site.find tree path = .ok (place, .file bytes)) (quiet : Quiet bytes) (location : Module.Location) :
    (appendModule location path).runOn site tree = (.ok (), tree) := by
  unfold appendModule
  rw [Script.runOn_bind, runOn_readLenient_of _ _ found, andThen_ok, if_neg (by rw [quiet]; decide)]
  rfl

/-- Modules with methods of a data class lie directly in the directory of the class, and their sections have no
indented definition. -/
def Flat (settings : Settings) (lib : Place) (tree : Tree) : Prop :=
  ∀ names name bytes file, Visited settings names → isStub lib (lib ++ names ++ [name]) = false →
    tree.get? (lib ++ names ++ [name]) = some (.file bytes) →
    Module.isModule (Path.join (Path.walked settings.library names) name) = true → ¬Quiet bytes →
    fileName? (dottedName settings names name) = some file →
    ∃ kind ∈ kinds, names = [kind] ∧ file = stubName kind ∧
      Text.mentions "\n    def " (Text.unifyNewlines
        (extract (dottedName settings names name) (Text.unifyNewlines (Utf8.decodeLenient bytes))).flatten) = false

section
variable {site : Site} (sound : site.Sound) {settings : Settings} {lib : Place} {base other : Tree}
  (comparable : Comparable lib base other) (flat : Flat settings lib base)
  (located : site.locate base settings.library = .ok lib) {listed : Text → Prop}
include sound comparable located

theorem Together.place {tree counterpart : Tree} (together : Together lib base other listed tree counterpart)
    {names : Place} (named : ∀ name ∈ names, Path.Named name) {place : Place}
    (further : site.locate tree (Path.walked settings.library names) = .ok place) : place = lib ++ names :=
  Site.locate_walked sound named ((Together.root comparable together).mpr located) further

/-- A section that one run can append to a file of stubs can be appended by the other one too. -/
theorem follows_appendSection {kind : Text} (member : kind ∈ kinds) {pieces : List Text}
    (added : Added pieces.flatten) (proper : pieces.flatten ≠ [])
    (quiet : Text.mentions "\n    def " (Text.unifyNewlines pieces.flatten) = false) :
    Follows site (Together lib base other listed) (Together lib base other listed) Eq
      (appendPieces (Path.walked settings.library [kind, stubName kind]) pieces)
      (appendPieces (Path.walked settings.library [kind, stubName kind]) pieces) := by
  have named : ∀ name ∈ [kind, stubName kind], Path.Named name := by
    apply Path.named_of_all
    simp only [kinds, List.mem_cons, List.not_mem_nil, or_false] at member
    rcases member with rfl | rfl <;> decide
  intro tree counterpart value after together run
  cases found : writable (Path.walked settings.library [kind, stubName kind]) site tree with
  | error refusal => rw [runOn_appendPieces_refused site tree found] at run; cases run
  | ok pair =>
    obtain ⟨place, bytes⟩ := pair
    obtain ⟨known, there, held⟩ := writable_eq_ok_iff.mp found
    obtain rfl : place = stubPlace lib kind := Together.place sound comparable located together named there
    rw [runOn_appendPieces site tree found] at run
    obtain ⟨outcome, written, wrote, _, plain, complete⟩ := runOn_writeAfter site tree bytes (stubPlace lib kind) pieces
    rw [wrote] at run
    obtain ⟨eq, rfl⟩ := Prod.mk.inj run
    obtain rfl := complete.mp eq
    -- the other file of stubs is there or is made
    have held' : ∃ bytes', counterpart.get? (stubPlace lib kind) = some (.file bytes') ∨
        counterpart.get? (stubPlace lib kind) = none ∧ bytes' = [] := by
      cases entry : counterpart.get? (stubPlace lib kind) with
      | none => exact ⟨[], .inr ⟨rfl, rfl⟩⟩
      | some entry' =>
        cases entry' with
        | file bytes' => exact ⟨bytes', .inl rfl⟩
        | directory =>
          have directory := (Together.directory comparable together _).mpr entry
          rcases held with held | ⟨held, _⟩ <;> rw [held] at directory <;> cases directory
    obtain ⟨bytes', held'⟩ := held'
    have found' : writable (Path.walked settings.library [kind, stubName kind]) site counterpart =
        .ok (stubPlace lib kind, bytes') :=
      writable_eq_ok_iff.mpr ⟨known, Together.locate comparable together there, held'⟩
    refine ⟨(), _, ?_, rfl, Together.append together member ⟨added, plain, quiet⟩ proper held held'⟩
    rw [runOn_appendPieces site counterpart found', runOn_writeAfter_plain site counterpart plain]

include flat

theorem follows_appendModule {names : Place} {name : Text} (named : ∀ name ∈ names, Path.Named name)
    (new : Path.Named name) (visited : Visited settings names) (stub : isStub lib (lib ++ names ++ [name]) = false)
    (module : Module.isModule (Path.join (Path.walked settings.library names) name) = true) :
    Follows site (Together lib base other listed) (Together lib base other listed) Eq
      (appendModule (Module.locate settings (Path.walked settings.library names))
        (Path.join (Path.walked settings.library names) name))
      (appendModule (Module.locate settings (Path.walked settings.library names))
        (Path.join (Path.walked settings.library names) name)) := by
  intro tree counterpart value after together run
  obtain ⟨text, between, first, rest⟩ := runOn_bind_ok run
  rw [runOn_readLenient] at first
  obtain ⟨read, rfl⟩ := Prod.mk.inj first
  cases held : bytesAt site tree (Path.join (Path.walked settings.library names) name) with
  | error fault => rw [held] at read; cases read
  | ok bytes =>
    rw [held] at read
    obtain rfl := Except.ok.inj read
    obtain ⟨place, found⟩ := (bytesAt_eq_ok_iff site tree).mp held
    obtain ⟨there, file⟩ := Site.find_eq_ok_iff.mp found
    have deeper : ∀ other ∈ names ++ [name], Path.Named other :=
      List.forall_mem_append.mpr ⟨named, List.forall_mem_singleton.mpr new⟩
    have spot : place = lib ++ names ++ [name] := by
      rw [List.append_assoc]
      exact Together.place sound comparable located together deeper (by rw [Path.walked_snoc]; exact there)
    subst spot
    obtain ⟨left, right⟩ := Together.others comparable together stub
    -- the module is no stub, so the second tree holds it with the same bytes
    have again : site.find counterpart (Path.join (Path.walked settings.library names) name) =
        .ok (lib ++ names ++ [name], .file bytes) :=
      Site.find_eq_ok_iff.mpr ⟨Together.locate comparable together there, by rw [right, ← left, file]⟩
    by_cases quiet : Quiet bytes
    · rw [runOn_appendModule_quiet found quiet] at run
      cases run
      exact ⟨(), counterpart, runOn_appendModule_quiet again quiet _, rfl, together⟩
    · have methods : Text.mentions "\n    def " (Text.unifyNewlines (Utf8.decodeLenient bytes)) = true := by
        simpa [Quiet] using quiet
      rw [if_pos methods] at rest
      have reads : (appendModule (Module.locate settings (Path.walked settings.library names))
          (Path.join (Path.walked settings.library names) name)).runOn site counterpart =
          (append (Text.unifyNewlines (Utf8.decodeLenient bytes)) (Path.join (Path.walked settings.library names) name)
            (dottedName settings names name)).runOn site counterpart := by
        unfold appendModule
        rw [Script.runOn_bind, runOn_readLenient_of _ _ again, andThen_ok, if_pos methods]
        rfl
      rw [reads]
      change (append _ _ (dottedName settings names name)).runOn site tree = _ at rest
      unfold append at rest ⊢
      cases target : fileName? (dottedName settings names name) with
      | none =>
        rw [target] at rest
        cases rest
        exact ⟨(), counterpart, rfl, rfl, together⟩
      | some stubs =>
        obtain ⟨kind, member, rfl, rfl, silent⟩ :=
          flat names name bytes stubs visited stub (left ▸ file) module quiet target
        have kindNamed := named kind (List.mem_singleton_self _)
        have proper : Path.walked settings.library [kind] ≠ [] := by
          intro empty
          have ends : kind <:+ Path.walked settings.library [kind] := Path.suffix_join settings.library kind
          rw [empty, List.suffix_nil] at ends
          exact kindNamed.nonempty ends
        have cut := upTo_lastSlash proper (Path.getLast?_join _ kindNamed) new
        rw [target] at rest
        dsimp only at rest ⊢
        rw [cut] at rest ⊢
        exact follows_appendSection sound comparable located member (added_extract _ _)
          (by simp [extract, Text.ofChars]) silent
          tree counterpart value after together rest

end

end Stub
end ApiDocs
