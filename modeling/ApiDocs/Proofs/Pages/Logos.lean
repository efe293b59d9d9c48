import ApiDocs.Instance
import ApiDocs.Proofs.File.Every
import ApiDocs.Proofs.Pages.Settled
import ApiDocs.Proofs.Text.Logos

/-! Logos on the pages of functions and classes. They are shown as many levels up as the path of the module's directory
has slashes, so on the pages of a library that is one directory away they lead to the top of the pages. -/

set_option autoImplicit false

namespace ApiDocs.Pages
open Script Text ApiDocs.Module

/-- Directives of functions stand on lines without slashes. -/
def Directed (text : Text) : Prop := ∀ line ∈ lines (unifyNewlines text), Instance.isDirective line = true →
    .char '/' ∉ line

theorem directed_page {head frameworks : Text} (slashless : .char '/' ∉ head)
    (silent : ¬("autofunction" : Text) <:+: frameworks) :
    Directed (head ++ .char '\n' :: frameworks) := by
  intro line member directive
  rw [lines_after_newline] at member
  rcases List.mem_append.mp member with first | second
  · intro slash
    have there := mem_of_unifyNewlines (by decide) ((infix_of_mem_lines first).subset slash)
    exact (List.mem_append.mp there).elim slashless (by decide)
  · have inside := infix_of_mem_lines second
    have named : ("autofunction" : Text) <:+: ".. autofunction::" := ⟨".. ", "::", by decide⟩
    exact absurd (infix_of_unifyNewlines (by decide) (named.trans ((mentions_iff.mp directive).trans inside))) silent

theorem logosUp_page {head frameworks : Text} {levels : Nat} (slashless : .char '/' ∉ head)
    (up : LogosUp levels frameworks) :
    LogosUp levels (head ++ .char '\n' :: frameworks) :=
  (logosUp_of_slashless slashless).newline up

theorem count_walked {settings : Settings} (rooted : Rooted settings) {names : Place}
    (named : ∀ name ∈ names, Path.Named name) :
    (Path.walked settings.library names).count (.char '/') = settings.library.count (.char '/') + names.length := by
  obtain ⟨proper, bare⟩ := Path.open_of_base rooted.proper
  rw [Path.walked_eq proper bare named, List.count_append]
  congr 1
  induction names with
  | nil => rfl
  | cons name names ih =>
    have first : name.count (.char '/') = 0 := List.count_eq_zero.mpr (named name List.mem_cons_self).noSlash
    rw [List.flatMap_cons, List.count_append, List.count_cons_self, first,
      ih fun other member => named other (List.mem_cons_of_mem _ member), List.length_cons]
    omega

theorem slashless_title {title : Text} (slashless : .char '/' ∉ title) :
    .char '/' ∉ title ++ "\n" ++ rule title.length := by
  have line : .char '/' ∉ rule title.length := fun member => by cases List.eq_of_mem_replicate member
  simp only [List.mem_append, slashless, line, or_false, false_or]
  decide

section
variable {title dotted : Text} (titled : .char '/' ∉ title) (named : .char '/' ∉ dotted)
include titled named

theorem functionPage_eq : ∃ head, .char '/' ∉ head ∧
    ∀ frameworks, functionPage title dotted frameworks = head ++ .char '\n' :: frameworks := by
  refine ⟨title ++ "\n" ++ rule title.length ++ "\n\n.. autofunction:: " ++ dotted, ?_, fun frameworks => ?_⟩
  · have first := slashless_title titled
    simp only [List.mem_append, not_or] at first ⊢
    exact ⟨⟨first, by decide⟩, named⟩
  · simp [functionPage, ofChars]

theorem classPage_eq : ∃ head, .char '/' ∉ head ∧
    ∀ frameworks, classPage title dotted frameworks = head ++ .char '\n' :: frameworks := by
  refine ⟨title ++ "\n" ++ rule title.length ++ "\n\n.. autoclass:: " ++ dotted ++
    "\n   :members:\n   :special-members: __init__\n   :undoc-members:\n   :show-inheritance:", ?_,
      fun frameworks => ?_⟩
  · have first := slashless_title titled
    simp only [List.mem_append, not_or] at first ⊢
    exact ⟨⟨⟨first, by decide⟩, named⟩, by decide⟩
  · simp [classPage, ofChars]

end

theorem slashless_functionTitle {name : Text} (slashless : .char '/' ∉ name) (path : Text) :
    .char '/' ∉ functionTitle path name := by
  have longer : ∀ more : Text, .char '/' ∉ more → .char '/' ∉ name ++ more := fun more free member =>
    (List.mem_append.mp member).elim slashless free
  unfold functionTitle
  split
  · exact longer _ (by decide)
  · split
    · exact longer _ (by decide)
    · exact slashless

theorem slashless_dottedName (settings : Settings) {names : Place} (slashless : ∀ name ∈ names, .char '/' ∉ name) :
    .char '/' ∉ dottedName settings names := by
  intro slash
  rcases mem_join slash with between | ⟨piece, member, inside⟩
  · exact absurd between (by decide)
  · rcases List.mem_cons.mp member with rfl | listed
    · exact (afterLast_spec (.char '/') settings.library).1 inside
    · exact slashless piece listed inside

/-- The pages that show the frameworks, by their folder and their name: those of what a module defines, and those that
are filed under a function of the functional modules. -/
inductive Illustrated (lib : Place) (base : Tree) : Place → Text → Prop where
  | member {names : Place} {stem last : Text} (documented : Documented lib base names stem)
      (own : names.length = 3 → last ≠ stem ++ ("_functional.rst" : Text)) : Illustrated lib base (names ++ [stem]) last
  | filed {module : Text} (documented : Documented lib base ["functional", "ivy"] module) (name last : Text) :
      Illustrated lib base ["functional", "ivy", module, name] last

theorem Illustrated.below {lib : Place} {base : Tree} {inner : Place} {last : Text}
    (illustrated : Illustrated lib base inner last) :
    ∃ names stem, Documented lib base names stem ∧ names ++ [stem] <+: inner := by
  cases illustrated with
  | member documented => exact ⟨_, _, documented, List.prefix_refl _⟩
  | filed documented name last => exact ⟨_, _, documented, [name], rfl⟩

/-- A file at the place of such a page, with the folders where they have been put, has a text of the kind of the
folder. -/
def Shows (site : Site) (lib : Place) (base : Tree) (shift : Place → Place) (kind : Place → Text → Prop) (place : Place)
    (bytes : Bytes) :
    Prop :=
  ∀ inner last, Illustrated lib base inner last → place = top site ++ shift inner ++ [last] →
    ∃ text, text.Plain ∧ bytes = Utf8.bytesOf text ∧ kind inner text

def logoLevels (settings : Settings) (inner : Place) : Nat := inner.length - 1 + settings.library.count (.char '/')

/-- The text of a page on which every directive can be read off its line. -/
def Fresh (settings : Settings) (inner : Place) (text : Text) : Prop :=
  LogosUp (logoLevels settings inner) text ∧ Directed text

section
variable {site : Site} {settings : Settings} {lib : Place} {base : Tree} (prepared : Prepared site settings lib base)

theorem Underway.directory {tree : Tree} (state : Underway site base tree) {place : Place}
    (outside : ¬top site <+: place) (held : tree.get? place = some .directory) : base.get? place = some .directory := by
  rcases state.each place with same | ⟨_, _, bytes, file⟩ | ⟨_, _, inside, _⟩
  · rwa [same] at held
  · rw [file] at held
    cases held
  · exact absurd inside outside

include prepared

theorem Prepared.shows_pageNames {names inner : Place} (held : base.get? (lib ++ names) = some .directory)
    (above : inner.dropLast <+: names) (kind : Place → Text → Prop) (bytes : Bytes) :
    Shows site lib base id kind (top site ++ pageNames inner) bytes := by
  intro folder last illustrated eq
  obtain ⟨front, stem, documented, below⟩ := illustrated.below
  rw [pageNames, ← List.append_assoc, id] at eq
  obtain ⟨same, _⟩ := List.append_inj' eq rfl
  rw [← List.append_cancel_left same] at below
  exact absurd (below.trans above) (prepared.not_on_way held documented)

theorem Prepared.shows_closing {names place : Place} (held : base.get? (lib ++ names) = some .directory)
    (alone : ¬Documented lib base [] "docs") (closing : Closing site names place) (kind : Place → Text → Prop)
    (bytes : Bytes) :
    Shows site lib base id kind place bytes := by
  cases closing with
  | directory => exact prepared.shows_pageNames held (List.dropLast_prefix _) kind bytes
  | index =>
    intro folder last illustrated eq
    obtain ⟨front, stem, _, below⟩ := illustrated.below
    obtain ⟨same, _⟩ := List.append_inj' eq rfl
    have none : folder = [] := by simpa using same
    rw [none] at below
    simp at below
  | related name =>
    intro folder last illustrated eq
    obtain ⟨front, stem, documented, below⟩ := illustrated.below
    rw [List.append_cons] at eq
    obtain ⟨same, _⟩ := List.append_inj' eq rfl
    obtain rfl : [("docs" : Text)] = folder := List.append_cancel_left same
    cases front with
    | nil => exact absurd ((List.cons_prefix_cons.mp below).1 ▸ documented) alone
    | cons first front => exact absurd below.length_le (by simp)

section
variable (direct : ¬("/logos" : Text) <:+: settings.frameworks)
    (silent : ¬("autofunction" : Text) <:+: settings.frameworks)
include direct silent

/-- The page of a function or class shows the frameworks as the path of its module's directory asks for. -/
theorem Prepared.shows_member {names : Place} (way : Way settings names) {stem name head text : Text}
    (slashless : .char '/' ∉ head) (cut : text = head ++ .char '\n' :: frameworksFor settings
      (Path.walked settings.library names)) (plain : text.Plain) :
    Shows site lib base id (Fresh settings) (top site ++ (names ++ [stem]) ++ [name ++ (".rst" : Text)])
      (Utf8.bytesOf text) := by
  intro folder last _ eq
  obtain ⟨same, _⟩ := List.append_inj' eq rfl
  obtain rfl : names ++ [stem] = folder := List.append_cancel_left same
  refine ⟨text, plain, rfl, ?_⟩
  rw [cut, frameworksFor, count_walked prepared.regular.rooted way.named]
  have levels : logoLevels settings (names ++ [stem]) = settings.library.count (.char '/') + names.length := by
    rw [logoLevels, List.length_append, List.length_singleton]
    omega
  refine ⟨?_, directed_page slashless fun inside => silent (infix_of_logos (by decide) (by decide) inside)⟩
  rw [levels]
  exact logosUp_page slashless (logosUp_replace direct _)

theorem Prepared.every_module {names : Place} (way : Way settings names)
    (held : base.get? (lib ++ names) = some .directory) {stem : Text} (documented : Documented lib base names stem)
    {tree after : Tree} (state : Underway site base tree) (every : tree.Every (Shows site lib base id (Fresh settings)))
    {previous result : Option Target} (run : (writeModule settings
      (locate settings (Path.walked settings.library names))
      (frameworksFor settings (Path.walked settings.library names)) previous
      (Path.walked settings.library (names ++ [stem ++ (".py" : Text)]))).runOn site tree = (.ok result, after)) :
    after.Every (Shows site lib base id (Fresh settings)) := by
  obtain ⟨listed, filled, bytes, text, rfl, module, headings, _, functions, classes⟩ :=
    runOn_writeModule_stages prepared.placed
    prepared.free prepared.regular way.words documented prepared.located state run
  obtain ⟨functionsTitled, classesTitled⟩ := prepared.regular.titled names stem bytes documented module
  have words := prepared.regular.words documented way.words
  have dotted := slashless_dottedName settings fun name member => (words name member).slashless
  -- the headings of targets stand on pages above modules, which show nothing
  have begun : listed.Every (Shows site lib base id (Fresh settings)) := by
    refine every.changed headings fun place bytes ⟨inner, way, same⟩ => same ▸ prepared.shows_pageNames held ?_ _ bytes
    rcases List.prefix_concat_iff.mp way with rfl | inside
    · rw [List.dropLast_concat]
    · exact (List.dropLast_prefix inner).trans inside
  have named : ∀ name : Text, Path.Word name → .char '/' ∉ dottedName settings (names ++ [stem]) ++ "." ++ name := by
    intro name word
    simp only [List.mem_append, not_or]
    exact ⟨⟨dotted, by decide⟩, word.slashless⟩
  have filling : filled.Every (Shows site lib base id (Fresh settings)) := by
    refine functions.keeps _ begun fun name member now next before written => ?_
    have word := functionsTitled.word name (List.mem_of_mem_filter member)
    obtain ⟨head, slashless, page⟩ := functionPage_eq (slashless_functionTitle word.slashless _) (named name word)
    exact before.written written.2 (prepared.shows_member direct silent way slashless (page _) written.1)
  refine classes.keeps _ filling fun name member now next before written => ?_
  have word := classesTitled.word name member
  obtain ⟨head, slashless, page⟩ := classPage_eq word.slashless (named name word)
  exact before.written written.2 (prepared.shows_member direct silent way slashless (page _) written.1)

variable (outside : ∀ names, ¬top site <+: lib ++ names) (alone : ¬Documented lib base [] "docs")
include outside alone

/-- The visits of a directory and of those below it leave pages that show the frameworks as their paths ask for. -/
theorem Prepared.every_writeUpTo {depth : Nat} : ∀ {names : Place}, Way settings names → ∀ {tree after : Tree},
    Underway site base tree → tree.Every (Shows site lib base id (Fresh settings)) → ∀ {result : List Text × List Text},
      (writeUpTo settings depth (Path.walked settings.library names)).runOn site tree = (.ok result, after) →
        after.Every (Shows site lib base id (Fresh settings)) := by
  induction depth with
  | zero =>
    intro names way tree after state every result run
    cases run
  | succ depth ih =>
    intro names way tree after state every result run
    obtain ⟨folders, made, lower, filled, closed, visit⟩ := prepared.visit way state run
    have ready := visit.ready state
    have held := state.directory (outside names) visit.above
    have begun := every.changed visit.making fun _ _ impossible => impossible.elim
    -- a visit leaves the source of the library alone, so the next one finds it as before
    have visits : Underway site base lower ∧ lower.Every (Shows site lib base id (Fresh settings)) := by
      refine visit.rounds.keeps (fun now => Underway site base now ∧
        now.Every (Shows site lib base id (Fresh settings)))
        ⟨ready, begun⟩ fun inner member now next ⟨before, kept⟩ step => ?_
      obtain ⟨other, _, confined⟩ := prepared.confined_visit way visit state member before step
      obtain ⟨name, rfl, further⟩ := prepared.directory_of_next way visit state member
      obtain ⟨result, step⟩ := step
      exact ⟨before.next confined fun _ touched => touched.inside, ih further before kept step⟩
    have modules : Underway site base filled ∧ filled.Every (Shows site lib base id (Fresh settings)) := by
      refine visit.modules.keeps (fun now => Underway site base now ∧
        now.Every (Shows site lib base id (Fresh settings)))
        visits fun path member now next ⟨before, kept⟩ step => ?_
      obtain ⟨previous, result, step⟩ := step
      obtain ⟨stem, rfl, documented, own⟩ := prepared.confined_module way state before member step
      exact ⟨before.next own fun _ own => own.inside,
        prepared.every_module direct silent way held documented before kept step⟩
    exact modules.2.changed (prepared.confined_closing way visit modules.1) fun place bytes closing =>
      prepared.shows_closing held alone closing _ bytes

theorem Prepared.every_write (begin : base.Every (Shows site lib base id (Fresh settings))) {after : Tree}
    {result : List Text × List Text} (run : (write settings settings.library).runOn site base = (.ok result, after)) :
    Underway site base after ∧ after.Every (Shows site lib base id (Fresh settings)) := by
  rw [runOn_write] at run
  have start : Underway site base base := .refl _ _ base
  exact ⟨start.next (prepared.confined_writeUpTo (.nil settings) start run) fun _ touched => touched.inside,
    prepared.every_writeUpTo direct silent outside alone (.nil settings) start begin run⟩

end

end

end ApiDocs.Pages
