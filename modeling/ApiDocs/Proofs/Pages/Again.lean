import ApiDocs.Proofs.Module.Contents
import ApiDocs.Proofs.Pages.Twice
import ApiDocs.Proofs.StubGrowth
import ApiDocs.Proofs.Text.Decoding

/-! Pages of a module to which sections have been appended that it held before. Its functions and classes come
again at the end of their lists; their pages are written once more and stay the same. -/

set_option autoImplicit false

namespace ApiDocs

namespace Text

theorem unifyNewlines_mark (first second : Text) {c : CodePoint} (differs : c ≠ .char '\n') :
    unifyNewlines (first ++ c :: second) = unifyNewlines first ++ unifyNewlines (c :: second) := by
  fun_induction unifyNewlines first with
  | case1 => rfl
  | case2 rest ih => simp [unifyNewlines, ih]
  | case3 d rest other ih =>
    rw [List.cons_append, unifyNewlines, ih]
    · rfl
    · intro more carriage eq
      cases rest with
      | nil => exact differs (List.cons.inj eq).1
      | cons e rest => exact other rest carriage (by rw [(List.cons.inj eq).1])

end Text
namespace Module

theorem contents_again {text more dotted : Text} (added : Stub.Added more) (again : more <:+ text)
    (functionsClosed : Closed "def " text) (classesClosed : Closed "class " text) {functions classes : List Text}
    (read : contents text dotted = .ok (functions, classes)) :
    ∃ moreFunctions moreClasses,
      contents (text ++ more) dotted = .ok (functions ++ moreFunctions, classes ++ moreClasses) ∧
        moreFunctions ⊆ functions ∧ moreClasses ⊆ classes ∧ functions ⊆ defined "def " dotted text ∧
          classes = defined "class " dotted text := by
  have free : .char '#' ∉ ("\n" : Text) ++ "def " := by decide
  obtain ⟨others, eq, known⟩ := added.defined_again again free dotted functionsClosed
  obtain ⟨moreClasses, eqClasses, knownClasses⟩ := added.defined_again again (by decide) dotted classesClosed
  unfold contents at read ⊢
  cases kept : (defined "def " dotted text).filterM isPublic with
  | error fault => rw [kept] at read; cases read
  | ok found =>
    rw [kept] at read
    cases read
    obtain ⟨all, rfl⟩ := filterM_eq_ok_iff.mp kept
    have more : (defined "def " dotted text ++ others).filterM isPublic = .ok _ :=
      filterM_eq_ok_iff.mpr ⟨fun item member => all item ((List.mem_append.mp member).elim id (known ·)), rfl⟩
    refine ⟨others.filter fun item => (isPublic item).toOption.getD false, moreClasses, ?_, ?_, knownClasses, ?_, rfl⟩
    · rw [eq, eqClasses, more, List.filter_append]
      rfl
    · exact fun item member =>
        List.mem_filter.mpr ⟨known (List.mem_filter.mp member).1, (List.mem_filter.mp member).2⟩
    · exact fun item member => (List.mem_filter.mp member).1

end Module

namespace Pages

open Script

structure Nameable (name : Text) : Prop where
  plain : name.Plain
  dotless : .char '.' ∉ name
  slashless : .char '/' ∉ name

theorem ends_of_writable {site : Site} {tree : Tree} {folder name : Text} (plain : folder.Plain) (proper : folder ≠ [])
    (nameable : Nameable name) {place : Place} {bytes : Bytes}
    (found : writable (Path.join folder name ++ ".rst") site tree = .ok (place, bytes)) :
    ∃ before, place = before ++ [name ++ (".rst" : Text)] := by
  obtain ⟨⟨known, accepted, _⟩, located, _⟩ := writable_eq_ok_iff.mp found
  have relative : name.head? ≠ some (.char '/') := fun head => nameable.slashless (List.mem_of_head? head)
  obtain ⟨lead, joined, kind⟩ := Path.join_mark proper relative
  have whole : (Path.join folder name ++ ".rst").Plain := by
    have front : Text.Plain (lead ++ [.char '/']) := by
      rcases kind with ⟨rfl, _⟩ | rfl
      · exact Text.plain_append.mpr ⟨plain, Text.plain_ofChars ['/']⟩
      · exact plain
    rw [joined, ← List.singleton_append, ← List.append_assoc]
    exact Text.plain_append.mpr ⟨Text.plain_append.mpr ⟨front, nameable.plain⟩, Text.plain_ofChars _⟩
  have free : .char '/' ∉ name ++ (".rst" : Text) := by
    intro member
    exact (List.mem_append.mp member).elim nameable.slashless (by decide)
  have longer : ∀ other : Text, other.length < 4 → name ++ (".rst" : Text) ≠ other := by
    rintro other small rfl
    rw [List.length_append] at small
    exact absurd small (by simp [Text.ofChars])
  obtain rfl := Path.accept_plain whole accepted
  rcases Site.locate_endsIn (longer [] (by decide)) free (longer "." (by decide)) (longer ".." (by decide)) accepted
    (.inr ⟨lead, by rw [joined, List.append_assoc]; rfl⟩) located with ⟨rfl, _⟩ | ⟨_, last⟩
  · exact absurd rfl (not_directory_of_writable found)
  · exact last

theorem page_inj {site : Site} {tree : Tree} {folder first second : Text} (plain : folder.Plain) (proper : folder ≠ [])
    (left : Nameable first) (right : Nameable second) {place : Place} {bytes more : Bytes}
    (found : writable (Path.join folder first ++ ".rst") site tree = .ok (place, bytes))
    (there : writable (Path.join folder second ++ ".rst") site tree = .ok (place, more)) : first = second := by
  obtain ⟨before, eq⟩ := ends_of_writable plain proper left found
  obtain ⟨before', eq'⟩ := ends_of_writable plain proper right there
  obtain ⟨_, same⟩ := List.append_inj' (eq.symm.trans eq') rfl
  exact List.append_cancel_right (List.singleton_inj.mp same)

theorem plain_toctree {name : Text} {pages others : List Text} (subset : others ⊆ pages)
    (plain : (Toctree.render none [(name, pages)]).Plain) : (Toctree.render none [(name, others)]).Plain := by
  apply plain.of_subset
  intro c member
  simp only [Toctree.render, Toctree.block, List.flatMap_cons, List.flatMap_nil, List.append_nil, List.mem_append,
    List.mem_flatMap] at member ⊢
  rcases member with start | (head | ⟨page, inside, here⟩) | last
  · exact .inl start
  · exact .inr (.inl (.inl head))
  · exact .inr (.inl (.inr ⟨page, subset inside, here⟩))
  · exact .inr (.inr last)

variable {site : Site} {differ : Place → Bytes → Bytes → Prop} {base : Tree}

theorem follows_begin {target : Target} (page : target.page = target.folder ++ ".rst") :
    Follows site (Tree.Twin differ Place.IsPage base) (Tree.Twin differ Place.IsPage base) Eq
      target.begin target.begin := by
  unfold Target.begin
  apply (follows_makeDirectories _ _).andThen
  intro _
  rw [page]
  exact follows_writePage (List.suffix_append _ _) _

def Target.Proper (target : Target) : Prop := target.page = target.folder ++ ".rst"

theorem follows_writeModule_apart {settings : Settings} (undisturbed : Undisturbed site differ base settings)
    {location : Module.Location} {path frameworks : Text} {previous : Option Target}
    (proper : ∀ target, previous = some target → target.Proper)
    (apart : ∀ place first second, site.Leads Place.IsPage base path place → ¬differ place first second) :
    Follows site (Tree.Twin differ Place.IsPage base) (Tree.Twin differ Place.IsPage base)
      (fun next next' => next = next' ∧ ∀ target, next = some target → target.Proper)
      (writeModule settings location frameworks previous path)
      (writeModule settings location frameworks previous path) := by
  -- the target of an earlier module serves if the module has none of its own
  have every : ∀ target, ((targets settings location path).getLast? <|> previous) = some target → target.Proper := by
    intro target eq
    cases own : (targets settings location path).getLast? with
    | none => rw [own] at eq; exact proper target eq
    | some other =>
      rw [own] at eq
      cases eq
      exact page_of_mem_targets (List.mem_of_getLast? own)
  unfold writeModule
  apply (Follows.forM fun target member => follows_begin (page_of_mem_targets member)).andThen
  intro _
  cases chosen : ((targets settings location path).getLast? <|> previous) with
  | none => exact Follows.throw
  | some target =>
    have page : target.page = target.folder ++ ".rst" := every target chosen
    have read : Follows site (Tree.Twin differ Place.IsPage base) (Tree.Twin differ Place.IsPage base) Eq
        (Module.read path target.dotted) (Module.read path target.dotted) := by
      unfold Module.read
      apply (follows_readLenient apart).andThen
      exact fun text => Follows.ofExcept_self
    apply read.andThen
    rintro ⟨functions, classes⟩
    apply (follows_appendPage undisturbed (page ▸ List.suffix_append _ _) _ _ _).andThen
    intro _
    apply (Follows.forM fun name _ => follows_writePage (List.suffix_append _ _) _).andThen
    intro _
    apply (Follows.forM fun name _ => follows_writePage (List.suffix_append _ _) _).andThen
    intro _
    apply Follows.pure
    refine ⟨rfl, fun other eq => ?_⟩
    cases eq
    exact page

/-- Names stand where a definition begins, closed by a parenthesis. -/
structure Orderly (word text : Text) : Prop where
  closed : Module.Closed word text
  names : ∀ item ∈ (Text.split ("\n" ++ word) text).tail,
    .char '.' ∉ Text.beforeFirst '(' item ∧ .char '/' ∉ Text.beforeFirst '(' item

theorem Orderly.nameable {word text dotted name : Text} (orderly : Orderly word text) (plain : text.Plain)
    (member : name ∈ Module.defined word dotted text) :
    ∃ short, name = dotted ++ "." ++ short ∧ Nameable short := by
  obtain ⟨item, inside, rfl⟩ := List.mem_map.mp member
  obtain ⟨dotless, slashless⟩ := orderly.names item inside
  refine ⟨_, rfl, ?_, dotless, slashless⟩
  apply (plain.split _ item (List.mem_of_mem_tail inside)).of_subset
  exact (List.takeWhile_prefix _).subset

/-- What is read the second time: the text of the first time with sections that it holds. -/
structure Regathered (text again : Text) : Prop where
  plain : text.Plain
  functions : Orderly "def " text
  classes : Orderly "class " text
  grown : ∃ more, again = text ++ more ∧ Stub.Added more ∧ more <:+ text

/-- Pages in a folder that are written once more stay the same. -/
theorem follows_pages_again {folder dotted : Text} (plain : folder.Plain) (proper : folder ≠ [])
    {names more : List Text} (subset : more ⊆ names)
    (nameable : ∀ name ∈ names, ∃ short, name = dotted ++ "." ++ short ∧ Nameable short)
    (page : (path name dotted : Text) → Text) (lined : ∀ path name dotted, .char '\n' ∈ page path name dotted) :
    Follows site (Tree.Twin differ Place.IsPage base) (Tree.Twin differ Place.IsPage base) Eq
      (names.forM fun name => writeText (Path.join folder (Text.afterLast '.' name) ++ ".rst")
        (page (Path.join folder (Text.afterLast '.' name) ++ ".rst") (Text.afterLast '.' name) name))
      ((names ++ more).forM fun name => writeText (Path.join folder (Text.afterLast '.' name) ++ ".rst")
        (page (Path.join folder (Text.afterLast '.' name) ++ ".rst") (Text.afterLast '.' name) name)) := by
  apply follows_forM_again subset
  · intro first member second member' tree place bytes others found there
    obtain ⟨short, rfl, good⟩ := nameable first member
    obtain ⟨short', rfl, good'⟩ := nameable second member'
    rw [Text.afterLast_dotted dotted good.dotless] at found
    rw [Text.afterLast_dotted dotted good'.dotless] at there
    rw [page_inj plain proper good good' found there]
  · exact fun name _ => Utf8.bytesOf_ne_nil (lined _ _ _)
  · exact fun name _ => isPage_of_leads (List.suffix_append _ _)

theorem follows_writeModule_again {settings : Settings} {location : Module.Location} {path frameworks : Text}
    {previous : Option Target} {target : Target} (last : (targets settings location path).getLast? = some target)
    (folder : target.folder.Plain) (proper : target.folder ≠ [])
    (read : Follows site (Tree.Twin differ Place.IsPage base) (Tree.Twin differ Place.IsPage base) Regathered
      (readLenient path) (readLenient path))
    (free : ∀ place first second, site.Leads Place.IsPage base target.page place → Place.IsPage place →
      differ place first second) :
    Follows site (Tree.Twin differ Place.IsPage base) (Tree.Twin differ Place.IsPage base)
      (fun next next' => next = next' ∧ ∀ target, next = some target → target.Proper)
      (writeModule settings location frameworks previous path)
      (writeModule settings location frameworks previous path) := by
  have page := page_of_mem_targets (List.mem_of_getLast? last)
  unfold writeModule
  apply (Follows.forM fun target member => follows_begin (page_of_mem_targets member)).andThen
  intro _
  rw [last]
  -- the lists of the second run go on with names that the first run has
  have names : Follows site (Tree.Twin differ Place.IsPage base) (Tree.Twin differ Place.IsPage base)
      (fun (found others : List Text × List Text) => ∃ text functions classes, text.Plain ∧ Orderly "def " text ∧
        Orderly "class " text ∧ others = (found.1 ++ functions, found.2 ++ classes) ∧ functions ⊆ found.1 ∧
        classes ⊆ found.2 ∧ found.1 ⊆ Module.defined "def " target.dotted text ∧
        found.2 = Module.defined "class " target.dotted text)
      (Module.read path target.dotted) (Module.read path target.dotted) := by
    unfold Module.read
    apply read.bind
    rintro text _ ⟨plain, orderly, orderlyClasses, more, rfl, added, again⟩
    apply Follows.ofExcept
    rintro ⟨functions, classes⟩ eq
    obtain ⟨moreFunctions, moreClasses, eq', subset, subsetClasses, known, knownClasses⟩ :=
      Module.contents_again added again orderly.closed orderlyClasses.closed eq
    exact ⟨_, eq', text, moreFunctions, moreClasses, plain, orderly, orderlyClasses, rfl, subset, subsetClasses,
      known, knownClasses⟩
  apply names.bind
  rintro ⟨functions, classes⟩ _
    ⟨text, moreFunctions, moreClasses, plain, orderly, orderlyClasses, rfl, subset, subsetClasses, known, knownClasses⟩
  dsimp only at subset subsetClasses known knownClasses ⊢
  apply Follows.andThen
  · unfold Toctree.append
    apply follows_appendText (isPage_of_leads (page ▸ List.suffix_append _ _))
    · apply plain_toctree
      apply List.map_subset
      intro name member
      simp only [List.mem_append] at member ⊢
      rcases member with (old | new) | (old | new)
      · exact .inl old
      · exact .inl (subset new)
      · exact .inr old
      · exact .inr (subsetClasses new)
    · intro place left right leads inside _
      exact .inr (free place _ _ leads inside)
  intro _
  apply Follows.andThen
  · exact follows_pages_again folder proper subset
      (fun name member => orderly.nameable plain (known member))
      (fun path name dotted => functionPage (functionTitle path name) dotted frameworks)
      (fun path name dotted => by simp [functionPage, Text.ofChars])
  intro _
  apply Follows.andThen
  · exact follows_pages_again folder proper subsetClasses
      (fun name member => orderlyClasses.nameable plain (knownClasses ▸ member))
      (fun _ name dotted => classPage name dotted frameworks)
      (fun path name dotted => by simp [classPage, Text.ofChars])
  intro _
  refine Follows.pure ⟨rfl, fun other eq => ?_⟩
  cases eq
  exact page

end Pages
end ApiDocs
