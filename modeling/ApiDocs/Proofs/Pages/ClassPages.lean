import ApiDocs.Proofs.Module.Headers
import ApiDocs.Proofs.Pages.Touched

/-! Pages of classes. A class with a parenthesis after its name gets a page of its name. Without one, all that follows
up to a parenthesis is taken for its name, and its page goes by what comes after the last dot of that; so it can take
the page of an earlier class. -/

set_option autoImplicit false

namespace ApiDocs

namespace Module
open Text

def Header.page (header : Header) : Text := afterLast '.' header.title

/-- A line that goes on with a name and a mark. -/
structure Header.Names (header : Header) (name : Text) (mark : CodePoint) (rest : Text) : Prop where
  line : header.line = name ++ mark :: rest
  word : Path.Word name
  free : .char '(' ∉ name

/-- A class with bases, or with parentheses where these would be. -/
def Header.Based (header : Header) : Prop := ∃ name rest, header.Names name (.char '(') rest

/-- A class that does not take the page of another. -/
structure Header.Spares (header other : Header) : Prop where
  slashless : .char '/' ∉ header.page
  same : header.page = other.page → header.title = other.title

namespace Header.Names

theorem title_of_paren {header : Header} {name rest : Text} (names : header.Names name (.char '(') rest) :
    header.title = name :=
  Header.title_of_paren names.free names.line

theorem page_of_paren {header : Header} {name rest : Text} (names : header.Names name (.char '(') rest) :
    header.page = name := by
  rw [page, names.title_of_paren, afterLast_free names.word.dotless]

theorem title_of_mark {header : Header} {name rest : Text} {mark : CodePoint} (names : header.Names name mark rest)
    (other : mark ≠ .char '(') : header.title = name ++ mark :: beforeFirst '(' (join "\n" (rest :: header.below)) := by
  have lead : .char '(' ∉ name ++ [mark] := by
    rw [List.mem_append, List.mem_singleton]
    exact fun inside => inside.elim names.free other.symm
  rw [title, part_of_line names.line, ← List.singleton_append, ← List.append_assoc, beforeFirst_lead lead,
    List.append_assoc]
  rfl

end Header.Names

theorem Header.Based.spares {header other : Header} (based : header.Based) (beside : other.Based) :
    header.Spares other := by
  obtain ⟨name, _, names⟩ := based
  obtain ⟨another, _, others⟩ := beside
  refine ⟨names.page_of_paren ▸ names.word.slashless, fun same => ?_⟩
  rw [names.title_of_paren, others.title_of_paren, ← names.page_of_paren, same, others.page_of_paren]

theorem suffix_of_isModule {path : Text} (module : isModule path = true) : (".py" : Text) <:+ path := by
  rw [isModule, Bool.and_eq_true, beq_iff_eq] at module
  rw [← module.1]
  exact List.drop_suffix _ _

end Module

namespace Pages
open Script Text ApiDocs.Module

variable {site : Site} {tree after : Tree}

theorem find_begun {settings : Settings} {location : Location} {path : Text} {place : Place} {bytes : Bytes}
    (module : isModule path = true) (found : site.find tree path = .ok (place, .file bytes))
    (run : ((targets settings location path).forM Target.begin).runOn site tree = (.ok (), after)) :
    site.find after path = .ok (place, .file bytes) := by
  -- only pages are written, and a module is none
  have unlike : ¬place.IsPage := by
    obtain ⟨located, held⟩ := Site.find_eq_ok_iff.mp found
    have ends : .char '.' :: ("py" : Text) <:+ path := suffix_of_isModule module
    rcases Site.ends_of_locate (plain_ofChars _) (by decide) (by decide) ends located with rfl | ⟨before, name, rfl,
      stem, rfl⟩
    · cases held
    · exact Place.not_isPage_module before stem
  refine (rounds_forM run).keeps (fun tree => site.find tree path = .ok (place, .file bytes)) found ?_
  intro target member now next there step
  obtain ⟨_, made, making, writing⟩ := runOn_bind_ok step
  obtain ⟨_, spot, _, writes, written⟩ := written_writeText writing
  have page : (".rst" : Text) <:+ target.page := page_of_mem_targets member ▸ List.suffix_append _ _
  refine written.find ?_ ((widened_makeDirectories making).find there)
  rintro rfl
  rcases Site.isPage_of_locate page (locate_of_writable writes) with rfl | here
  · exact not_directory_of_writable writes rfl
  · exact unlike here

section
variable {target : Target} {frameworks dotted : Text}

def classPath (target : Target) (title : Text) : Text :=
  Path.join target.folder (afterLast '.' title) ++ (".rst" : Text)

theorem runOn_writeClass_ok {title : Text}
    (run : (writeClass target frameworks (dotted ++ "." ++ title)).runOn site tree = (.ok (), after)) :
    (afterLast '.' title).Plain ∧ ∃ place, site.locate tree (classPath target title) = .ok place ∧ Tree.Written place
      (Utf8.bytesOf (classPage (afterLast '.' title) (dotted ++ "." ++ title) frameworks)) tree after := by
  rw [writeClass, afterLast_member] at run
  obtain ⟨plain, place, _, writes, written⟩ := written_writeText run
  refine ⟨plain.of_subset fun c member => ?_, place, locate_of_writable writes, written⟩
  simp only [classPage, List.append_assoc]
  exact List.mem_append_left _ member

theorem endsIn_classPath {title : Text} (slashless : .char '/' ∉ afterLast '.' title) :
    Path.EndsIn (classPath target title) (afterLast '.' title ++ (".rst" : Text)) := by
  have free : .char '/' ∉ afterLast '.' title ++ (".rst" : Text) := by
    rw [List.mem_append]
    exact fun inside => inside.elim slashless (by decide)
  rw [classPath, Path.join_ending _ (fun slash => slashless (List.mem_of_head? slash)) (by decide)]
  exact Path.endsIn_join _ free

/-- The page of a class stays if the classes after it have pages of other names. -/
theorem find_class {before later : List Text} {title : Text}
    (run : (((before ++ title :: later).map (dotted ++ "." ++ ·)).forM (writeClass target frameworks)).runOn site tree =
      (.ok (), after))
    (slashless : .char '/' ∉ afterLast '.' title)
    (spares : ∀ other ∈ later, .char '/' ∉ afterLast '.' other ∧
      (afterLast '.' other = afterLast '.' title → other = title)) :
    ∃ place, site.find after (classPath target title) =
      .ok (place, .file (Utf8.bytesOf (classPage (afterLast '.' title) (dotted ++ "." ++ title) frameworks))) := by
  rw [List.map_append, List.map_cons, runOn_forM_append] at run
  cases first : ((before.map (dotted ++ "." ++ ·)).forM (writeClass target frameworks)).runOn site tree with
  | mk outcome between =>
    rw [first] at run
    cases outcome with
    | error fault => cases run
    | ok =>
      obtain ⟨_, middle, own, rest⟩ := runOn_bind_ok run
      obtain ⟨plain, place, located, written⟩ := runOn_writeClass_ok own
      have start : site.find middle (classPath target title) =
          .ok (place, .file (Utf8.bytesOf (classPage (afterLast '.' title) (dotted ++ "." ++ title) frameworks))) :=
        Site.find_eq_ok_iff.mpr ⟨Site.locate_keeps written.keeps located, written.here⟩
      refine ⟨place, ?_⟩
      rw [forM_map] at rest
      -- the classes after it one by one: each writes the same page again or a page of another name
      refine (rounds_forM rest).keeps (fun now => site.find now (classPath target title) = .ok (place, _)) start ?_
      intro other member now next there step
      obtain ⟨free, apart⟩ := spares other member
      obtain ⟨plain', place', located', written'⟩ := runOn_writeClass_ok step
      obtain ⟨here, held⟩ := Site.find_eq_ok_iff.mp there
      by_cases same : place' = place
      · subst same
        have inner : place' ≠ [] := by
          rintro rfl
          cases held
        have page : afterLast '.' other = afterLast '.' title :=
          Site.page_unique inner ⟨slashless, plain⟩ ⟨free,
            plain'⟩ (endsIn_classPath slashless) (endsIn_classPath free) here located'
        obtain rfl := apart page
        exact Site.find_eq_ok_iff.mpr ⟨Site.locate_keeps written'.keeps here, written'.here⟩
      · exact written'.find same there

end

/-- The classes of a module by its lines, the first line apart. A class with a parenthesis after its name is found under
its name; one with a colon is found under its name, the colon and all that follows up to a parenthesis or to the next
class. The page of a class shows what it is found under, and stays unless a later class takes it, which classes with
parentheses do not. -/
theorem classes_found_and_shown {path : Text} {place : Place} {bytes : Bytes} {text : Text} {classes : List Header}
    (module : isModule path = true) (found : site.find tree path = .ok (place, .file bytes))
    (decoded : text = unifyNewlines (Utf8.decodeLenient bytes))
    (listed : headers "class " (split "\n" text).tail = classes) :
    (∀ header ∈ classes, ∀ name rest,
        (header.Names name (.char '(') rest →
          header.title = name ∧ header.page = name ∧ ∀ other ∈ classes, other.Based → other.Spares header) ∧
        (header.Names name (.char ':') rest →
          header.title = name ++ .char ':' :: beforeFirst '(' (join "\n" (rest :: header.below)))) ∧
      (∀ dotted, (∃ functions, (read path dotted).runOn site tree =
          (.ok (functions, classes.map fun header => dotted ++ "." ++ header.title), tree)) ∨
        (read path dotted).runOn site tree = (.error .functionUnnamed, tree) ∧
          ∃ header ∈ headers "def " (split "\n" text).tail, header.page = []) ∧
      ∀ settings location frameworks previous result after,
        (writeModule settings location frameworks previous path).runOn site tree = (.ok result, after) →
          ∃ target, result = some target ∧ ∀ before header later, classes = before ++ header :: later →
            .char '/' ∉ header.page → (∀ other ∈ later, other.Spares header) →
              ∃ spot, site.find after (Path.join target.folder header.page ++ (".rst" : Text)) =
                .ok (spot, .file (Utf8.bytesOf
                  (classPage header.page (target.dotted ++ "." ++ header.title) frameworks))) := by
  have names : classNames text = classes.map Header.title := by rw [classNames, namesAfter_eq (by decide), listed]
  refine ⟨fun header _ name rest => ⟨fun based => ?_, fun bare => bare.title_of_mark (by decide)⟩, fun dotted => ?_, ?_⟩
  · exact ⟨based.title_of_paren, based.page_of_paren, fun other _ beside => beside.spares ⟨name, rest, based⟩⟩
  · rw [runOn_read_found found decoded]
    rcases contents_cases text dotted with ⟨functions, eq⟩ | ⟨eq, name, member, unnamed⟩
    · rw [names, List.map_map] at eq
      exact .inl ⟨functions, congrArg (·, tree) eq⟩
    · rw [namesAfter_eq (by decide)] at member
      obtain ⟨header, inside, rfl⟩ := List.mem_map.mp member
      exact .inr ⟨congrArg (·, tree) eq, header, inside, unnamed⟩
  · intro settings location frameworks previous result after run
    obtain ⟨target, begun, _, filled, functions, shown, _, held, _, rfl, begins, there, read, _, _, pages⟩ :=
      runOn_writeModule_steps run
    refine ⟨target, rfl, ?_⟩
    rintro before header later cut slashless spares
    -- the file that is read is the one that was there before any page was written
    cases (find_begun module found begins).symm.trans there
    rw [← decoded] at read
    rcases contents_cases text target.dotted with ⟨others, eq⟩ | ⟨eq, _⟩
    · obtain ⟨_, rfl⟩ := Prod.mk.inj (Except.ok.inj (read.symm.trans eq))
      rw [names, cut, List.map_append, List.map_cons] at pages
      refine find_class pages slashless fun title member => ?_
      obtain ⟨other, inside, rfl⟩ := List.mem_map.mp member
      exact ⟨(spares other inside).slashless, (spares other inside).same⟩
    · cases read.symm.trans eq

def classesSite : Site := .ascending "/w" ["docs"]

def classesModule : Text := "\nclass A(x):\n\nclass B:\n  y\n"

def classesTree : Tree :=
  ⟨[(["docs"], .directory), (["lib"], .directory), (["lib", "m.py"], .file (Utf8.bytesOf classesModule))]⟩

def basedClass : Header := ⟨"A(x):", [[]]⟩

def bareClass : Header := ⟨"B:", ["  y", []]⟩

def classesTarget : Target := ⟨"autogenerated_source/m.rst", "autogenerated_source/m", "lib.m"⟩

def classesRun : Except Fault (Option Target) × Tree :=
  (writeModule { library := "../lib" } (locate { library := "../lib" } "../lib") [] none "../lib/m.py").runOn
    classesSite classesTree

theorem classes_found_and_shown_sample :
    (∃ functions, (read "../lib/m.py" "lib.m").runOn classesSite classesTree =
        (.ok (functions, [("lib.m.A" : Text), "lib.m.B:\n  y\n"]), classesTree)) ∧
      (∃ spot, classesSite.find classesRun.2 "autogenerated_source/m/A.rst" =
        .ok (spot, .file (Utf8.bytesOf (classPage "A" "lib.m.A" [])))) ∧
      ∃ spot, classesSite.find classesRun.2 "autogenerated_source/m/B:\n  y\n.rst" =
        .ok (spot, .file (Utf8.bytesOf (classPage "B:\n  y\n" "lib.m.B:\n  y\n" []))) := by
  have evaluated : (isModule "../lib/m.py" = true ∧
      classesSite.find classesTree "../lib/m.py" = .ok (["lib", "m.py"], .file (Utf8.bytesOf classesModule)) ∧
      classesModule = unifyNewlines (Utf8.decodeLenient (Utf8.bytesOf classesModule)) ∧
      headers "class " (split "\n" classesModule).tail = [basedClass, bareClass] ∧
      headers "def " (split "\n" classesModule).tail = []) ∧ classesRun.1 = .ok (some classesTarget) := by
        decide +kernel
  have shapes : bareClass.page = "B:\n  y\n" ∧ bareClass.title = "B:\n  y\n" ∧
      classPath classesTarget "A" = "autogenerated_source/m/A.rst" ∧
      classPath classesTarget "B:\n  y\n" = "autogenerated_source/m/B:\n  y\n.rst" := by decide +kernel
  obtain ⟨⟨module, there, decoded, listed, none⟩, done⟩ := evaluated
  obtain ⟨page, title, path, path'⟩ := shapes
  have run : classesRun = (.ok (some classesTarget), classesRun.2) := run_eq_of_ok done
  have names : basedClass.Names "A" (.char '(') "x):" := ⟨rfl, Path.word_of_isWord (by decide), by decide⟩
  obtain ⟨_, found, shown⟩ := classes_found_and_shown module there decoded listed
  obtain ⟨_, same, pages⟩ := shown _ _ _ _ _ _ run
  obtain rfl := Option.some.inj same
  have slashless : .char '/' ∉ bareClass.page := by rw [page]; decide
  have spares : bareClass.Spares basedClass := by
    refine ⟨slashless, fun eq => ?_⟩
    rw [page, names.page_of_paren] at eq
    exact absurd eq (by decide)
  refine ⟨?_, ?_, ?_⟩
  · rcases found "lib.m" with ⟨functions, reading⟩ | ⟨_, header, member, _⟩
    · rw [List.map_cons, List.map_singleton, names.title_of_paren, title] at reading
      exact ⟨functions, reading⟩
    · rw [none] at member
      cases member
  · have first := pages [] basedClass [bareClass] rfl (names.page_of_paren ▸ names.word.slashless)
      fun other member => List.mem_singleton.mp member ▸ spares
    rw [names.page_of_paren, names.title_of_paren] at first
    rw [← path]
    exact first
  · have last := pages [basedClass] bareClass [] rfl slashless fun other member => absurd member List.not_mem_nil
    rw [page, title] at last
    rw [← path']
    exact last

end Pages
end ApiDocs
