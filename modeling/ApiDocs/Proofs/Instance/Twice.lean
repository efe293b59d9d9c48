import ApiDocs.Proofs.Instance.Filed
import ApiDocs.Proofs.StubBeside
import ApiDocs.Proofs.Pages.Twice

/-! Methods filed twice. Two runs that find a method in the same module file its page alike, as long as the
trees do not differ where the pages of methods and functions are read. -/

set_option autoImplicit false

namespace ApiDocs.Instance

open Script

variable {site : Site} {differ : Place → Bytes → Bytes → Prop} {base : Tree}

theorem follows_refill {path : Text} (ends : (".rst" : Text) <:+ path) (lines : Except Fault (List Text)) :
    Follows site (Tree.Twin differ Place.IsPage base) (Tree.Twin differ Place.IsPage base) Eq
      (refill path lines) (refill path lines) := by
  unfold refill
  apply (Pages.follows_writePage ends []).andThen
  intro _
  apply Follows.ofExcept_self.andThen
  exact fun found => Pages.follows_writePage ends _

/-- The pages of methods and functions do not differ where they are read. -/
structure Settled (site : Site) (differ : Place → Bytes → Bytes → Prop) (base : Tree) (path stubs functional : Text) :
    Prop where
  methods : ∀ file place first second, Path.Named file →
    site.Leads Place.IsPage base (Path.join path file) place → ¬differ place first second
  functions : ∀ name file place first second, .char '\n' ∉ name → Path.Named file →
    site.Leads Place.IsPage base (Path.join (Path.join functional (moduleOf stubs name)) file) place →
      ¬differ place first second

theorem suffix_page (directory name : Text) : (".rst" : Text) <:+ Path.join directory (name ++ ".rst") :=
  (List.suffix_append _ _).trans (Path.suffix_join _ _)

def SamePage (page other : Option Text) : Prop := page = other ∧ ∀ path, page = some path → (".rst" : Text) <:+ path

theorem follows_filePage (type modulePath file raw directive : Text) (lines : List Text)
    (apart : ∀ place first second,
      site.Leads Place.IsPage base (Path.join modulePath (baseName raw ++ ".rst")) place → ¬differ place first second) :
    Follows site (Tree.Twin differ Place.IsPage base) (Tree.Twin differ Place.IsPage base) SamePage
      (filePage type modulePath file raw directive lines) (filePage type modulePath file raw directive lines) := by
  unfold filePage
  apply (follows_makeDirectories _ _).andThen
  intro _
  apply (follows_readLines apart).andThen
  intro pageLines
  apply Follows.ofExcept_self.andThen
  intro merged
  apply (follows_refill (suffix_page _ _) _).andThen
  intro _
  apply (follows_present _).andThen
  intro copied
  have filed : Follows site (Tree.Twin differ Place.IsPage base) (Tree.Twin differ Place.IsPage base) SamePage
      (do
        writeText (Path.join modulePath (baseName raw ++ ".rst")) merged.flatten
        return some (Path.join modulePath (baseName raw ++ ".rst")))
      (do
        writeText (Path.join modulePath (baseName raw ++ ".rst")) merged.flatten
        return some (Path.join modulePath (baseName raw ++ ".rst"))) := by
    apply (Pages.follows_writePage (suffix_page _ _) _).andThen
    intro _
    apply Follows.pure
    exact ⟨rfl, fun path eq => by cases eq; exact suffix_page _ _⟩
  cases copied with
  | true => exact filed
  | false =>
    have copies : Follows site (Tree.Twin differ Place.IsPage base) (Tree.Twin differ Place.IsPage base) Eq
        (refill (Path.join (Path.join modulePath (baseName raw)) (baseName raw ++ "_functional.rst"))
          (retitle "/../logos" ("ivy." ++ baseName raw) pageLines))
        (refill (Path.join (Path.join modulePath (baseName raw)) (baseName raw ++ "_functional.rst"))
          (retitle "/../logos" ("ivy." ++ baseName raw) pageLines)) := by
      apply follows_refill
      exact (List.suffix_append_of_suffix (show (".rst" : Text) <:+ "_functional.rst" by decide)).trans
        (Path.suffix_join _ _)
    exact copies.andThen fun _ => filed

theorem follows_mergePage {type path stubs others functional file : Text}
    (settled : Settled site differ base path stubs functional)
    (modules : ∀ name, .char '\n' ∉ name → moduleOf others name = moduleOf stubs name) (named : Path.Named file) :
    Follows site (Tree.Twin differ Place.IsPage base) (Tree.Twin differ Place.IsPage base) SamePage
      (mergePage type path stubs functional file) (mergePage type path others functional file) := by
  have nothing : Follows site (Tree.Twin differ Place.IsPage base) (Tree.Twin differ Place.IsPage base) SamePage
      (pure none) (pure none) := Follows.pure ⟨rfl, fun path eq => by cases eq⟩
  rw [mergePage_eq, mergePage_eq]
  apply (follows_readLines_text fun place first second => settled.methods file place first second named).bind
  rintro lines _ ⟨rfl, text, rfl⟩
  cases found : (Text.lines text).find? isDirective with
  | none => exact nothing
  | some directive =>
    have line := List.mem_of_find?_eq_some found
    have method : Follows site (Tree.Twin differ Place.IsPage base) (Tree.Twin differ Place.IsPage base)
        (fun name name' => name = name' ∧ .char '\n' ∉ name) (Script.ofExcept id (directiveName directive))
        (Script.ofExcept id (directiveName directive)) :=
      Follows.ofExcept fun name eq => ⟨name, eq, rfl, directiveName_line line eq⟩
    apply method.bind
    rintro name _ ⟨rfl, single⟩
    -- the module is looked up in stubs that may differ, but not for a name within one line
    rw [modules name single]
    by_cases unmerged : unmergedModules.contains (moduleOf stubs name) = true
    · rw [if_pos unmerged]
      exact nothing
    rw [if_neg unmerged]
    apply (follows_present _).andThen
    intro there
    cases there with
    | false => exact nothing
    | true =>
      apply (follows_names _).bind
      rintro listed _ ⟨rfl, proper⟩
      cases known : listed.contains (baseName name ++ (".rst" : Text)) with
      | false => exact nothing
      | true =>
        apply follows_filePage
        exact fun place first second =>
          settled.functions name _ place first second single (proper _ (List.contains_iff_mem.mp known))

/-- Methods are found in the same modules, whose pages do not differ. -/
def Matched (site : Site) (differ : Place → Bytes → Bytes → Prop) (base : Tree) (path functional stubs others : Text) :
    Prop :=
  Settled site differ base path stubs functional ∧
    ∀ name, .char '\n' ∉ name → moduleOf others name = moduleOf stubs name

theorem follows_merge {type path stubs others functional : Text} {files : List Text}
    (matched : Matched site differ base path functional stubs others) (named : ∀ file ∈ files, Path.Named file) :
    Follows site (Tree.Twin differ Place.IsPage base) (Tree.Twin differ Place.IsPage base)
      (fun pages pages' => pages = pages' ∧ ∀ page ∈ pages, (".rst" : Text) <:+ page)
      (merge type path files stubs functional) (merge type path files others functional) := by
  unfold merge
  apply (Follows.filterMapM fun file member =>
    follows_mergePage matched.1 matched.2 (named file member)).bind
  rintro pages _ ⟨rfl, every⟩
  apply Follows.pure
  exact ⟨rfl, fun page member => every page (Text.mem_sortDistinct.mp member)⟩

theorem follows_listFolder {settings : Settings} (undisturbed : Pages.Undisturbed site differ base settings)
    {page : Text} (ends : (".rst" : Text) <:+ page) :
    Follows site (Tree.Twin differ Place.IsPage base) (Tree.Twin differ Place.IsPage base) Eq
      (listFolder page) (listFolder page) := by
  unfold listFolder
  apply (follows_names _).bind
  rintro files _ ⟨rfl, _⟩
  apply Follows.ofExcept_self.andThen
  exact fun listed => Pages.follows_appendPage undisturbed ends _ _ _

def functionalPath (settings : Settings) : Text :=
  Path.join (Path.join (Path.join settings.here Pages.folder) "functional") "ivy"

def methodsPath (settings : Settings) (kind : Text) : Text :=
  Path.join (Path.join (Path.join settings.here Pages.folder) kind) (kind ++ "_methods")

theorem follows_mergeAll {settings : Settings} (undisturbed : Pages.Undisturbed site differ base settings)
    (stubs : ∀ kind ∈ ([("array" : Text), ("container" : Text)] : List Text),
      Follows site (Tree.Twin differ Place.IsPage base) (Tree.Twin differ Place.IsPage base)
        (Matched site differ base (methodsPath settings kind) (functionalPath settings))
        (readText (Stub.stubsPath settings kind)) (readText (Stub.stubsPath settings kind))) :
    Follows site (Tree.Twin differ Place.IsPage base) (Tree.Twin differ Place.IsPage base) Eq
      (mergeAll settings) (mergeAll settings) := by
  unfold mergeAll
  apply (stubs "array" (by simp)).bind
  intro arrays arrays' matchedArrays
  apply (stubs "container" (by simp)).bind
  intro containers containers' matchedContainers
  apply (follows_names _).bind
  rintro arrayFiles _ ⟨rfl, arrayNamed⟩
  apply (follows_names _).bind
  rintro containerFiles _ ⟨rfl, containerNamed⟩
  apply (follows_merge matchedContainers containerNamed).bind
  rintro fromContainer _ ⟨rfl, containerPages⟩
  apply (follows_merge matchedArrays arrayNamed).bind
  rintro fromArray _ ⟨rfl, arrayPages⟩
  -- the page lists what its folder holds, and both kinds have left only pages that are no different
  apply Follows.forM
  intro page member
  apply follows_listFolder undisturbed
  rcases List.mem_append.mp (Text.mem_sortDistinct.mp member) with container | array
  · exact containerPages page container
  · exact arrayPages page array

end ApiDocs.Instance
