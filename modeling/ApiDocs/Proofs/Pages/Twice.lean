import ApiDocs.Proofs.File.Twin
import ApiDocs.Proofs.Pages.Layout

/-! Pages of two runs. Two runs that write the pages of modules alike write all pages alike, as long as the
trees do not differ where readmes and the parts of the index are read. -/

set_option autoImplicit false

namespace ApiDocs

namespace Pages

open Script

variable {site : Site} {differ : Place → Bytes → Bytes → Prop} {base : Tree}

theorem follows_directories {writes : Place → Prop} (paths : List Text) :
    Follows site (Tree.Twin differ writes base) (Tree.Twin differ writes base)
      (fun found others => found = others ∧ found ⊆ paths) (Module.directories paths) (Module.directories paths) := by
  apply follows_of_look
  intro tree other twin found after run
  rw [Module.runOn_directories] at run
  obtain ⟨eq, rfl⟩ := Prod.mk.inj run
  obtain rfl := Except.ok.inj eq
  refine ⟨rfl, _, Module.runOn_directories site other paths, ?_, fun path member => (List.mem_filter.mp member).1⟩
  simp only [isDirectory_shape twin.alike.shape]

/-- What the pages are read from does not differ, and differing pages may grow. -/
structure Undisturbed (site : Site) (differ : Place → Bytes → Bytes → Prop) (base : Tree) (settings : Settings) :
    Prop where
  grows : ∀ place first second added, place.IsPage → differ place first second →
    differ place (first ++ added) (second ++ added)
  readme : ∀ names place first second, (∀ name ∈ names, Path.Named name) →
    site.Leads Place.IsPage base (Path.join (Path.walked settings.library names) "README.rst") place →
      ¬differ place first second
  fixed : ∀ path ∈ ([("partial_source/index_prepend.rst" : Text), ("../README.rst" : Text),
      ("partial_source/index_append.rst" : Text), Path.join settings.here "ivy_modules.txt"] : List Text),
      ∀ place first second,
    site.Leads Place.IsPage base path place → ¬differ place first second

theorem isPage_of_leads {path : Text} (ends : (".rst" : Text) <:+ path) (place : Place)
    (leads : site.Leads Place.IsPage base path place) (proper : place ≠ []) : place.IsPage := by
  obtain ⟨tree, _, located⟩ := leads
  exact (Site.isPage_of_locate ends located).resolve_left proper

theorem suffix_index : (".rst" : Text) <:+ folder ++ "/index.rst" := ⟨folder ++ "/index", by decide⟩

variable {settings : Settings} (undisturbed : Undisturbed site differ base settings)

theorem follows_writePage {path : Text} (ends : (".rst" : Text) <:+ path) (text : Text) :
    Follows site (Tree.Twin differ Place.IsPage base) (Tree.Twin differ Place.IsPage base) Eq
      (writeText path text) (writeText path text) :=
  follows_writeText (isPage_of_leads ends) (fun plain => plain) (.inl rfl)

include undisturbed

theorem follows_appendPage {path : Text} (ends : (".rst" : Text) <:+ path) (toctree : Toctree) (common : Option Text)
    (spaced : Bool) :
    Follows site (Tree.Twin differ Place.IsPage base) (Tree.Twin differ Place.IsPage base) Eq
      (toctree.append path common spaced) (toctree.append path common spaced) := by
  unfold Toctree.append
  apply follows_appendText (isPage_of_leads ends) (fun plain => plain)
  intro place left right _ page related
  rcases related with rfl | differs
  · exact .inl rfl
  · exact .inr (undisturbed.grows place left right _ page differs)

theorem follows_readmeCopy {names : Place} (named : ∀ name ∈ names, Path.Named name) {page : Text}
    (ends : (".rst" : Text) <:+ page) :
    Follows site (Tree.Twin differ Place.IsPage base) (Tree.Twin differ Place.IsPage base) Eq
      (Readme.copy (Path.join (Path.walked settings.library names) "README.rst") page)
      (Readme.copy (Path.join (Path.walked settings.library names) "README.rst") page) := by
  unfold Readme.copy
  apply (follows_readText fun place first second => undisturbed.readme names place first second named).andThen
  exact fun text => follows_writePage ends text

theorem follows_writeDirectory {names : Place} (named : ∀ name ∈ names, Path.Named name) (frameworks save : Text)
    (contents directories modules : List Text) :
    Follows site (Tree.Twin differ Place.IsPage base) (Tree.Twin differ Place.IsPage base) Eq
      (writeDirectory settings (Path.walked settings.library names) save contents directories modules)
      (writeDirectory { settings with frameworks } (Path.walked settings.library names) save contents directories
        modules) := by
  unfold writeDirectory
  split
  · have ends : (".rst" : Text) <:+ Path.join (Text.join "/" (Text.split "/" save).dropLast)
        ((Text.split "/" save).getLastD [] ++ ".rst") :=
      (List.suffix_append _ _).trans (Path.suffix_join _ _)
    split
    · apply (follows_readmeCopy undisturbed named ends).andThen
      exact fun _ => follows_appendPage undisturbed ends _ _ _
    · exact follows_appendPage undisturbed ends _ _ _
  · exact Follows.pure rfl

theorem follows_finishIndex (toctree : Toctree) :
    Follows site (Tree.Twin differ Place.IsPage base) (Tree.Twin differ Place.IsPage base) Eq
      (finishIndex settings toctree) (finishIndex settings toctree) := by
  unfold finishIndex
  apply (follows_readLines fun place first second => undisturbed.fixed _ (by simp) place first second).andThen
  intro lines
  apply (follows_makeDirectories _ _).andThen
  intro _
  apply Follows.andThen
  · apply Follows.forM
    intro page member
    obtain ⟨line, _, rfl⟩ := List.mem_map.mp member
    exact follows_writePage ((List.suffix_append _ _).trans (List.suffix_append _ _)) _
  · exact fun _ => follows_appendPage undisturbed suffix_index _ _ _

theorem follows_fillIndex (folders : Toctree) (head : Text) :
    Follows site (Tree.Twin differ Place.IsPage base) (Tree.Twin differ Place.IsPage base) Eq
      (fillIndex settings folders head) (fillIndex settings folders head) := by
  unfold fillIndex
  apply (follows_writePage suffix_index head).andThen
  intro _
  split
  · exact follows_finishIndex undisturbed _
  · apply (follows_appendPage undisturbed suffix_index _ _ _).andThen
    exact fun _ => follows_finishIndex undisturbed _
  · exact Follows.throw

theorem follows_writeIndex (frameworks : Text) (folders : Toctree) :
    Follows site (Tree.Twin differ Place.IsPage base) (Tree.Twin differ Place.IsPage base) Eq
      (writeIndex settings folders) (writeIndex { settings with frameworks } folders) := by
  have fixed := undisturbed.fixed
  simp only [List.mem_cons, List.not_mem_nil, or_false] at fixed
  show Follows site _ _ Eq (writeIndex settings folders) (writeIndex settings folders)
  rw [writeIndex_eq]
  apply (follows_readText (fixed _ (.inl rfl))).andThen
  intro before
  apply (follows_readText (fixed _ (.inr (.inl rfl)))).andThen
  intro source
  apply Follows.ofExcept_self.andThen
  intro readme
  apply (follows_present _).andThen
  intro there
  cases there with
  | true =>
    apply (follows_readText (fixed _ (.inr (.inr (.inl rfl))))).andThen
    exact fun after => follows_fillIndex undisturbed folders _
  | false => exact follows_fillIndex undisturbed folders _

def ModulesAlike (site : Site) (differ : Place → Bytes → Bytes → Prop) (base : Tree) (settings : Settings)
    (frameworks : Text) (holds : Place → Option Target → Prop) : Prop :=
  ∀ names name previous, (∀ name ∈ names, Path.Named name) → Path.Named name →
    Module.isModule (Path.join (Path.walked settings.library names) name) = true → holds names previous →
    Follows site (Tree.Twin differ Place.IsPage base) (Tree.Twin differ Place.IsPage base)
      (fun next next' => next = next' ∧ holds names next)
      (writeModule settings (Module.locate settings (Path.walked settings.library names))
        (frameworksFor settings (Path.walked settings.library names)) previous
        (Path.join (Path.walked settings.library names) name))
      (writeModule { settings with frameworks } (Module.locate settings (Path.walked settings.library names))
        (frameworksFor { settings with frameworks } (Path.walked settings.library names)) previous
        (Path.join (Path.walked settings.library names) name))

theorem follows_writeUpTo {frameworks : Text} {holds : Place → Option Target → Prop} (begin : ∀ names, holds names none)
    (alike : ModulesAlike site differ base settings frameworks holds) (depth : Nat) {names : Place}
    (named : ∀ name ∈ names, Path.Named name) :
    Follows site (Tree.Twin differ Place.IsPage base) (Tree.Twin differ Place.IsPage base) Eq
      (writeUpTo settings depth (Path.walked settings.library names))
      (writeUpTo { settings with frameworks } depth (Path.walked settings.library names)) := by
  induction depth generalizing names with
  | zero => exact Follows.throw
  | succ depth ih =>
    unfold writeUpTo
    apply (follows_names _).bind
    rintro listed _ ⟨rfl, proper⟩
    have each : ∀ path ∈ (Text.sort listed).map (Path.join (Path.walked settings.library names)),
        ∃ name, Path.Named name ∧ path = Path.join (Path.walked settings.library names) name := by
      intro path member
      obtain ⟨name, inside, rfl⟩ := List.mem_map.mp member
      exact ⟨name, proper name ((Text.sort_perm listed).mem_iff.mp inside), rfl⟩
    apply (follows_makeDirectories _ _).andThen
    intro _
    apply (follows_directories _).bind
    rintro directories _ ⟨rfl, among⟩
    -- the folders of both runs are the same, and so is by induction what is done in each
    apply Follows.andThen
    · apply Follows.mapM
      intro inner member
      obtain ⟨name, new, rfl⟩ := each inner (among (List.mem_filter.mp member).1)
      have further := ih (List.forall_mem_append.mpr ⟨named, List.forall_mem_singleton.mpr new⟩)
      rw [Path.walked_snoc] at further
      apply further.andThen
      exact fun _ => Follows.pure rfl
    · intro folders
      apply Follows.bind
      · apply Follows.foldlM (begin names)
        intro previous path member kept
        obtain ⟨inside, module⟩ := List.mem_filter.mp member
        obtain ⟨name, new, rfl⟩ := each path inside
        exact alike names name previous named new module kept
      · rintro last _ ⟨rfl, _⟩
        apply (follows_writeDirectory undisturbed named frameworks _ _ _ _).andThen
        intro _
        split
        · apply (follows_writeIndex undisturbed frameworks _).andThen
          exact fun _ => Follows.pure rfl
        · exact Follows.pure rfl

theorem follows_write {frameworks : Text} {holds : Place → Option Target → Prop} (begin : ∀ names, holds names none)
    (alike : ModulesAlike site differ base settings frameworks holds) :
    Follows site (Tree.Twin differ Place.IsPage base) (Tree.Twin differ Place.IsPage base) Eq
      (write settings settings.library) (write { settings with frameworks } settings.library) := by
  intro tree other value after twin run
  have none : ∀ name ∈ ([] : Place), Path.Named name := fun name member => absurd member List.not_mem_nil
  have deep := follows_writeUpTo undisturbed begin alike (2 * (tree.height + 4)) none
  rw [runOn_write] at run
  obtain ⟨result, final, run', same, twin'⟩ := deep tree other value after twin run
  rw [twin.alike.shape.height] at run'
  refine ⟨result, final, ?_, same, twin'⟩
  rw [runOn_write]
  exact run'

end Pages
end ApiDocs
