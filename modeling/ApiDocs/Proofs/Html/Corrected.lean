import ApiDocs.Proofs.Html.Walk

/-! What the correction of all pages below a directory leaves. Files other than pages are as before, and
a page is as before or corrected as a whole, from what it held before. There are two exceptions: a page
whose path holds bytes that are no text may be left empty, and directories whose paths are too long are
passed over. -/

set_option autoImplicit false

namespace ApiDocs.Html

/-- What the correction of all pages below a directory leaves of a tree. -/
structure Corrected (namespaces : Json) (site : Site) (tree : Tree) (directory : Text)
    (outcome : Except Fault Unit) (after : Tree) : Prop where
  /-- Nothing is made or removed. -/
  shape : tree.SameShape after
  /-- A place keeps what it holds, or is a page with the whole text that it is corrected to. A page is left
  empty only if its path holds bytes that are no text, and the walk ends there. -/
  each : ∀ place, after.get? place = tree.get? place ∨
    ∃ start names text, site.find tree directory = .ok (start, .directory) ∧ place = start ++ names ∧
      PageAt tree start names ∧ correction namespaces site tree (Path.walked directory names) = .ok text ∧
      (text.Plain ∧ after.get? place = some (.file (Utf8.bytesOf text)) ∨
        ¬(Path.walked directory names).Plain ∧ after.get? place = some (.file []) ∧
          ∃ run, outcome = .error (.unencodable run))
  /-- A walk that comes to its end has corrected all pages in directories whose paths are not too long. -/
  all : outcome = .ok () → ∃ start, site.find tree directory = .ok (start, .directory) ∧
    ∀ front name, (tree.get? (start ++ (front ++ [name]))).isSome = true → isPage name = true →
      Path.size (Path.walked directory front) ≤ Path.pathLimit →
      ∃ text, correction namespaces site tree (Path.walked directory (front ++ [name])) = .ok text ∧ text.Plain ∧
        after.get? (start ++ (front ++ [name])) = some (.file (Utf8.bytesOf text))
  /-- It comes to its end in every order of the names in directories, and leaves the same files. -/
  reordered : outcome = .ok () → ∀ arrange perm, ∃ others,
    (correctAll namespaces directory).runOn ⟨site.root, site.start, arrange, perm⟩ tree = (.ok (), others) ∧
      ∀ place, others.get? place = after.get? place

variable {namespaces : Json} {site : Site} {tree : Tree} {directory : Text} {start : Place}

theorem correctAll_refused (nowhere : ∀ start, site.find tree directory ≠ .ok (start, .directory)) :
    ∃ fault, (correctAll namespaces directory).runOn site tree = (.error fault, tree) := by
  have refused : ∃ refusal, Script.directoryPlace directory site tree = .error refusal := by
    unfold Script.directoryPlace
    cases found : site.find tree directory with
    | error refusal => exact ⟨refusal, rfl⟩
    | ok pair =>
      obtain ⟨place, entry⟩ := pair
      cases entry with
      | file bytes => exact ⟨.notDirectory, rfl⟩
      | directory => exact absurd found (nowhere place)
  obtain ⟨refusal, eq⟩ := refused
  refine ⟨refusal.fault directory, ?_⟩
  rw [correctAll, Script.runOn_bind, Script.runOn_get, Script.andThen_ok, correctUpTo_succ, Script.runOn_bind,
    Script.names, Script.runOn_bind, Script.runOn_inspect, eq]
  rfl

/-- The pages that the walk below a directory goes through. -/
def pagesFrom (site : Site) (tree : Tree) (directory : Text) (start : Place) : List Place :=
  pagesBelow site tree (tree.height + 2) directory start

theorem within_height (start : Place) {place : Place} (present : (tree.get? place).isSome = true) :
    place.length < start.length + (tree.height + 2) := by
  have bound := Tree.length_le_height present
  omega

theorem runOn_correctAll (namespaces : Json) (placed : site.Sound) (sound : tree.Sound)
    (found : site.find tree directory = .ok (start, .directory)) :
    (correctAll namespaces directory).runOn site tree =
      ((pagesFrom site tree directory start).forM fun names =>
        correctFile namespaces (Path.walked directory names)).runOn site tree := by
  obtain ⟨located, held⟩ := Site.find_eq_ok_iff.mp found
  rw [correctAll, Script.runOn_bind, Script.runOn_get, Script.andThen_ok]
  exact runOn_correctUpTo namespaces placed sound located held (fun _ => within_height start) (.refl tree)

section

variable (placed : site.Sound) (sound : tree.Sound) (found : site.find tree directory = .ok (start, .directory))
  {outcome : Except Fault Unit} {after : Tree}
  (run : (correctAll namespaces directory).runOn site tree = (outcome, after))

include placed sound found run

theorem correctAll_pages :
    (∀ other, after.get? other = tree.get? other ∨ ∃ names ∈ pagesFrom site tree directory start,
      other = start ++ names ∧ Replaced namespaces site tree (Path.walked directory names) outcome (after.get? other)) ∧
    (outcome = .ok () ↔ ∀ names ∈ pagesFrom site tree directory start, ∃ text,
      correction namespaces site tree (Path.walked directory names) = .ok text ∧ text.Plain) ∧
    (outcome = .ok () → ∀ names ∈ pagesFrom site tree directory start,
      Replaced namespaces site tree (Path.walked directory names) outcome (after.get? (start ++ names))) := by
  obtain ⟨located, held⟩ := Site.find_eq_ok_iff.mp found
  rw [runOn_correctAll namespaces placed sound found] at run
  exact runOn_pages namespaces (nodup_pagesBelow site tree _ directory start)
    (fun names => of_mem_pagesBelow placed sound located held) ⟨.refl tree, fun _ _ => rfl, fun _ _ => rfl⟩ run

theorem correctAll_shape : tree.SameShape after := by
  rw [runOn_correctAll namespaces placed sound found] at run
  have kept : tree.SameShape (((pagesFrom site tree directory start).forM fun names =>
      correctFile namespaces (Path.walked directory names)).runOn site tree).2 := by
    apply Script.forM_keeps site (tree.SameShape ·)
    · intro now names _ same
      exact same.trans (sameShape_correctFile namespaces site now (Path.walked directory names))
    · exact .refl tree
  rwa [run] at kept

theorem correctAll_each (values : PlainValues namespaces) (place : Place) :
    after.get? place = tree.get? place ∨
      ∃ start names text, site.find tree directory = .ok (start, .directory) ∧ place = start ++ names ∧
        PageAt tree start names ∧ correction namespaces site tree (Path.walked directory names) = .ok text ∧
        (text.Plain ∧ after.get? place = some (.file (Utf8.bytesOf text)) ∨
          ¬(Path.walked directory names).Plain ∧ after.get? place = some (.file []) ∧
            ∃ run, outcome = .error (.unencodable run)) := by
  obtain ⟨located, held⟩ := Site.find_eq_ok_iff.mp found
  obtain ⟨frame, _, _⟩ := correctAll_pages placed sound found run
  rcases frame place with kept | ⟨names, member, eq, text, corrected, written⟩
  · exact .inl kept
  · have page := (of_mem_pagesBelow placed sound located held member).1
    refine .inr ⟨start, names, text, found, eq, page, corrected, ?_⟩
    rcases written with whole | ⟨bad, empty, stopped⟩
    · exact .inl whole
    · exact .inr ⟨fun known => bad (plain_correction values corrected fun _ _ _ _ _ _ _ _ => plain_submoduleOf known),
        empty, stopped⟩

theorem correctAll_all (done : outcome = .ok ()) {front : Place} {name : Text}
    (present : (tree.get? (start ++ (front ++ [name]))).isSome = true) (page : isPage name = true)
    (short : Path.size (Path.walked directory front) ≤ Path.pathLimit) :
    ∃ text, correction namespaces site tree (Path.walked directory (front ++ [name])) = .ok text ∧ text.Plain ∧
      after.get? (start ++ (front ++ [name])) = some (.file (Utf8.bytesOf text)) := by
  obtain ⟨_, _, replaced⟩ := correctAll_pages placed sound found run
  have shape := correctAll_shape placed sound found run
  obtain ⟨names, member, rest, eq⟩ : ∃ names ∈ pagesFrom site tree directory start, names <+: front ++ [name] :=
    exists_mem_pagesBelow sound (fun _ => within_height start) present page short
  obtain ⟨text, corrected, ⟨plain, whole⟩ | ⟨_, _, fault, stopped⟩⟩ := replaced done names member
  · by_cases last : rest = []
    · rw [last, List.append_nil] at eq
      rw [← eq]
      exact ⟨text, corrected, plain, whole⟩
    · -- a page that the walk meets on the way is a file, so nothing lies below it
      rw [← eq, ← List.append_assoc] at present
      have directory := (shape.directory _).mp (sound.above last present)
      rw [whole] at directory
      cases directory
  · rw [done] at stopped
    cases stopped

theorem correctAll_reordered (done : outcome = .ok ()) (arrange : Place → List Text → List Text)
    (perm : ∀ place names, (arrange place names).Perm names) :
    ∃ others, (correctAll namespaces directory).runOn ⟨site.root, site.start, arrange, perm⟩ tree =
        (.ok (), others) ∧ ∀ place, others.get? place = after.get? place := by
  obtain ⟨frame, success, replaced⟩ := correctAll_pages placed sound found run
  -- the other site differs in the order only, so paths lead to the same places there
  obtain ⟨other, same⟩ : ∃ other : Site, other = ⟨site.root, site.start, arrange, perm⟩ := ⟨_, rfl⟩
  have found' : other.find tree directory = .ok (start, .directory) := by rw [same]; exact found
  have placed' : other.Sound := by rw [same]; exact placed
  have corrections : ∀ path, correction namespaces other tree path = correction namespaces site tree path := by
    intro path
    rw [same]
    rfl
  have members := fun names => mem_pagesBelow_congr site other tree (tree.height + 2) directory start names
  rw [← same]
  rcases run' : (correctAll namespaces directory).runOn other tree with ⟨outcome', others⟩
  obtain ⟨frame', success', replaced'⟩ := correctAll_pages placed' sound found' run'
  have done' : outcome' = .ok () := by
    refine success'.mpr fun names member => ?_
    rw [corrections]
    exact success.mp done names ((members names).mpr member)
  refine ⟨others, by rw [done'], fun place => ?_⟩
  have whole : ∀ names ∈ pagesFrom site tree directory start,
      others.get? (start ++ names) = after.get? (start ++ names) := by
    intro names member
    obtain ⟨text, corrected, ⟨_, eq⟩ | ⟨_, _, fault, stopped⟩⟩ := replaced done names member
    · obtain ⟨text', corrected', ⟨_, eq'⟩ | ⟨_, _, fault, stopped⟩⟩ :=
        replaced' done' names ((members names).mp member)
      · rw [corrections, corrected] at corrected'
        rw [eq, eq', Except.ok.inj corrected']
      · rw [done'] at stopped
        cases stopped
    · rw [done] at stopped
      cases stopped
  rcases frame place with kept | ⟨names, member, rfl, _⟩
  · rcases frame' place with kept' | ⟨names, member, rfl, _⟩
    · rw [kept, kept']
    · exact whole names ((members names).mpr member)
  · exact whole names member

end

theorem correctAll_leaves_whole_pages (namespaces : Json) (values : PlainValues namespaces) (site : Site)
    (placed : site.Sound) (tree : Tree) (sound : tree.Sound) (directory : Text) :
    Corrected namespaces site tree directory ((correctAll namespaces directory).runOn site tree).1
      ((correctAll namespaces directory).runOn site tree).2 := by
  by_cases somewhere : ∃ start, site.find tree directory = .ok (start, .directory)
  · obtain ⟨start, found⟩ := somewhere
    have run := (Prod.eta ((correctAll namespaces directory).runOn site tree)).symm
    constructor
    · exact correctAll_shape placed sound found run
    · exact correctAll_each placed sound found run values
    · exact fun done => ⟨start, found, fun _ _ => correctAll_all placed sound found run done⟩
    · exact correctAll_reordered placed sound found run
  · obtain ⟨fault, stop⟩ : ∃ fault, (correctAll namespaces directory).runOn site tree = (.error fault, tree) :=
      correctAll_refused fun start found => somewhere ⟨start, found⟩
    rw [stop]
    constructor
    · exact .refl tree
    · exact fun _ => .inl rfl
    · intro impossible
      cases impossible
    · intro impossible
      cases impossible

def sampleSite : Site := Site.ascending "/work" ["docs"]

def sampleNamespaces : Json := .object [("ivy.functional", .text "ivy")]

def wideName : Text := List.replicate 63 (.char '𝄞')

def samplePage : Text := "\n\n<dt class=\"sig sig-object py\" id=\"ivy.array_methods.f\">\n"

def sampleTree : Tree := ⟨[
  (["docs"], .directory), (["docs", "ivy_modules.txt"], .file []),
  (["docs", "build"], .directory), (["docs", "build", wideName], .directory),
  (["docs", "build", "folders"], .directory),
  (["docs", "build", "folders", "a.html"], .file (Utf8.bytesOf samplePage)),
  (["docs", "build", "functional"], .directory), (["docs", "build", "functional", "ivy"], .directory),
  (["docs", "build", "functional", "ivy", "é"], .directory),
  (["docs", "build", "functional", "ivy", "é", "a.html"], .file (Utf8.bytesOf samplePage))]⟩

/-- A directory whose name is written byte by byte. -/
def brokenPath : Text := ("build/functional/ivy/" : Text) ++ [.surrogate 0x4C3, .surrogate 0x4A9]

def longPath : Text := "build" ++ Text.times 15 ("/" ++ wideName ++ "/..") ++ Text.times 27 "/../build"

/-- Neither holds without exception: a page is left empty, though its text is not, and a walk that comes
to its end has not corrected a page. -/
theorem correctAll_empties_and_passes_over :
    (((correctAll sampleNamespaces brokenPath).runOn sampleSite sampleTree).2.get?
        ["docs", "build", "functional", "ivy", "é", "a.html"] = some (.file []) ∧
      sampleTree.get? ["docs", "build", "functional", "ivy", "é", "a.html"] ≠ some (.file []) ∧
      correction sampleNamespaces sampleSite sampleTree (Path.join brokenPath "a.html") ≠ .ok []) ∧
    (correctAll sampleNamespaces longPath).runOn sampleSite sampleTree = (.ok (), sampleTree) ∧
      correct sampleNamespaces [] (Path.walked longPath ["folders", "a.html"]) samplePage ≠ .ok samplePage := by
  decide +kernel

theorem sampleTree_sound : sampleTree.Sound := by
  have named : ∀ entry ∈ sampleTree.entries, ∀ name ∈ entry.1, Path.Named name := by
    intro entry member name inside
    have checked : ∀ entry ∈ sampleTree.entries, ∀ name ∈ entry.1,
        (name.all fun point => !point.isSurrogate) = true ∧ name ≠ [] ∧ .char '/' ∉ name ∧
          .char '\x00' ∉ name ∧ name ≠ "." ∧ name ≠ ".." ∧ Path.size name ≤ Path.nameLimit := by
      decide +kernel
    obtain ⟨plain, proper, slash, null, here, above, short⟩ := checked entry member name inside
    exact Path.named_of_plain (by simpa [Text.Plain] using plain) proper slash null here above short
  refine Tree.sound_of_entries fun entry member front name eq => ⟨named entry member name (by simp [eq]), ?_⟩
  have parents : ∀ entry ∈ sampleTree.entries, sampleTree.get? entry.1.dropLast = some .directory := by
    decide +kernel
  simpa [eq] using parents entry member

theorem correctAll_leaves_whole_pages_sample :
    PlainValues sampleNamespaces ∧ sampleSite.Sound ∧ sampleTree.Sound ∧
      Corrected sampleNamespaces sampleSite sampleTree brokenPath
        ((correctAll sampleNamespaces brokenPath).runOn sampleSite sampleTree).1
        ((correctAll sampleNamespaces brokenPath).runOn sampleSite sampleTree).2 := by
  have values : PlainValues sampleNamespaces := by
    rintro members same key value member
    cases same
    cases List.mem_singleton.mp member
    exact Text.plain_ofChars _
  have placed : sampleSite.Sound := .inr (by decide)
  exact ⟨values, placed, sampleTree_sound,
    correctAll_leaves_whole_pages sampleNamespaces values sampleSite placed sampleTree sampleTree_sound brokenPath⟩

end ApiDocs.Html
