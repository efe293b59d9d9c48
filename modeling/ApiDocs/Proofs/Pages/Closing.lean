import ApiDocs.Build
import ApiDocs.Proofs.File.Pair

/-! The last steps of two runs: the folders of the data classes are moved, the pages of the sections are written
and the links are appended. Titles are dropped from any page that a lifted page lists, so the trees may differ
in such a page only in a way that dropping the title keeps. -/

set_option autoImplicit false

namespace ApiDocs

open Script

def DataClass.untitled (text : Text) : Text := ((Text.lines (Text.unifyNewlines text)).drop 3).flatten

/-- Ways of differing that pages keep when they grow and when they lose their titles. -/
structure Tree.Lasting (differ : Place → Bytes → Bytes → Prop) : Prop where
  grows : ∀ place first second added, place.IsPage → differ place first second →
    differ place (first ++ added) (second ++ added)
  titles : ∀ place first second text, differ place first second → Utf8.decodeLines first = .ok text →
    ∃ other, Utf8.decodeLines second = .ok other ∧
      (DataClass.untitled text = DataClass.untitled other ∨
        differ place (Utf8.bytesOf (DataClass.untitled text)) (Utf8.bytesOf (DataClass.untitled other)))

variable {site : Site} {differ : Place → Bytes → Bytes → Prop}

namespace DataClass

theorem plain_untitled {bytes : Bytes} {text : Text} (decoded : Utf8.decodeLines bytes = .ok text) :
    (untitled text).Plain := by
  apply Text.plain_flatten.mpr
  intro line member
  exact (Utf8.plain_of_decodeLines decoded).unifyNewlines.lines line (List.mem_of_mem_drop member)

theorem runOn_dropTitle_ok {page : Text} {tree after : Tree}
    (run : (dropTitle page).runOn site tree = (.ok (), after)) :
    ∃ place bytes text, site.find tree page = .ok (place, .file bytes) ∧ Utf8.decodeLines bytes = .ok text ∧
      after = tree.put place (.file (Utf8.bytesOf (untitled text))) := by
  obtain ⟨lines, between, first, run⟩ := runOn_bind_ok run
  rw [runOn_readLines] at first
  obtain ⟨read, rfl⟩ := Prod.mk.inj first
  unfold linesAt at read
  cases held : bytesAt site tree page with
  | error fault => rw [held] at read; cases read
  | ok bytes =>
    rw [held] at read
    simp only [bind, Except.bind] at read
    cases decoded : Utf8.decodeLines bytes with
    | error defect => rw [decoded] at read; cases read
    | ok text =>
      rw [decoded] at read
      cases read
      obtain ⟨place, found⟩ := (bytesAt_eq_ok_iff site tree).mp held
      obtain ⟨_, spot, old, writes, rfl⟩ := runOn_writeText_ok site tree run
      rw [writable_of_find found] at writes
      cases writes
      exact ⟨place, bytes, text, found, decoded, rfl⟩

theorem runOn_dropTitle_of {page text : Text} {tree : Tree} {place : Place} {bytes : Bytes}
    (found : site.find tree page = .ok (place, .file bytes)) (decoded : Utf8.decodeLines bytes = .ok text) :
    (dropTitle page).runOn site tree = (.ok (), tree.put place (.file (Utf8.bytesOf (untitled text)))) := by
  have held : bytesAt site tree page = .ok bytes := (bytesAt_eq_ok_iff site tree).mpr ⟨place, found⟩
  unfold dropTitle
  rw [runOn_bind, runOn_readLines, linesAt, held]
  simp only [bind, Except.bind, decoded, Except.mapError, pure, Except.pure, andThen_ok]
  exact runOn_writeText_of site tree (plain_untitled decoded) (writable_of_find found)

theorem follows_dropTitle (lasting : Tree.Lasting differ) (page : Text) :
    Follows site (Tree.Paired differ) (Tree.Paired differ) Eq (dropTitle page) (dropTitle page) := by
  intro tree other value after paired run
  obtain ⟨place, bytes, text, found, decoded, rfl⟩ := runOn_dropTitle_ok run
  have same := paired.alike.shape
  obtain ⟨located, held⟩ := Site.find_eq_ok_iff.mp found
  obtain ⟨more, there⟩ := same.file held
  have found' : site.find other page = .ok (place, .file more) :=
    Site.find_eq_ok_iff.mpr ⟨site.locate_shape same page ▸ located, there⟩
  have answer : ∃ text', Utf8.decodeLines more = .ok text' ∧ (untitled text = untitled text' ∨
      differ place (Utf8.bytesOf (untitled text)) (Utf8.bytesOf (untitled text'))) := by
    rcases paired.alike.files place bytes more held there with rfl | differs
    · exact ⟨text, decoded, .inl rfl⟩
    · exact lasting.titles place bytes more text differs decoded
  obtain ⟨text', decoded', related⟩ := answer
  have vacant : tree.get? place ≠ some .directory := by rw [held]; intro eq; cases eq
  refine ⟨(), _, runOn_dropTitle_of found' decoded', rfl, ?_, ?_, ?_, ?_⟩
  · exact paired.alike.put (related.imp_left (congrArg Utf8.bytesOf))
  · exact paired.sound.put (fun directory => absurd directory vacant) (.inl (by rw [held]; rfl))
  · exact paired.distinct.put _ _
  · exact paired.otherDistinct.put _ _

theorem follows_moveEntry (lasting : Tree.Lasting differ) (directory submodule line : Text) :
    Follows site (Tree.Paired differ) (Tree.Paired differ) Eq
      (moveEntry directory submodule line) (moveEntry directory submodule line) := by
  unfold moveEntry
  split
  · apply (follows_dropTitle lasting _).andThen
    exact fun _ => Follows.pure rfl
  · exact Follows.pure rfl

theorem follows_moveLine (lasting : Tree.Lasting differ) (directory submodule line : Text) :
    Follows site (Tree.Paired differ) (Tree.Paired differ) Eq
      (moveLine directory submodule line) (moveLine directory submodule line) := by
  unfold moveLine
  split
  · apply (follows_moveEntry lasting _ _ _).andThen
    exact fun _ => Follows.pure rfl
  · apply (follows_moveEntry lasting _ _ _).andThen
    exact fun _ => Follows.pure rfl

theorem follows_liftPage (lasting : Tree.Lasting differ) {page source submodule : Text}
    (apart : ∀ tree place first second, site.locate tree source = .ok place → ¬differ place first second) :
    Follows site (Tree.Paired differ) (Tree.Paired differ) Eq
      (liftPage page source submodule) (liftPage page source submodule) := by
  unfold liftPage
  apply Follows.andThen
  · apply Follows.anywhere
    rintro base
    apply follows_readLines
    rintro place first second ⟨tree, _, located⟩
    exact apart tree place first second located
  intro lines
  apply Follows.andThen
  · exact Follows.mapM fun line _ => follows_moveLine lasting _ _ line
  · exact fun moved => follows_writeText_anywhere _ _

def Liftable (site : Site) (differ : Place → Bytes → Bytes → Prop) (page : Text) : Prop :=
  ∀ kind ∈ ([("array" : Text), ("container" : Text)] : List Text), ∀ tree place first second,
    site.locate tree (Text.replace ("data_classes/" ++ kind ++ ".rst")
      ("data_classes/" ++ kind ++ "/" ++ kind ++ ".rst") page) =
      .ok place → ¬differ place first second

theorem follows_writePage (lasting : Tree.Lasting differ) (folder title dotted submodule : Text) {page : Text}
    (ends : (".rst" : Text) <:+ page) (liftable : Liftable site differ page) :
    Follows site (Tree.Paired differ) (Tree.Paired differ) Eq
      (writePage folder page title dotted submodule) (writePage folder page title dotted submodule) := by
  have listed : Follows site (Tree.Paired differ) (Tree.Paired differ) Eq
      (do
        let files := (← names folder).filter fun file =>
          Text.mentions ".rst" file && !(["array.rst", "container.rst"] : List Text).contains file
        Toctree.append [(submodule, Text.sort files)] page (some title) true)
      (do
        let files := (← names folder).filter fun file =>
          Text.mentions ".rst" file && !(["array.rst", "container.rst"] : List Text).contains file
        Toctree.append [(submodule, Text.sort files)] page (some title) true) := by
    apply Follows.bind
    · exact Follows.anywhere fun _ => follows_names folder
    · rintro files _ ⟨rfl, _⟩
      exact follows_appendText_page lasting.grows ends _
  unfold writePage
  split
  · exact (follows_liftPage lasting (liftable "array" (by simp))).andThen fun _ => listed
  · split
    · exact (follows_liftPage lasting (liftable "container" (by simp))).andThen fun _ => listed
    · exact (follows_writeText_anywhere _ _).andThen fun _ => listed

theorem follows_listInIndex (lasting : Tree.Lasting differ) (pages name title : Text) :
    Follows site (Tree.Paired differ) (Tree.Paired differ) Eq
      (listInIndex pages name title) (listInIndex pages name title) := by
  unfold listInIndex
  apply Follows.bind
  · exact Follows.anywhere fun _ => follows_names _
  · rintro files _ ⟨rfl, _⟩
    exact follows_appendText_page lasting.grows
      ((by decide : (".rst" : Text) <:+ "index.rst").trans (Path.suffix_join _ _)) _

theorem follows_rearrangeIndex (lasting : Tree.Lasting differ) {pages : Text}
    (apart : ∀ tree place first second, site.locate tree (Path.join pages "index.rst") = .ok place →
      ¬differ place first second) :
    Follows site (Tree.Paired differ) (Tree.Paired differ) Eq (rearrangeIndex pages) (rearrangeIndex pages) := by
  unfold rearrangeIndex
  apply Follows.andThen
  · apply Follows.anywhere
    intro base
    apply follows_readLines
    rintro place first second ⟨tree, _, located⟩
    exact apart tree place first second located
  intro lines
  apply Follows.ofExcept_self.andThen
  rintro ⟨before, after⟩
  apply (follows_writeText_anywhere _ _).andThen
  intro _
  apply (follows_listInIndex lasting _ _ _).andThen
  intro _
  apply (follows_listInIndex lasting _ _ _).andThen
  intro _
  exact follows_appendText_page lasting.grows
    ((by decide : (".rst" : Text) <:+ "index.rst").trans (Path.suffix_join _ _)) _

def writeSections (pages classes : Text) : Script Unit := do
  writePage (Path.join pages "stateful") (Path.join pages "stateful.rst") "Framework Classes"
    "ivy.stateful" "stateful"
  writePage (Path.join classes "array") (Path.join classes "array.rst") "Array" "ivy.Array" "array"
  writePage (Path.join classes "container") (Path.join classes "container.rst") "Container"
    "ivy.Container" "container"
  writePage classes (Path.join pages "data_classes.rst") "Data Classes" "ivy.data_classes"
    "data_classes"
  rearrangeIndex pages

theorem relocate_eq (settings : Settings) :
    relocate settings = (do
      let pages := Path.join settings.here Pages.folder
      let classes := Path.join pages "data_classes"
      makeDirectories classes true
      moveInto (Path.join pages "array") classes
      moveInto (Path.join pages "container") classes
      writeSections pages classes) := rfl

/-- The pages that are lifted and the index do not differ. -/
structure Sections (site : Site) (differ : Place → Bytes → Bytes → Prop) (pages classes : Text) : Prop where
  lasting : Tree.Lasting differ
  stateful : Liftable site differ (Path.join pages "stateful.rst")
  kinds : ∀ kind ∈ ([("array" : Text), ("container" : Text)] : List Text),
    Liftable site differ (Path.join classes (kind ++ ".rst"))
  classes : Liftable site differ (Path.join pages "data_classes.rst")
  index : ∀ tree place first second, site.locate tree (Path.join pages "index.rst") = .ok place →
    ¬differ place first second

theorem follows_writeSections {pages classes : Text} (sections : Sections site differ pages classes) :
    Follows site (Tree.Paired differ) (Tree.Paired differ) Eq
      (writeSections pages classes) (writeSections pages classes) := by
  unfold writeSections
  apply (follows_writePage sections.lasting _ _ _ _
    ((by decide : (".rst" : Text) <:+ "stateful.rst").trans (Path.suffix_join _ _)) sections.stateful).andThen
  intro _
  apply (follows_writePage sections.lasting _ _ _ _
    ((by decide : (".rst" : Text) <:+ "array.rst").trans (Path.suffix_join _ _))
      (sections.kinds "array" (by simp))).andThen
  intro _
  apply (follows_writePage sections.lasting _ _ _ _
    ((by decide : (".rst" : Text) <:+ "container.rst").trans (Path.suffix_join _ _))
    (sections.kinds "container" (by simp))).andThen
  intro _
  apply (follows_writePage sections.lasting _ _ _ _
    ((by decide : (".rst" : Text) <:+ "data_classes.rst").trans (Path.suffix_join _ _)) sections.classes).andThen
  exact fun _ => follows_rearrangeIndex sections.lasting sections.index

end DataClass

namespace Discussion

theorem entry_eq_ok {module submodules submodule : Json} {page text : Text}
    (found : entry module submodules submodule = .ok (page, text)) :
    (".rst" : Text) <:+ page ∧ ∃ name forum channel, text = paragraph name forum channel := by
  -- a value that was bound on the way is there, or the entry would be an error
  have bound : ∀ {α β : Type} {value : Except Fault α} {next : α → Except Fault β} {result : β},
      (value >>= next) = .ok result → ∃ inner, next inner = .ok result := by
    intro α β value next result eq
    cases value with
    | error fault => cases eq
    | ok inner => exact ⟨inner, eq⟩
  unfold entry at found
  obtain ⟨moduleName, found⟩ := bound found
  obtain ⟨name, found⟩ := bound found
  obtain ⟨links, found⟩ := bound found
  obtain ⟨channelPart, found⟩ := bound found
  obtain ⟨channel, found⟩ := bound found
  obtain ⟨forumLinks, found⟩ := bound found
  obtain ⟨forumPart, found⟩ := bound found
  obtain ⟨forum, found⟩ := bound found
  cases found
  exact ⟨List.suffix_append _ _, _, _, _, rfl⟩

theorem follows_append (lasting : Tree.Lasting differ)
    (apart : ∀ tree place first second,
      site.locate tree "partial_source/discussion_links.json" = .ok place → ¬differ place first second) :
    Follows site (Tree.Paired differ) (Tree.Paired differ) Eq append append := by
  unfold append
  apply Follows.andThen
  · apply Follows.anywhere
    intro base
    apply follows_readText
    rintro place first second ⟨tree, _, located⟩
    exact apart tree place first second located
  intro text
  apply Follows.ofExcept_self.andThen
  intro modules
  apply Follows.ofExcept_self.andThen
  intro listed
  apply Follows.forM
  intro module _
  unfold appendModule
  apply Follows.ofExcept_self.andThen
  intro submodules
  apply Follows.ofExcept_self.andThen
  intro inner
  apply Follows.forM
  intro submodule _
  -- every page that gets links is called after its submodule
  cases found : entry module submodules submodule with
  | error fault => exact Follows.throw
  | ok pair =>
    obtain ⟨page, paragraph⟩ := pair
    exact follows_appendText_page lasting.grows (entry_eq_ok found).1 paragraph

end Discussion
end ApiDocs
