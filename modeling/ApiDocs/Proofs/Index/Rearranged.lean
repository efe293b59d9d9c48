import ApiDocs.Proofs.Index.Blocks
import ApiDocs.Proofs.Pages.Closing

/-! The index after the data classes have been moved. It is read once and written in four pieces. The blocks that remain
are parted at the functions: some come up to them, the others after them, and the sections of the classes are written in
between. -/

set_option autoImplicit false

namespace ApiDocs

open Script

namespace Toctree

theorem renderTight_single (title folder : Text) (pages : List Text) :
    renderTight (some title) [(folder, pages)] =
      ((⟨some title, folder, pages⟩ : Section).lines ++ [blank, blank]).flatten := by
  have whole : render (some title) [(folder, pages)] =
      blank ++ (⟨some title, folder, pages⟩ : Section).spaced.flatten := by
    rw [flatten_spaced]
    simp [render, blank]
  have first : (blank ++ (⟨some title, folder, pages⟩ : Section).spaced.flatten).dropWhile (· == .char '\n') =
      (⟨some title, folder, pages⟩ : Section).lines.flatten ++ blank := by
    simp [Section.spaced, Section.lines, blank, directive, Text.ofChars]
  rw [renderTight, whole, Text.trimLeft, first]
  simp [blank]

end Toctree

namespace Index
open Toctree

/-- Lines cut in front of every line that begins a block. -/
structure Cutting (lines : List Text) where
  head : List Text
  blocks : List (List Text)
  whole : head ++ blocks.flatten = lines
  above : ∀ line ∈ head, startsBlock line = false
  each : ∀ block ∈ blocks, ∃ first rest, block = first :: rest ∧ startsBlock first = true ∧
    ∀ line ∈ rest, startsBlock line = false

def Cutting.texts {lines : List Text} (cutting : Cutting lines) : List Text := cutting.blocks.map List.flatten

def movedTitles : List Text := ["Array", "Container", "Stateful"]

def captioned (title : Text) : Text := ":caption: " ++ title

/-- A block that says nothing of a caption that moves. -/
def Remains (block : Text) : Prop := ∀ title ∈ movedTitles, ¬captioned title <:+: block

instance (block : Text) : Decidable (Remains block) :=
  inferInstanceAs (Decidable (∀ title ∈ movedTitles, ¬captioned title <:+: block))

theorem not_isMoved_iff {block : Text} : (!isMoved block) = true ↔ Remains block := by
  simp only [isMoved, Bool.not_eq_true', ← Bool.not_eq_true, Bool.or_eq_true, Text.mentions_iff, not_or, and_assoc,
    Remains, movedTitles, List.forall_mem_cons, List.not_mem_nil, false_imp_iff, implies_true, and_true]
  rfl

/-- The blocks that stay are cut after the first of them that mentions the functions. -/
theorem cut_ok {index : Index} {before later : List Text} (cut : index.cut = .ok (before, later)) :
    ∃ earlier functions, index.blocks.filter (Remains ·) = earlier ++ functions :: later ∧
      before = earlier ++ [functions] ∧ (∀ block ∈ earlier, ¬captioned "Functions" <:+: block) ∧
      captioned "Functions" <:+: functions := by
  have same : index.blocks.filter (Remains ·) = index.blocks.filter (!isMoved ·) :=
    List.filter_congr fun block _ => Bool.eq_iff_iff.mpr (decide_eq_true_iff.trans not_isMoved_iff.symm)
  unfold Index.cut at cut
  rw [same]
  generalize index.blocks.filter (!isMoved ·) = kept at cut ⊢
  simp only at cut
  split at cut
  · rename_i place found
    -- the place that is found is the first one, so no block before it mentions the functions
    obtain ⟨bound, mentioned, first⟩ := List.findIdx?_eq_some_iff_getElem.mp found
    cases cut
    refine ⟨kept.take place, kept[place], ?_, (List.take_concat_get' kept place bound).symm, ?_,
      Text.mentions_iff.mp mentioned⟩
    · rw [List.getElem_cons_drop, List.take_append_drop]
    · intro block member
      obtain ⟨other, inside, rfl⟩ := List.mem_take_iff_getElem.mp member
      exact fun mentioned => first other (by omega) (Text.mentions_iff.mpr mentioned)
  · cases cut

end Index

namespace DataClass
open Toctree

variable {site : Site} {tree after : Tree} {path : Text} {place : Place} {bytes : Bytes}

theorem find_written (found : site.find tree path = .ok (place, .file bytes)) {text : Text}
    (run : (writeText path text).runOn site tree = (.ok (), after)) :
    site.find after path = .ok (place, .file (Utf8.bytesOf text)) ∧ tree.SameShape after := by
  obtain ⟨_, spot, old, writes, rfl⟩ := runOn_writeText_ok site tree run
  rw [writable_of_find found] at writes
  cases writes
  exact ⟨find_put_page found _, Tree.sameShape_put (Site.find_eq_ok_iff.mp found).2 _⟩

theorem find_appended (found : site.find tree path = .ok (place, .file bytes)) {text : Text}
    (run : (appendText path text).runOn site tree = (.ok (), after)) :
    site.find after path = .ok (place, .file (bytes ++ Utf8.bytesOf text)) ∧ tree.SameShape after := by
  obtain ⟨_, spot, old, writes, rfl⟩ := runOn_appendText_ok site tree run
  rw [writable_of_find found] at writes
  cases writes
  exact ⟨find_put_page found _, Tree.sameShape_put (Site.find_eq_ok_iff.mp found).2 _⟩

theorem runOn_names_shape {other : Tree} (same : tree.SameShape other) {names : List Text}
    (run : (Script.names path).runOn site tree = (.ok names, after)) :
    (Script.names path).runOn site other = (.ok names, other) := by
  obtain ⟨rfl, place, located, held, rfl⟩ := runOn_names_ok run
  rw [runOn_names (site.locate_shape same path ▸ located) ((same.directory place).mp held), same.names]

def classBlock (title folder : Text) (names : List Text) : Text :=
  ((⟨some title, folder, names.filter (Text.mentions ".rst")⟩ : Section).lines ++ [blank, blank]).flatten

theorem runOn_listInIndex_ok {pages name title : Text}
    (found : site.find tree (Path.join pages "index.rst") = .ok (place, .file bytes))
    (run : (listInIndex pages name title).runOn site tree = (.ok (), after)) :
    ∃ names, (Script.names (Path.join pages name)).runOn site after = (.ok names, after) ∧ tree.SameShape after ∧
      site.find after (Path.join pages "index.rst") =
        .ok (place, .file (bytes ++ Utf8.bytesOf (classBlock title name names))) := by
  obtain ⟨names, between, listed, append⟩ := runOn_bind_ok run
  obtain ⟨rfl, _⟩ := runOn_names_ok listed
  have append : (appendText (Path.join pages "index.rst")
      (renderTight (some title) [(name, names.filter (Text.mentions ".rst"))])).runOn site between = (.ok (), after) :=
        append
  rw [renderTight_single] at append
  obtain ⟨now, same⟩ := find_appended found append
  exact ⟨names, runOn_names_shape same listed, same, now⟩

/-- An index of which the blocks that stay have been parted at the functions: what is read, and what is written. -/
structure Parted (site : Site) (pages : Text) (tree after : Tree) (lines earlier : List Text) (functions : Text)
    (later : List Text) : Prop where
  read : linesAt site tree (Path.join pages "index.rst") = .ok lines
  kept : (Index.ofLines lines).blocks.filter (Index.Remains ·) = earlier ++ functions :: later
  others : ∀ block ∈ earlier, ¬Index.captioned "Functions" <:+: block
  own : Index.captioned "Functions" <:+: functions
  written : ∃ place data frameworks,
    (Script.names (Path.join pages "data_classes")).runOn site after = (.ok data, after) ∧
    (Script.names (Path.join pages "stateful")).runOn site after = (.ok frameworks, after) ∧
    site.find after (Path.join pages "index.rst") = .ok (place, .file (Utf8.bytesOf
      ((Index.ofLines lines).head ++ earlier.flatten ++ functions ++ classBlock "Data Classes" "data_classes" data ++
        classBlock "Framework Classes" "stateful" frameworks ++ later.flatten)))

/-- The index is written in four pieces, each after the one before. -/
theorem parted_of_rearrangeIndex {pages : Text} (run : (rearrangeIndex pages).runOn site tree = (.ok (), after)) :
    ∃ lines earlier functions later, Parted site pages tree after lines earlier functions later := by
  obtain ⟨lines, read, run⟩ := runOn_bind_look (runOn_readLines site tree _) run
  obtain ⟨⟨before, later⟩, cut, run⟩ := runOn_bind_look (runOn_ofExcept_id site tree _) run
  obtain ⟨earlier, functions, kept, rfl, others, own⟩ := Index.cut_ok cut
  -- `found` is renewed with every piece: the file stays in its place and gets longer
  obtain ⟨place, bytes, text, found, _⟩ := (linesAt_eq_ok_iff site tree).mp read
  obtain ⟨_, headed, write, run⟩ := runOn_bind_ok run
  obtain ⟨found, _⟩ := find_written found write
  obtain ⟨_, listed, classes, run⟩ := runOn_bind_ok run
  obtain ⟨data, dataNames, _, found⟩ := runOn_listInIndex_ok found classes
  obtain ⟨_, filled, frames, append⟩ := runOn_bind_ok run
  obtain ⟨frameworks, frameNames, shape, found⟩ := runOn_listInIndex_ok found frames
  obtain ⟨found, last⟩ := find_appended found append
  refine ⟨lines, earlier, functions, later, read, kept, others, own, place, data, frameworks, ?_, ?_, ?_⟩
  -- the folders were listed between the pieces; writing to the index has not changed what they hold
  · exact runOn_names_shape (shape.trans last) dataNames
  · exact runOn_names_shape last frameNames
  · rw [found]
    simp [Utf8.bytesOf_append]

def moveFolders (settings : Settings) : Script Unit := do
  let pages := Path.join settings.here Pages.folder
  let classes := Path.join pages "data_classes"
  makeDirectories classes true
  moveInto (Path.join pages "array") classes
  moveInto (Path.join pages "container") classes
  writePage (Path.join pages "stateful") (Path.join pages "stateful.rst") "Framework Classes"
    "ivy.stateful" "stateful"
  writePage (Path.join classes "array") (Path.join classes "array.rst") "Array" "ivy.Array" "array"
  writePage (Path.join classes "container") (Path.join classes "container.rst") "Container"
    "ivy.Container" "container"
  writePage classes (Path.join pages "data_classes.rst") "Data Classes" "ivy.data_classes"
    "data_classes"

theorem relocate_eq_moveFolders (settings : Settings) :
    relocate settings = (do moveFolders settings; rearrangeIndex (Path.join settings.here Pages.folder)) := by
  simp only [relocate, moveFolders, bind_assoc]

theorem parted_of_relocate {settings : Settings} (run : (relocate settings).runOn site tree = (.ok (), after)) :
    ∃ between lines earlier functions later, (moveFolders settings).runOn site tree = (.ok (), between) ∧
      Parted site (Path.join settings.here Pages.folder) between after lines earlier functions later := by
  rw [relocate_eq_moveFolders] at run
  obtain ⟨_, between, moved, run⟩ := runOn_bind_ok run
  obtain ⟨lines, earlier, functions, later, parted⟩ := parted_of_rearrangeIndex run
  exact ⟨between, lines, earlier, functions, later, moved, parted⟩

def rearrangedSite : Site := .ascending "/workspace" ["docs"]

end DataClass
end ApiDocs
