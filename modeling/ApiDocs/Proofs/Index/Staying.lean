import ApiDocs.Proofs.Index.Rearranged
import ApiDocs.Proofs.Pages.Order
import ApiDocs.Proofs.Pages.Touched
import ApiDocs.Proofs.StubSections

/-! The sections that stay in the index when the data classes move. Every section that fits in its lines comes back as a
block of its own, whatever the other sections are. Whether it stays is read off the text of the block and not off its
folder, so a folder leaves the index as soon as its caption begins like one that moves. -/

set_option autoImplicit false

namespace ApiDocs

open Script

namespace Index
open Toctree

/-- Lines with nothing but empty lines before the next block. -/
def Gapped (lines : List Text) : Prop :=
  ∃ gap rest, lines = List.replicate gap blank ++ rest ∧ (rest = [] ∨ ∃ more, rest = (directive ++ "\n") :: more)

theorem Gapped.blank {lines : List Text} (gapped : Gapped lines) : Gapped (blank :: lines) := by
  obtain ⟨gap, rest, rfl, next⟩ := gapped
  exact ⟨gap + 1, rest, rfl, next⟩

theorem gapped_spaced (parts : List Section) {lines : List Text} (gapped : Gapped lines) :
    Gapped (parts.flatMap Section.spaced ++ lines) := by
  cases parts with
  | nil => exact gapped
  | cons part parts => exact .blank ⟨0, _, rfl, .inr ⟨_, rfl⟩⟩

theorem gapped_linesOf (tables : List (Toctree × Option Text)) : Gapped (linesOf tables) := by
  induction tables with
  | nil => exact ⟨0, [], rfl, .inl rfl⟩
  | cons table tables ih => exact (gapped_spaced (sections table.1 table.2) ih).blank

theorem linesOf_split {tables : List (Toctree × Option Text)} {part : Section} (member : part ∈ sectionsOf tables) :
    ∃ front back, linesOf tables = front ++ blank :: (part.lines ++ back) ∧ Gapped back := by
  obtain ⟨table, listed, inside⟩ := List.mem_flatMap.mp member
  obtain ⟨before, after, rfl⟩ := List.append_of_mem listed
  obtain ⟨earlier, later, eq⟩ := List.append_of_mem inside
  refine ⟨linesOf before ++ blank :: earlier.flatMap Section.spaced,
    blank :: (later.flatMap Section.spaced ++ linesOf after), ?_, (gapped_spaced later (gapped_linesOf after)).blank⟩
  simp only [linesOf, List.flatMap_append, List.flatMap_cons, eq, Section.spaced, List.append_assoc, List.cons_append,
    List.nil_append]

theorem Gapped.head {lines : List Text} (gapped : Gapped lines) :
    ∃ gap, (ofLines (Text.lines (Text.unifyNewlines lines.flatten))).head =
      (List.replicate gap Toctree.blank).flatten := by
  obtain ⟨gap, rest, rfl, next⟩ := gapped
  have whole : ∀ line ∈ List.replicate gap Toctree.blank, Text.WholeLine line := by
    intro line member
    exact ⟨[], List.not_mem_nil, List.not_mem_nil, List.eq_of_mem_replicate member⟩
  have quiet : ∀ line ∈ List.replicate gap Toctree.blank, startsBlock line = false := by
    intro line member
    rw [List.eq_of_mem_replicate member]
    decide
  refine ⟨gap, ?_⟩
  rw [List.flatten_append, Text.lines_wholeLines_append whole, ofLines_quiet quiet]
  rcases next with rfl | ⟨more, rfl⟩
  · exact List.append_nil _
  -- the next line begins a block itself, so nothing of it is read above the blocks
  · have first : ∀ line ∈ [directive ++ "\n"], Text.WholeLine line := by
      intro line member
      exact ⟨directive, by decide, by decide, List.mem_singleton.mp member⟩
    have next := Text.lines_wholeLines_append first more.flatten
    rw [List.flatten_singleton] at next
    rw [List.flatten_cons, next, List.singleton_append, ofLines_start (by decide)]
    exact List.append_nil _

theorem mem_blocks_append {block : Text} (first : List Text) {second : List Text}
    (member : block ∈ (ofLines second).blocks) :
    block ∈ (ofLines (first ++ second)).blocks := by
  induction first with
  | nil => exact member
  | cons line first ih =>
    cases starts : startsBlock line with
    | true =>
      rw [List.cons_append, ofLines_start starts]
      exact List.mem_cons_of_mem _ ih
    | false =>
      have step := ofLines_quiet (by simpa using starts : ∀ other ∈ [line], startsBlock other = false) (first ++ second)
      rw [List.singleton_append] at step
      rw [List.cons_append, step]
      exact ih

/-- A section that fits comes back as a block, whatever stands before the tables and in the other sections. -/
theorem exists_block {tables : List (Toctree × Option Text)} {part : Section} (member : part ∈ sectionsOf tables)
    (fits : part.Fits) (head : Text) :
    ∃ block ∈ (ofLines (Text.lines (Text.unifyNewlines (head ++ (linesOf tables).flatten)))).blocks,
      Holds part block := by
  obtain ⟨front, back, eq, gapped⟩ := linesOf_split member
  obtain ⟨gap, empty⟩ := gapped.head
  obtain ⟨block, holds, cut⟩ := ofLines_section fits empty
  have text : head ++ (linesOf tables).flatten =
      (head ++ front.flatten) ++ .char '\n' :: (part.lines.flatten ++ back.flatten) := by
    rw [eq]
    simp [blank, Text.ofChars]
  refine ⟨block, ?_, holds⟩
  -- the empty line before the section ends whatever line stands there, so only this section has to fit
  rw [text, Text.lines_after_newline, Text.lines_wholeLines_append fits.lines.1]
  refine mem_blocks_append _ ?_
  rw [cut]
  exact List.mem_cons_self

end Index

namespace Toctree

/-- Nothing that a section shows is taken for the caption of one that moves: its own caption does not begin with that
one, and neither the caption nor a page says that there is such a caption. -/
def Section.Stays (part : Section) : Prop :=
  ∀ title ∈ Index.movedTitles, ¬title <+: caption part.common part.folder ∧
    ∀ text ∈ caption part.common part.folder :: part.pages.map (Path.join part.folder), ¬Index.captioned title <:+: text

instance (part : Section) : Decidable part.Stays :=
  inferInstanceAs (Decidable (∀ title ∈ Index.movedTitles, ¬title <+: caption part.common part.folder ∧
    ∀ text ∈ caption part.common part.folder :: part.pages.map (Path.join part.folder),
      ¬Index.captioned title <:+: text))

end Toctree

namespace Index
open Toctree

theorem infix_captionLine (title caption : Text) :
    captioned title <:+: "   :caption: " ++ caption ↔ title <+: caption ∨ captioned title <:+: caption := by
  have skip : ∀ {lead text : Text}, .char ':' ∉ lead → captioned title <:+: lead ++ text → captioned title <:+: text :=
    fun free found => Text.infix_of_append free found
  constructor
  · intro found
    -- two colons stand in front of the caption: one begins its mark, the other ends it
    have here : captioned title <:+: captioned caption := @skip ("   " : Text) _ (by decide) found
    rcases List.infix_cons_iff.mp here with starts | later
    · exact .inl ((List.prefix_append_right_inj ("caption: " : Text)).mp (List.cons_prefix_cons.mp starts).2)
    · have later : captioned title <:+: .char ':' :: .char ' ' :: caption :=
        @skip ("caption" : Text) _ (by decide) later
      rcases List.infix_cons_iff.mp later with starts | inside
      · have same : CodePoint.char 'c' = .char ' ' := (List.cons_prefix_cons.mp (List.cons_prefix_cons.mp starts).2).1
        exact absurd same (by decide)
      · exact .inr (@skip (" " : Text) _ (by decide) inside)
  · rintro (starts | inside)
    · have here : captioned title <+: captioned caption :=
        (List.prefix_append_right_inj (":caption: " : Text)).mpr starts
      exact here.isInfix.trans (List.suffix_append ("   " : Text) _).isInfix
    · exact inside.trans (List.suffix_append _ caption).isInfix

theorem infix_line {part text : Text} (line : .char '\n' ∉ part) (proper : part ≠ []) :
    part <:+: text ++ "\n" ↔ part <:+: text := by
  refine ⟨fun found => ?_, fun found => found.trans (List.prefix_append text _).isInfix⟩
  exact (Text.infix_across line found).resolve_right fun none => proper (List.infix_nil.mp none)

def commonLines : List Text := [directive ++ "\n", "   :hidden:\n", "   :maxdepth: -1\n", blank]

theorem line_cases {part : Section} {gap : Nat} {text : Text} (member : text ∈ part.lines ++ List.replicate gap blank) :
    text ∈ commonLines ∨ text = "   :caption: " ++ caption part.common part.folder ++ "\n" ∨
      ∃ page ∈ part.pages, text = Toctree.line part.folder page := by
  simp only [Section.lines, List.mem_append, List.mem_cons, List.not_mem_nil, or_false, List.mem_map] at member
  rcases member with ((rfl | rfl | rfl | rfl | rfl) | ⟨page, listed, rfl⟩) | empty
  · exact .inl (by simp [commonLines])
  · exact .inl (by simp [commonLines])
  · exact .inl (by simp [commonLines])
  · exact .inr (.inl rfl)
  · exact .inl (by simp [commonLines, blank])
  · exact .inr (.inr ⟨page, listed, rfl⟩)
  · exact .inl (by simp [commonLines, List.eq_of_mem_replicate empty])

theorem infix_lines {title : Text} (moves : title ∈ movedTitles) (part : Section) (gap : Nat) :
    captioned title <:+: (part.lines ++ List.replicate gap blank).flatten ↔
      title <+: caption part.common part.folder ∨
        ∃ text ∈ caption part.common part.folder :: part.pages.map (Path.join part.folder),
          captioned title <:+: text := by
  have line : .char '\n' ∉ captioned title := by revert title; decide
  have proper : captioned title ≠ [] := by simp [captioned, Text.ofChars]
  have own : captioned title <:+: "   :caption: " ++ caption part.common part.folder ++ "\n" ↔
      title <+: caption part.common part.folder ∨ captioned title <:+: caption part.common part.folder :=
    (infix_line line proper).trans (infix_captionLine _ _)
  have page : ∀ page, captioned title <:+: Toctree.line part.folder page ↔
      captioned title <:+: Path.join part.folder page :=
    fun page => (infix_line line proper).trans
      ⟨Text.infix_of_append (by decide), fun inside => inside.trans (List.suffix_append _ _).isInfix⟩
  constructor
  · intro found
    -- every line ends with a newline, which the mark does not hold, so the mark lies within one line
    have ended : ∀ text ∈ part.lines ++ List.replicate gap blank, Text.Ended text := by
      intro text member
      rcases line_cases member with common | rfl | ⟨page, _, rfl⟩
      · have ends : ∀ text ∈ commonLines, text = text.dropLast ++ [.char '\n'] := by decide
        exact .inr ⟨text.dropLast, ends text common⟩
      · exact .inr ⟨_, rfl⟩
      · exact .inr ⟨_, rfl⟩
    obtain ⟨text, member, inside⟩ := Text.infix_flatten line proper ended found
    rcases line_cases member with common | rfl | ⟨name, listed, rfl⟩
    · have bare : ∀ title ∈ movedTitles, ∀ text ∈ commonLines, ¬captioned title <:+: text := by decide
      exact absurd inside (bare title moves text common)
    · exact (own.mp inside).imp_right fun here => ⟨_, List.mem_cons_self, here⟩
    · exact .inr ⟨_, List.mem_cons_of_mem _ (List.mem_map_of_mem listed), (page name).mp inside⟩
  · have lift : ∀ {text : Text}, text ∈ part.lines → captioned title <:+: text →
        captioned title <:+: (part.lines ++ List.replicate gap blank).flatten := fun member inside =>
      inside.trans (List.infix_of_mem_flatten (List.mem_append_left _ member))
    rintro (starts | ⟨text, member, inside⟩)
    · exact lift (by simp [Section.lines]) (own.mpr (.inl starts))
    · rcases List.mem_cons.mp member with rfl | later
      · exact lift (by simp [Section.lines]) (own.mpr (.inr inside))
      · obtain ⟨name, listed, rfl⟩ := List.mem_map.mp later
        exact lift (List.mem_append_right _ (List.mem_map_of_mem listed)) ((page name).mpr inside)

/-- The block of a section remains exactly if nothing in it is taken for a caption that moves. -/
theorem remains_iff_stays {part : Section} {block : Text} (holds : Holds part block) : Remains block ↔ part.Stays := by
  obtain ⟨gap, eq⟩ := holds
  rw [← Text.flatten_lines block, eq]
  refine forall₂_congr fun title moves => ?_
  rw [infix_lines moves, not_or, not_exists]
  exact and_congr_right' (forall_congr' fun text => not_and)

end Index

namespace Pages

def commonTitle : Heading → Option Text
  | .common title => some title
  | _ => none

def tablesOf (heading : Heading) (folders : Toctree) (related : List Text) : List (Toctree × Option Text) :=
  match heading with
  | .byDirectory => [(Table.put "docs" related (sections folders), none)]
  | .common title => [(sections folders, some title), (Table.put "docs" related [], none)]
  | .untitled => []

def sectionOf (heading : Heading) (directory : Text) (items : List Text) : Toctree.Section :=
  ⟨commonTitle heading, Path.base directory, items.map fun item => Text.replace ".py" "" (Path.base item) ++ ".rst"⟩

/-- Every directory has its section in the index, unless the related libraries take its place. -/
theorem mem_sectionsOf {heading : Heading} (titled : heading ≠ .untitled) {folders : Toctree}
    (distinct : (folders.map fun folder => Path.base folder.1).Nodup) {directory : Text} {items : List Text}
    (member : (directory, items) ∈ folders) (apart : heading = .byDirectory → Path.base directory ≠ "docs")
    (related : List Text) :
    sectionOf heading directory items ∈ Toctree.sectionsOf (tablesOf heading folders related) := by
  have held : (sections folders).get? (Path.base directory) =
      some (items.map fun item => Text.replace ".py" "" (Path.base item) ++ ".rst") := by
    obtain ⟨before, after, rfl⟩ := List.append_of_mem member
    unfold sections
    rw [List.map_append, List.map_cons]
    -- the last names differ, so no later directory takes over the entry
    refine Table.get?_ofList_last _ _ _ fun entry later => ?_
    obtain ⟨folder, inside, rfl⟩ := List.mem_map.mp later
    rw [List.map_append, List.map_cons] at distinct
    have fresh := (List.nodup_cons.mp (List.nodup_append.mp distinct).2.1).1
    exact fun same => fresh (List.mem_map.mpr ⟨folder, inside, same⟩)
  cases heading with
  | untitled => exact absurd rfl titled
  | common title =>
    exact List.mem_append_left _ (List.mem_map.mpr ⟨_, Table.mem_of_get? held, rfl⟩)
  | byDirectory =>
    have still : (Table.put ("docs" : Text) related (sections folders)).get? (Path.base directory) =
        some (items.map fun item => Text.replace ".py" "" (Path.base item) ++ ".rst") := by
      rw [Table.get?_put, if_neg (apart rfl).symm, held]
    exact List.mem_append_left _ (List.mem_map.mpr ⟨_, Table.mem_of_get? still, rfl⟩)

section
variable {site : Site} (placed : site.Sound) (free : site.root ≠ folder) {base tree after : Tree} {settings : Settings}
  (related : Related site settings base)
include placed free related

theorem index_tables (state : Underway site base tree) {folders : Toctree}
    (run : (writeIndex settings folders).runOn site tree = (.ok (), after)) :
    settings.heading ≠ .untitled ∧ ∃ head others,
      Text.Plain (head ++ (Toctree.linesOf (tablesOf settings.heading folders others)).flatten) ∧
      after.get? (top site ++ [("index.rst" : Text)]) =
        some (.file (Utf8.bytesOf (head ++ (Toctree.linesOf (tablesOf settings.heading folders others)).flatten))) := by
  obtain ⟨head, run⟩ := runOn_writeIndex_ok run
  unfold fillIndex at run
  rw [index_path] at run
  obtain ⟨_, headed, write, run⟩ := runOn_bind_ok run
  have plain := (written_writeText write).1
  have written := written_page placed free literal_index write
  have now : Underway site base headed := state.next (written.changed .index) fun _ closing => Closing.inside closing
  cases heading : settings.heading with
  | untitled =>
    rw [heading] at run
    cases run
  | byDirectory =>
    rw [heading] at run
    obtain ⟨others, last, there⟩ := index_finished placed free related now written.here run
    refine ⟨nofun, head, others, ?_, ?_⟩
    · simpa [Toctree.flatten_linesOf, tablesOf] using Text.plain_append.mpr ⟨plain, last⟩
    · simpa [Toctree.flatten_linesOf, tablesOf, Utf8.bytesOf_append] using there
  | common title =>
    rw [heading] at run
    obtain ⟨_, listed, append, run⟩ := runOn_bind_ok run
    have inner := (written_appendText append).1
    -- under a common title the index gets its sections before those of the related libraries
    have listing := appended_written placed free literal_index written.here append
    have now := now.next (listing.changed .index) fun _ closing => Closing.inside closing
    obtain ⟨others, last, there⟩ := index_finished placed free related now listing.here run
    refine ⟨nofun, head, others, ?_, ?_⟩
    · simpa [Toctree.flatten_linesOf, tablesOf] using Text.plain_append.mpr ⟨plain, Text.plain_append.mpr ⟨inner, last⟩⟩
    · simpa [Toctree.flatten_linesOf, tablesOf, Utf8.bytesOf_append] using there

theorem lines_writeIndex (state : Underway site base tree) {folders : Toctree}
    (run : (writeIndex settings folders).runOn site tree = (.ok (), after)) {lines : List Text}
    (read : linesAt site after (folder ++ "/index.rst") = .ok lines) :
    settings.heading ≠ .untitled ∧ ∃ head others, lines =
      Text.lines (Text.unifyNewlines (head ++
        (Toctree.linesOf (tablesOf settings.heading folders others)).flatten)) := by
  obtain ⟨titled, head, others, plain, there⟩ := index_tables placed free related state run
  rw [index_path] at read
  obtain ⟨place, bytes, text, found, decoded, rfl⟩ := (linesAt_eq_ok_iff site after).mp read
  obtain ⟨located, held⟩ := Site.find_eq_ok_iff.mp found
  rw [locate_pagePath placed free literal_index located, there] at held
  cases held
  rw [Utf8.decodeLines_bytesOf plain] at decoded
  cases decoded
  exact ⟨titled, head, others, rfl⟩

end
end Pages

namespace DataClass
open Toctree

variable {site : Site}

/-- Which sections leave the index. The index has been written with a section for each directory, and it is still as it
was written when the data classes have moved; then what is taken out of it are whole blocks. The section of a directory
was one of the blocks, and it is still there exactly if nothing in it is taken for a caption that moves. For that it is
enough that its own caption begins with `Array`, `Container` or `Stateful`, so not only the directories of these names
leave the index. Two directories with one last name share a section, and the related libraries take the section of a
directory `docs`. -/
theorem relocate_sections (placed : site.Sound) (free : site.root ≠ Pages.folder) {settings : Settings}
    {tree written base after : Tree} (related : Pages.Related site settings tree) {folders : Toctree}
    (distinct : (folders.map fun folder => Path.base folder.1).Nodup)
    (write : (Pages.writeIndex settings folders).runOn site tree = (.ok (), written))
    (run : (relocate settings).runOn site base = (.ok (), after))
    (kept : ∀ between, (moveFolders settings).runOn site base = (.ok (), between) →
      linesAt site between (Path.join (Path.join settings.here Pages.folder) "index.rst") =
        linesAt site written (Pages.folder ++ "/index.rst")) :
    ∃ (lines : List Text) (place : Place) (data frameworks before later : List Text),
      linesAt site written (Pages.folder ++ "/index.rst") = .ok lines ∧
      List.Sublist (before ++ later) (Index.ofLines lines).blocks ∧
      site.find after (Path.join (Path.join settings.here Pages.folder) "index.rst") = .ok (place, .file (Utf8.bytesOf
        ((Index.ofLines lines).head ++ before.flatten ++ classBlock "Data Classes" "data_classes" data ++
          classBlock "Framework Classes" "stateful" frameworks ++ later.flatten))) ∧
      ∀ directory items, (directory, items) ∈ folders →
        (settings.heading = .byDirectory → Path.base directory ≠ "docs") →
        (Pages.sectionOf settings.heading directory items).Fits →
          (∃ block ∈ (Index.ofLines lines).blocks,
            Index.Holds (Pages.sectionOf settings.heading directory items) block) ∧
          ((∃ block ∈ before ++ later, Index.Holds (Pages.sectionOf settings.heading directory items) block) ↔
            (Pages.sectionOf settings.heading directory items).Stays) := by
  obtain ⟨between, lines, earlier, functions, later, moved, parted⟩ := parted_of_relocate run
  obtain ⟨place, data, frameworks, _, _, found⟩ := parted.written
  have read := parted.read
  rw [kept between moved] at read
  obtain ⟨titled, head, others, eq⟩ := Pages.lines_writeIndex placed free related
    (Tree.Changed.refl _ _ tree) write read
  have stay : (Index.ofLines lines).blocks.filter (Index.Remains ·) = (earlier ++ [functions]) ++ later := by
    rw [parted.kept, List.append_assoc, List.singleton_append]
  refine ⟨lines, place, data, frameworks, earlier ++ [functions], later, read, ?_, ?_, ?_⟩
  · rw [← stay]
    exact List.filter_sublist
  · rw [found, List.flatten_append, List.flatten_singleton, ← List.append_assoc]
  · intro directory items member apart fits
    have listed := Pages.mem_sectionsOf titled distinct member apart others
    obtain ⟨block, inside, holds⟩ := Index.exists_block listed fits head
    rw [← eq] at inside
    refine ⟨⟨block, inside, holds⟩, ?_, fun stays => ⟨block, ?_, holds⟩⟩
    -- the block that is left need not be the one that was found, but both hold the section
    · rintro ⟨other, left, same⟩
      rw [← stay, List.mem_filter, decide_eq_true_iff] at left
      exact (Index.remains_iff_stays same).mp left.2
    · rw [← stay, List.mem_filter, decide_eq_true_iff]
      exact ⟨inside, (Index.remains_iff_stays holds).mpr stays⟩

def stayingSettings : Settings := { here := rearrangedSite.here, heading := .byDirectory }

def stayingTree : Tree :=
  ⟨[(["README.rst"], .file (Utf8.bytesOf "R\n")), (["docs"], .directory), (["docs", "ivy_modules.txt"], .file []),
    (["docs", "partial_source"], .directory), (["docs", "partial_source", "index_prepend.rst"], .file []),
    (["docs", Pages.folder], .directory), (["docs", Pages.folder, "array"], .directory),
    (["docs", Pages.folder, "array", "array.rst"], .file []), (["docs", Pages.folder, "container"], .directory),
    (["docs", Pages.folder, "container", "container.rst"], .file []), (["docs", Pages.folder, "stateful"], .directory),
    (["docs", Pages.folder, "stateful", "s.rst"], .file [])]⟩

def stayingFolders : Toctree :=
  [("../ivy/array_api", ["../ivy/array_api/api.py"]), ("../ivy/functional", ["../ivy/functional/general.py"])]

def stayingIndex : Except Fault Unit × Tree :=
  (Pages.writeIndex stayingSettings stayingFolders).runOn rearrangedSite stayingTree

def stayingMove : Except Fault Unit × Tree := (moveFolders stayingSettings).runOn rearrangedSite stayingIndex.2

def stayingRun : Except Fault Unit × Tree := (relocate stayingSettings).runOn rearrangedSite stayingIndex.2

theorem staying_run : stayingIndex.1 = .ok () ∧ stayingRun.1 = .ok () ∧
    linesAt rearrangedSite stayingMove.2 (Path.join (Path.join stayingSettings.here Pages.folder) "index.rst") =
      linesAt rearrangedSite stayingIndex.2 (Pages.folder ++ "/index.rst") ∧
    linesAt rearrangedSite stayingTree (Path.join stayingSettings.here "ivy_modules.txt") = .ok [] := by
  decide +kernel

theorem relocate_sections_sample : stayingIndex.1 = .ok () ∧ stayingRun.1 = .ok () ∧
    ∃ (lines : List Text) (place : Place) (data frameworks before later : List Text),
      linesAt rearrangedSite stayingIndex.2 (Pages.folder ++ "/index.rst") = .ok lines ∧
      rearrangedSite.find stayingRun.2 (Path.join (Path.join stayingSettings.here Pages.folder) "index.rst") =
        .ok (place, .file (Utf8.bytesOf
          ((Index.ofLines lines).head ++ before.flatten ++ classBlock "Data Classes" "data_classes" data ++
            classBlock "Framework Classes" "stateful" frameworks ++ later.flatten))) ∧
      (∃ block ∈ (Index.ofLines lines).blocks, Index.Holds ⟨none, "array_api", ["api.rst"]⟩ block) ∧
      (¬∃ block ∈ before ++ later, Index.Holds ⟨none, "array_api", ["api.rst"]⟩ block) ∧
      ∃ block ∈ before ++ later, Index.Holds ⟨none, "functional", ["general.rst"]⟩ block := by
  obtain ⟨indexed, moved, same, none⟩ := staying_run
  have write : stayingIndex = (.ok (), stayingIndex.2) := run_eq_of_ok indexed
  have run : stayingRun = (.ok (), stayingRun.2) := run_eq_of_ok moved
  have related : Pages.Related rearrangedSite stayingSettings stayingTree := ⟨[], none, by simp⟩
  have kept : ∀ between, stayingMove = (.ok (), between) →
      linesAt rearrangedSite between (Path.join (Path.join stayingSettings.here Pages.folder) "index.rst") =
        linesAt rearrangedSite stayingIndex.2 (Pages.folder ++ "/index.rst") := by
    intro between done
    rw [← same, done]
  obtain ⟨lines, place, data, frameworks, before, later, read, -, found, each⟩ :=
    relocate_sections (.inr (by decide)) (by decide) related (by decide) write run kept
  have left := each "../ivy/array_api" ["../ivy/array_api/api.py"] (by simp [stayingFolders]) (by decide) (by decide)
  have right := each "../ivy/functional" ["../ivy/functional/general.py"] (by simp [stayingFolders])
    (by decide) (by decide)
  exact ⟨indexed, moved, lines, place, data, frameworks, before, later, read, found, left.1,
    fun stays => absurd (left.2.mp stays) (by decide), right.2.mpr (by decide)⟩

end DataClass
end ApiDocs
