import ApiDocs.Index
import ApiDocs.Proofs.File.Directory
import ApiDocs.Proofs.Text.Decoding
import ApiDocs.Proofs.Text.Lines
import ApiDocs.Proofs.Text.Search
import Mathlib.Data.List.Forall2

/-! Tables of contents that are appended to a page, and the blocks that the page is cut into again. The writer puts
empty lines in front of a block and the cut is made at the directive, so the empty lines go to what stands before; apart
from them every section comes back as one block, with its caption and its pages. -/

set_option autoImplicit false

namespace ApiDocs

namespace Toctree

def directive : Text := ".. toctree::"

/-- A section of a table of contents that is appended to a page: the common caption of the table if it has one, the
folder and its pages. -/
structure Section where
  common : Option Text
  folder : Text
  pages : List Text

def Section.lines (part : Section) : List Text :=
  [directive ++ "\n", "   :hidden:\n", "   :maxdepth: -1\n", "   :caption: " ++ caption part.common part.folder ++ "\n",
    "\n"] ++
    part.pages.map (line part.folder)

def blank : Text := "\n"

def Section.spaced (part : Section) : List Text := blank :: part.lines ++ [blank]

def sections (toctree : Toctree) (common : Option Text) : List Section :=
  toctree.map fun (folder, pages) => ⟨common, folder, pages⟩

def sectionsOf (tables : List (Toctree × Option Text)) : List Section :=
  tables.flatMap fun (toctree, common) => sections toctree common

def linesOf (tables : List (Toctree × Option Text)) : List Text :=
  tables.flatMap fun (toctree, common) => blank :: (sections toctree common).flatMap Section.spaced

theorem flatten_spaced (part : Section) : part.spaced.flatten = block part.common part.folder part.pages := by
  simp [Section.spaced, Section.lines, blank, block, directive, List.flatMap, Text.ofChars]

theorem flatten_linesOf (tables : List (Toctree × Option Text)) :
    (linesOf tables).flatten = tables.flatMap fun (toctree, common) => render common toctree := by
  have one : ∀ (toctree : Toctree) (common : Option Text),
      (blank :: (sections toctree common).flatMap Section.spaced).flatten = render common toctree := by
    intro toctree common
    rw [List.flatten_cons]
    refine congrArg (blank ++ ·) ?_
    induction toctree with
    | nil => rfl
    | cons part toctree ih => exact (List.flatten_append ..).trans (congrArg₂ _ (flatten_spaced _) ih)
  induction tables with
  | nil => rfl
  | cons table tables ih => exact (List.flatten_append ..).trans (congrArg₂ _ (one table.1 table.2) ih)

/-- A text that fits in a line and holds no directive. -/
structure Inline (text : Text) : Prop where
  newline : .char '\n' ∉ text
  carriage : .char '\r' ∉ text
  undirected : ¬directive <:+: text

structure Section.Fits (part : Section) : Prop where
  caption : Inline (caption part.common part.folder)
  folder : Inline part.folder
  pages : ∀ page ∈ part.pages, Inline page

instance (text : Text) : Decidable (Inline text) :=
  decidable_of_iff (.char '\n' ∉ text ∧ .char '\r' ∉ text ∧ ¬directive <:+: text)
    ⟨fun ⟨newline, carriage, undirected⟩ => ⟨newline, carriage, undirected⟩,
      fun fits => ⟨fits.newline, fits.carriage, fits.undirected⟩⟩

instance (part : Section) : Decidable part.Fits :=
  decidable_of_iff (Inline (Toctree.caption part.common part.folder) ∧ Inline part.folder ∧
    ∀ page ∈ part.pages, Inline page)
    ⟨fun ⟨caption, folder, pages⟩ => ⟨caption, folder, pages⟩, fun fits => ⟨fits.caption, fits.folder, fits.pages⟩⟩

theorem startsBlock_iff {line : Text} : Index.startsBlock line = true ↔ directive <:+: line := Text.mentions_iff

theorem Inline.line {text : Text} (fits : Inline text) (lead : Text) (newline : .char '\n' ∉ lead)
    (carriage : .char '\r' ∉ lead) (dotless : .char '.' ∉ lead) :
    Text.WholeLine (lead ++ text ++ "\n") ∧ Index.startsBlock (lead ++ text ++ "\n") = false := by
  refine ⟨⟨lead ++ text, by simp [newline, fits.newline], by simp [carriage, fits.carriage], rfl⟩, ?_⟩
  refine Bool.eq_false_iff.mpr fun starts => ?_
  rcases Text.infix_across (by decide) (startsBlock_iff.mp starts) with inside | inside
  · exact fits.undirected (Text.infix_of_append dotless inside)
  · exact absurd (List.infix_nil.mp inside) (by decide)

theorem inline_of_dotless {text : Text} (newline : .char '\n' ∉ text) (carriage : .char '\r' ∉ text)
    (dotless : .char '.' ∉ text) :
    Inline text :=
  ⟨newline, carriage, fun inside => dotless (inside.subset (by decide))⟩

theorem Inline.join {folder page : Text} (left : Inline folder) (right : Inline page) :
    Inline (Path.join folder page) := by
  have points : Path.join folder page ⊆ folder ++ .char '/' :: page := by
    unfold Path.join
    split
    · simp
    · split
      · exact List.append_subset.mpr ⟨List.subset_append_left .., fun _ member => by simp [member]⟩
      · simp [Text.ofChars]
  refine ⟨fun member => ?_, fun member => ?_, fun inside => ?_⟩
  · simpa [left.newline, right.newline] using points member
  · simpa [left.carriage, right.carriage] using points member
  · -- the mark of a directive has no slash, so it cannot reach across the one between folder and page
    by_cases absolute : page.head? = some (.char '/')
    · rw [Path.join, if_pos absolute] at inside
      exact right.undirected inside
    · by_cases empty : folder = []
      · rw [empty, Path.join_nil] at inside
        exact right.undirected inside
      · obtain ⟨lead, eq, whole⟩ := Path.join_mark empty absolute
        have here : lead <:+: folder := by
          rcases whole with ⟨rfl, _⟩ | rfl
          · exact List.infix_rfl
          · exact (List.prefix_append _ _).isInfix
        rw [eq] at inside
        rcases Text.infix_across (by decide) inside with before | after
        · exact left.undirected (before.trans here)
        · exact right.undirected after

section
variable {part : Section} (fits : part.Fits)
include fits

theorem Section.Fits.lines : (∀ line ∈ part.lines, Text.WholeLine line) ∧
    ∃ rest, part.lines = (directive ++ "\n") :: rest ∧ ∀ line ∈ rest, Index.startsBlock line = false := by
  have fixed : ∀ text ∈ ([("   :hidden:" : Text), "   :maxdepth: -1", ""] : List Text),
      Text.WholeLine (text ++ "\n") ∧ Index.startsBlock (text ++ "\n") = false := by
    intro text member
    have inline : Inline text :=
      inline_of_dotless (by revert member text; decide) (by revert member text; decide) (by revert member text; decide)
    exact inline.line [] (by simp) (by simp) (by simp)
  have caption := fits.caption.line "   :caption: " (by decide) (by decide) (by decide)
  have pages : ∀ line ∈ part.pages.map (Toctree.line part.folder), Text.WholeLine line ∧
      Index.startsBlock line = false := by
    intro line member
    obtain ⟨page, listed, rfl⟩ := List.mem_map.mp member
    exact (fits.folder.join (fits.pages page listed)).line "   " (by decide) (by decide) (by decide)
  have rest : ∀ line ∈ part.lines.tail, Text.WholeLine line ∧ Index.startsBlock line = false := by
    intro line member
    simp only [Section.lines, List.cons_append, List.nil_append, List.tail_cons, List.mem_cons] at member
    rcases member with rfl | rfl | rfl | rfl | listed
    · exact fixed "   :hidden:" (by simp)
    · exact fixed "   :maxdepth: -1" (by simp)
    · exact caption
    · exact fixed "" (by simp)
    · exact pages line listed
  refine ⟨fun line member => ?_, part.lines.tail, rfl, fun line member => (rest line member).2⟩
  rcases List.mem_cons.mp member with rfl | later
  · exact ⟨directive, by decide, by decide, rfl⟩
  · exact (rest line later).1

end
end Toctree

namespace Index
open Toctree

theorem ofLines_quiet {quiet : List Text} (free : ∀ line ∈ quiet, startsBlock line = false) (rest : List Text) :
    ofLines (quiet ++ rest) = ⟨quiet.flatten ++ (ofLines rest).head, (ofLines rest).blocks⟩ := by
  induction quiet with
  | nil => rfl
  | cons line quiet ih =>
    have step : ofLines (line :: (quiet ++ rest)) = ⟨line ++ (ofLines (quiet ++ rest)).head,
        (ofLines (quiet ++ rest)).blocks⟩ := by
      rw [ofLines, List.foldr_cons, if_neg (by simp [free line List.mem_cons_self])]
      rfl
    rw [List.cons_append, step, ih fun other member => free other (List.mem_cons_of_mem _ member), List.flatten_cons,
      List.append_assoc]

theorem ofLines_start {line : Text} (starts : startsBlock line = true) (rest : List Text) :
    ofLines (line :: rest) = ⟨[], (line ++ (ofLines rest).head) :: (ofLines rest).blocks⟩ := by
  rw [ofLines, List.foldr_cons, if_pos starts]
  rfl

/-- A block holds the lines of a section, with empty lines after them. -/
def Holds (part : Section) (block : Text) : Prop :=
  ∃ gap, Text.lines block = part.lines ++ List.replicate gap blank

/-- Nothing but empty lines stands before the blocks, which hold these sections in their order. -/
def Lists (parts : List Section) (index : Index) : Prop :=
  (∃ gap, index.head = (List.replicate gap blank).flatten) ∧ List.Forall₂ Holds parts index.blocks

theorem Lists.newline {parts : List Section} {rest : List Text} (lists : Lists parts (ofLines rest)) :
    Lists parts (ofLines (blank :: rest)) := by
  obtain ⟨⟨gap, head⟩, blocks⟩ := lists
  have step := @ofLines_quiet [blank] (by decide) rest
  rw [List.singleton_append] at step
  rw [step]
  exact ⟨⟨gap + 1, by simp [head, List.replicate_succ]⟩, blocks⟩

/-- The lines of a section make up the next block, together with the empty lines after them. -/
theorem ofLines_section {part : Section} (fits : part.Fits) {rest : List Text} {gap : Nat}
    (head : (ofLines rest).head = (List.replicate gap blank).flatten) :
    ∃ block, Holds part block ∧ ofLines (part.lines ++ rest) = ⟨[], block :: (ofLines rest).blocks⟩ := by
  obtain ⟨whole, inner, eq, quiet⟩ := fits.lines
  have text : directive ++ "\n" ++ (inner.flatten ++ (ofLines rest).head) =
      (part.lines ++ List.replicate gap blank).flatten := by
    rw [List.flatten_append, eq, head, List.flatten_cons, ← List.append_assoc]
  refine ⟨(part.lines ++ List.replicate gap blank).flatten, ⟨gap, ?_⟩, ?_⟩
  · apply Text.lines_flatten
    intro line member
    rcases List.mem_append.mp member with own | empty
    · obtain ⟨body, newline, -, rfl⟩ := whole line own
      exact ⟨body, newline, rfl⟩
    · exact ⟨[], List.not_mem_nil, List.eq_of_mem_replicate empty⟩
  · rw [← text, eq, List.cons_append, ofLines_start (by decide), ofLines_quiet quiet]

theorem Lists.section {part : Section} (fits : part.Fits) {parts : List Section} {rest : List Text}
    (lists : Lists parts (ofLines rest)) : Lists (part :: parts) (ofLines (part.lines ++ rest)) := by
  obtain ⟨⟨gap, head⟩, blocks⟩ := lists
  obtain ⟨block, holds, eq⟩ := ofLines_section fits head
  rw [eq]
  exact ⟨⟨0, rfl⟩, .cons holds blocks⟩

theorem lists_linesOf {tables : List (Toctree × Option Text)} (fits : ∀ part ∈ sectionsOf tables, part.Fits) :
    Lists (sectionsOf tables) (ofLines (linesOf tables)) := by
  induction tables with
  | nil => exact ⟨⟨0, rfl⟩, .nil⟩
  | cons table tables ih =>
    obtain ⟨toctree, common⟩ := table
    have later : Lists (sectionsOf tables) (ofLines (linesOf tables)) :=
      ih fun part member => fits part (List.mem_append_right _ member)
    have own : ∀ part ∈ sections toctree common, part.Fits :=
      fun part member => fits part (List.mem_append_left _ member)
    show Lists (sections toctree common ++ sectionsOf tables)
      (ofLines (blank :: ((sections toctree common).flatMap Section.spaced ++ linesOf tables)))
    refine Lists.newline ?_
    -- the sections of one table, each between empty lines
    generalize sections toctree common = parts at own
    induction parts with
    | nil => exact later
    | cons part parts rest =>
      have next := rest fun other member => own other (List.mem_cons_of_mem _ member)
      have step := (next.newline.section (own part List.mem_cons_self)).newline
      simpa only [Section.spaced, List.flatMap_cons, List.cons_append, List.append_assoc, List.nil_append] using step

theorem lines_added (head : Text) {added : List Text} (whole : ∀ line ∈ added, Text.WholeLine line) :
    Text.lines (Text.unifyNewlines (head ++ (blank :: added).flatten)) =
      Text.lines (Text.unifyNewlines (head ++ blank)) ++ added := by
  calc Text.lines (Text.unifyNewlines (head ++ (blank :: added).flatten))
    _ = Text.lines (Text.unifyNewlines (head ++ .char '\n' :: added.flatten)) := rfl
    _ = Text.lines (Text.unifyNewlines (head ++ blank)) ++ added := by
      rw [Text.lines_after_newline, Text.lines_wholeLines whole]
      rfl

theorem whole_linesOf {tables : List (Toctree × Option Text)} (fits : ∀ part ∈ sectionsOf tables, part.Fits) :
    ∀ line ∈ linesOf tables, Text.WholeLine line := by
  have empty : Text.WholeLine blank := ⟨[], List.not_mem_nil, List.not_mem_nil, rfl⟩
  intro line member
  obtain ⟨table, listed, inside⟩ := List.mem_flatMap.mp member
  rcases List.mem_cons.mp inside with rfl | spaced
  · exact empty
  · obtain ⟨part, own, here⟩ := List.mem_flatMap.mp spaced
    simp only [Section.spaced, List.cons_append, List.mem_cons, List.mem_append, List.not_mem_nil, or_false] at here
    rcases here with rfl | within | rfl
    · exact empty
    · exact (fits part (List.mem_flatMap.mpr ⟨table, listed, own⟩)).lines.1 line within
    · exact empty

theorem quiet_lines {text : Text} (undirected : ¬directive <:+: text) :
    ∀ line ∈ Text.lines (Text.unifyNewlines text), startsBlock line = false := by
  intro line member
  refine Bool.eq_false_iff.mpr fun starts => undirected (Text.infix_of_unifyNewlines (by decide) ?_)
  rw [← Text.flatten_lines (Text.unifyNewlines text)]
  exact (startsBlock_iff.mp starts).trans (List.infix_of_mem_flatten member)

/-- A page to which tables have been appended is cut into what it held before, with empty lines after it, and the blocks
of the tables' sections. -/
theorem ofLines_linesOf {head : Text} (undirected : ¬directive <:+: head) {tables : List (Toctree × Option Text)}
    (fits : ∀ part ∈ sectionsOf tables, part.Fits) :
    ∃ gap, (ofLines (Text.lines (Text.unifyNewlines (head ++ (linesOf tables).flatten)))).head =
        Text.unifyNewlines (head ++ (List.replicate gap blank).flatten) ∧
      List.Forall₂ Holds (sectionsOf tables)
        (ofLines (Text.lines (Text.unifyNewlines (head ++ (linesOf tables).flatten)))).blocks := by
  obtain ⟨⟨gap, above⟩, blocks⟩ := lists_linesOf fits
  have whole := whole_linesOf fits
  refine ⟨gap, ?_⟩
  cases eq : linesOf tables with
  | nil =>
    rw [eq] at above blocks
    have none : (List.replicate gap blank).flatten = [] := above.symm
    have cut := ofLines_quiet (quiet_lines undirected) []
    rw [List.append_nil, Text.flatten_lines] at cut
    rw [none, List.flatten_nil, List.append_nil, cut]
    exact ⟨List.append_nil _, blocks⟩
  | cons first added =>
    have blank_first : first = blank := by
      cases tables with
      | nil => simp [linesOf] at eq
      | cons table tables => exact (List.cons.inj eq).1.symm
    subst blank_first
    rw [eq, show blank :: added = [blank] ++ added from rfl, ofLines_quiet (by decide)] at above blocks
    -- the first added line closes the last one of the head, which then is read on its own
    have later : ¬directive <:+: head ++ blank := fun inside =>
      (Text.infix_across (by decide) inside).elim undirected fun none => absurd (List.infix_nil.mp none) (by decide)
    have carriage : .char '\r' ∉ (ofLines added).head := by
      intro member
      have inside : CodePoint.char '\r' ∈ (List.replicate gap blank).flatten := by
        rw [← above]
        exact List.mem_append_right _ member
      obtain ⟨line, copy, point⟩ := List.mem_flatten.mp inside
      rw [List.eq_of_mem_replicate copy] at point
      exact absurd point (by decide)
    have ended : Text.unifyNewlines (head ++ (List.replicate gap blank).flatten) =
        Text.unifyNewlines (head ++ blank) ++ (ofLines added).head := by
      rw [← above, show head ++ ([blank].flatten ++ (ofLines added).head) =
        head ++ .char '\n' :: (ofLines added).head from rfl,
        Text.unifyNewlines_newline, Text.unifyNewlines_of_free carriage]
      rfl
    rw [lines_added head fun line member => whole line (by rw [eq]; exact List.mem_cons_of_mem _ member),
      ofLines_quiet (quiet_lines later), Text.flatten_lines]
    exact ⟨ended.symm, blocks⟩

end Index

namespace Toctree
open Script

theorem find_put_page {site : Site} {tree : Tree} {page : Text} {place : Place} {bytes : Bytes}
    (found : site.find tree page = .ok (place, .file bytes)) (after : Bytes) :
    site.find (tree.put place (.file after)) page = .ok (place, .file after) := by
  obtain ⟨located, held⟩ := Site.find_eq_ok_iff.mp found
  exact Site.find_put located (by simp [held]) _

theorem runOn_appends {site : Site} {page : Text} {place : Place} (tables : List (Toctree × Option Text)) :
    ∀ {tree : Tree} {bytes : Bytes}, site.find tree page = .ok (place, .file bytes) →
      ∃ outcome after, (tables.forM fun table => append table.1 page table.2 true).runOn site tree = (outcome, after) ∧
        (outcome = .ok () ↔ ∀ table ∈ tables, (render table.2 table.1).Plain) ∧
        (outcome = .ok () →
          site.find after page = .ok (place, .file (bytes ++ Utf8.bytesOf (linesOf tables).flatten))) := by
  induction tables with
  | nil =>
    intro tree bytes found
    exact ⟨.ok (), tree, rfl, by simp, fun _ => by simpa [linesOf, Utf8.bytesOf] using found⟩
  | cons table tables ih =>
    intro tree bytes found
    have step : (append table.1 page table.2 true).runOn site tree =
        (writeAfter bytes place [render table.2 table.1]).runOn site tree :=
          runOn_appendPieces site tree (writable_of_find found)
    rw [runOn_forM_cons, step]
    rcases runOn_writeAfter_single site tree bytes place (render table.2 table.1) with ⟨plain, run⟩ | ⟨broken, fault,
      run⟩
    · obtain ⟨outcome, after, rest, succeeds, grown⟩ :=
        ih (find_put_page found (bytes ++ Utf8.bytesOf (render table.2 table.1)))
      rw [run, andThen_ok]
      refine ⟨outcome, after, rest, succeeds.trans (by simp [plain]), fun done => ?_⟩
      rw [grown done, List.append_assoc, ← Utf8.bytesOf_append, flatten_linesOf, flatten_linesOf]
      rfl
    · -- the first table that cannot be encoded ends the loop
      rw [run, andThen_error]
      exact ⟨_, _, rfl, by simp [broken], by simp⟩

/-- The cut into blocks inverts the writer. Tables of contents are appended to a page that mentions no directive; then
the page is cut into what it held before, with empty lines after it, and one block for each section in the order in
which they were written, with the section's caption and its pages. Appending fails only if what is written cannot be
encoded. -/
theorem ofLines_appended {site : Site} {tree after : Tree} {page head : Text} {place : Place} {bytes : Bytes}
    (held : site.find tree page = .ok (place, .file bytes)) (decoded : Utf8.decode bytes = .ok head)
    (undirected : ¬directive <:+: head) {tables : List (Toctree × Option Text)}
    (fits : ∀ part ∈ sectionsOf tables, part.Fits) {outcome : Except Fault Unit}
    (run : (tables.forM fun table => append table.1 page table.2 true).runOn site tree = (outcome, after)) :
    (outcome = .ok () ↔ ∀ table ∈ tables, (render table.2 table.1).Plain) ∧
      (outcome = .ok () → ∃ lines gap, (readLines page).runOn site after = (.ok lines, after) ∧
        (Index.ofLines lines).head = Text.unifyNewlines (head ++ (List.replicate gap blank).flatten) ∧
        List.Forall₂ Index.Holds (sectionsOf tables) (Index.ofLines lines).blocks) := by
  obtain ⟨outcome', after', run', succeeds, grown⟩ := runOn_appends tables held
  obtain ⟨rfl, rfl⟩ := Prod.mk.inj (run'.symm.trans run)
  refine ⟨succeeds, fun done => ?_⟩
  obtain ⟨gap, above, blocks⟩ := Index.ofLines_linesOf undirected fits
  refine ⟨_, gap, ?_, above, blocks⟩
  have plain : Text.Plain (head ++ (linesOf tables).flatten) := by
    refine Text.plain_append.mpr ⟨Utf8.plain_of_decode decoded, ?_⟩
    rw [flatten_linesOf]
    intro point member
    obtain ⟨table, listed, inside⟩ := List.mem_flatMap.mp member
    exact succeeds.mp done table listed point inside
  have read : Utf8.decodeLines (bytes ++ Utf8.bytesOf (linesOf tables).flatten) =
      .ok (head ++ (linesOf tables).flatten) := by
    rw [← Utf8.bytesOf_decode decoded, ← Utf8.bytesOf_append, Utf8.decodeLines_bytesOf plain]
  rw [runOn_readLines]
  exact congrArg (·, after') ((linesAt_eq_ok_iff site after').mpr ⟨place, _, _, grown done, read, rfl⟩)

def sampleTree : Tree := ⟨[(["index.rst"], .file (Utf8.bytesOf "Index"))]⟩

def sampleSite : Site := .ascending "/workspace" []

def sampleTables : List (Toctree × Option Text) :=
  [([("functional", ["a.rst", "b.rst"]), ("array", [])], none), ([("stateful", ["c.rst"])], some "Classes")]

def sampleSections : List (List Text) :=
  [[".. toctree::\n", "   :hidden:\n", "   :maxdepth: -1\n", "   :caption: Functions\n", "\n", "   functional/a.rst\n",
      "   functional/b.rst\n"],
    [".. toctree::\n", "   :hidden:\n", "   :maxdepth: -1\n", "   :caption: Array\n", "\n"],
    [".. toctree::\n", "   :hidden:\n", "   :maxdepth: -1\n", "   :caption: Classes\n", "\n", "   stateful/c.rst\n"]]

def sampleRun (tables : List (Toctree × Option Text)) : Except Fault Unit × Tree :=
  (tables.forM fun table => append table.1 "index.rst" table.2 true).runOn sampleSite sampleTree

theorem ofLines_appended_sample : (sampleRun sampleTables).1 = .ok () ∧ ∃ lines gap,
    (readLines "index.rst").runOn sampleSite (sampleRun sampleTables).2 = (.ok lines, (sampleRun sampleTables).2) ∧
      (Index.ofLines lines).head = Text.unifyNewlines ("Index" ++ (List.replicate gap ("\n" : Text)).flatten) ∧
      List.Forall₂ (fun shown block => ∃ gap, Text.lines block = shown ++ List.replicate gap ("\n" : Text))
        sampleSections (Index.ofLines lines).blocks := by
  have held : sampleSite.find sampleTree "index.rst" = .ok (["index.rst"], .file (Utf8.bytesOf "Index")) := by
    decide +kernel
  have decoded : Utf8.decode (Utf8.bytesOf "Index") = .ok "Index" := by decide +kernel
  have fits : ∀ part ∈ sectionsOf sampleTables, part.Fits := by decide +kernel
  have run : sampleRun sampleTables = ((sampleRun sampleTables).1, (sampleRun sampleTables).2) := (Prod.eta _).symm
  have done : (sampleRun sampleTables).1 = .ok () := by decide +kernel
  have shown : (sectionsOf sampleTables).map Section.lines = sampleSections := by decide +kernel
  obtain ⟨lines, gap, read, head, blocks⟩ := (ofLines_appended held decoded (by decide) fits run).2 done
  refine ⟨done, lines, gap, read, head, ?_⟩
  rw [← shown, List.forall₂_map_left_iff]
  exact blocks

/-- A caption is made from the name of a folder: small letters and spaces come into it, and with them a directive that
the name does not hold. The page is then cut into two blocks for the one section. A name with an unpaired surrogate
cannot be written at all. -/
theorem ofLines_appended_miscounts :
    Inline "array_.._toctree::" ∧ Inline "a.rst" ∧ Inline [.surrogate 0] ∧
      (sampleRun [([("array_.._toctree::", ["a.rst"])], none)]).1 = .ok () ∧
      (((readLines "index.rst").runOn sampleSite (sampleRun [([("array_.._toctree::", ["a.rst"])], none)]).2).1.map
        fun lines => (Index.ofLines lines).blocks.length) = .ok 2 ∧
      (sampleRun [([([.surrogate 0], ["a.rst"])], none)]).1 ≠ .ok () := by
  refine ⟨by decide, by decide, by decide, ?_, ?_, ?_⟩
  · decide +kernel
  · decide +kernel
  · decide +kernel

end Toctree
end ApiDocs
