import ApiDocs.Proofs.DataClass.Untitled
import ApiDocs.Proofs.File.Written
import ApiDocs.Proofs.Text.Replace

/-! Lifting a page in a list that grows. The lines of the page are gone through by their places while lines are put in
among them, so the place and the number of lines move together. What is before the place is what has become of the lines
that were visited, and what is from the place on are the lines of the page that were not. -/

set_option autoImplicit false

namespace ApiDocs

open Script Text

namespace DataClass

/-- Lines that are gone through while they become more. -/
structure Growing where
  content : List Text
  place : Nat
  bound : Nat
  fits : bound = content.length

namespace Growing

/-- Some lines have taken the place of those that were visited, and the rest is as it was. -/
def midway (front rest : List Text) : Growing := ⟨front ++ rest, front.length, (front ++ rest).length, rfl⟩

theorem index_lt (growing : Growing) (inside : growing.place < growing.bound) :
    growing.place < growing.content.length :=
  growing.fits ▸ inside

def line (growing : Growing) (inside : growing.place < growing.bound) : Text :=
  growing.content.get ⟨growing.place, growing.index_lt inside⟩

theorem length_copied (content : List Text) (place : Nat) (copy : Text) :
    content.length + 1 = (content.take place ++ [copy] ++ content.drop place).length := by
  simp only [List.length_append, List.length_take, List.length_drop, List.length_singleton]
  omega

def widen (growing : Growing) (line : Text) : Growing :=
  if mentions ":hidden:" line then
    { content := growing.content.take (growing.place + 1) ++ [replace "hidden" "titlesonly" line] ++
        growing.content.drop (growing.place + 1)
      place := growing.place + 1
      bound := growing.bound + 1
      fits := (congrArg (· + 1) growing.fits).trans (length_copied ..) }
  else growing

def advance (growing : Growing) (line : Text) : Growing :=
  ⟨growing.content.set growing.place line, growing.place + 1, growing.bound,
    growing.fits.trans (List.length_set ..).symm⟩

theorem widen_left (growing : Growing) (line : Text) :
    (growing.widen line).bound - (growing.widen line).place = growing.bound - growing.place := by
  unfold widen
  split
  · exact Nat.add_sub_add_right ..
  · rfl

theorem widen_inside {growing : Growing} (inside : growing.place < growing.bound) (line : Text) :
    (growing.widen line).place < (growing.widen line).bound := by
  have left := growing.widen_left line
  omega

theorem advance_left {growing : Growing} (inside : growing.place < growing.bound) (line entry : Text) :
    ((growing.widen line).advance entry).bound - ((growing.widen line).advance
      entry).place < growing.bound - growing.place := by
  have left := growing.widen_left line
  have within := widen_inside inside line
  show (growing.widen line).bound - ((growing.widen line).place + 1) < _
  omega

/-- Goes through the lines, and tells how they are whenever one is visited, and at the end. -/
def passes (directory submodule : Text) (growing : Growing) : Script (List Growing × Growing) :=
  if inside : growing.place < growing.bound then do
    let wide := growing.widen (growing.line inside)
    let entry ← moveEntry directory submodule (wide.line (widen_inside inside _))
    let (later, last) ← (wide.advance entry).passes directory submodule
    return (growing :: later, last)
  else return ([], growing)
termination_by growing.bound - growing.place
decreasing_by exact advance_left inside _ _

end Growing

def growPage (page source submodule : Text) : Script Unit := do
  let lines ← readLines source
  let (_, last) ← (Growing.midway [] lines).passes (join "/" (split "/" source).dropLast) submodule
  writeText page last.content.flatten

namespace Growing

theorem eq_of_content {first second : Growing} (content : first.content = second.content)
    (place : first.place = second.place) :
    first = second := by
  obtain ⟨_, _, _, fits⟩ := first
  obtain ⟨_, _, _, fits'⟩ := second
  cases content
  cases place
  cases fits
  cases fits'
  rfl

variable (front rest : List Text) (current : Text)

theorem midway_inside : (midway front (current :: rest)).place < (midway front (current :: rest)).bound := by
  simp [midway]

theorem line_midway (inside : (midway front (current :: rest)).place < (midway front (current :: rest)).bound) :
    (midway front (current :: rest)).line inside = current := by
  simp [line, midway]

theorem visited_midway : (midway front rest).content[(midway front rest).place]? = rest.head? := by
  rw [midway, List.getElem?_append_right (Nat.le_refl _), Nat.sub_self, List.head?_eq_getElem?]

theorem advance_midway (entry : Text) : (midway front (current :: rest)).advance entry =
    midway (front ++ [entry]) rest :=
  eq_of_content (by simp [advance, midway]) (by simp [advance, midway])

theorem widen_hidden (hidden : mentions ":hidden:" current = true) :
    (midway front (current :: rest)).widen current =
      midway (front ++ [current]) (replace "hidden" "titlesonly" current :: rest) := by
  rw [widen, if_pos hidden]
  refine eq_of_content ?_ (by simp [midway])
  simp only [midway, List.take_length_add_append, List.drop_length_add_append, List.take_succ_cons, List.take_zero,
    List.drop_succ_cons, List.drop_zero, List.append_assoc, List.cons_append, List.nil_append]

theorem widen_shown (shown : ¬mentions ":hidden:" current = true) :
    (midway front (current :: rest)).widen current = midway front (current :: rest) := if_neg shown

variable (directory submodule : Text)

theorem passes_nil : (midway front []).passes directory submodule = return ([], midway front []) := by
  rw [passes, dif_neg (by simp [midway])]

theorem passes_cons : (midway front (current :: rest)).passes directory submodule = do
    let pieces ← moveLine directory submodule current
    let (later, last) ← (midway (front ++ pieces) rest).passes directory submodule
    return (midway front (current :: rest) :: later, last) := by
  rw [passes, dif_pos (midway_inside ..)]
  simp only [line_midway]
  by_cases hidden : mentions ":hidden:" current = true
  · rw [moveLine, if_pos hidden]
    simp only [widen_hidden _ _ _ hidden, line_midway, advance_midway, bind_assoc, pure_bind, List.append_assoc,
      List.singleton_append]
  · rw [moveLine, if_neg hidden]
    simp only [widen_shown _ _ _ hidden, line_midway, advance_midway, bind_assoc, pure_bind]

def trail (moved : List (List Text)) : List Growing × Growing :=
  ((List.range rest.length).map fun count => midway (front ++ (moved.take count).flatten) (rest.drop count),
    midway (front ++ moved.flatten) [])

/-- The lines are visited one by one and in their order, each with what it does to the pages that it lists. -/
theorem passes_midway :
    (midway front rest).passes directory submodule = trail front rest <$> rest.mapM (moveLine directory submodule) := by
  -- on the lines that were not visited; the front grows by what comes in the place of each
  induction rest generalizing front with
  | nil =>
    rw [passes_nil, List.mapM_nil, map_pure]
    simp [trail]
  | cons current rest ih =>
    rw [passes_cons, List.mapM_cons]
    simp only [ih, map_eq_pure_bind, bind_assoc, pure_bind]
    congr 1
    funext pieces
    congr 1
    funext moved
    simp [trail, List.range_succ_eq_map, Function.comp_def]

end Growing

theorem growPage_eq_liftPage (page source submodule : Text) :
    growPage page source submodule = liftPage page source submodule := by
  simp only [growPage, liftPage, Growing.passes_midway, map_eq_pure_bind, bind_assoc, pure_bind]
  simp [Growing.trail, Growing.midway]

/-- What comes in the place of a line, whatever the other lines are. -/
def replacement (submodule line : Text) : List Text :=
  if mentions ":hidden:" line then [line, replace "hidden" "titlesonly" line]
  else if .char '/' ∈ line then [replace submodule (submodule ++ "/" ++ submodule) line]
  else [line]

/-- The second option of a table of contents lists no page unless the first one does. -/
theorem movedLine_eq_replacement {line : Text} (bare : (":hidden:" : Text) <:+: line → .char '/' ∉ line)
    (submodule : Text) :
    movedLine submodule line = replacement submodule line := by
  unfold movedLine replacement
  split
  · rename_i hidden
    have slashless : ¬(replace "hidden" "titlesonly" line).contains (.char '/') = true := by
      rw [List.contains_iff_mem]
      intro slash
      rcases mem_replace (by decide) _ slash with added | kept
      · exact absurd added (by decide)
      · exact bare (mentions_iff.mp hidden) kept
    rw [optioned, if_pos hidden, movedEntry, if_neg slashless]
  · rw [movedEntry]
    by_cases slash : .char '/' ∈ line
    · rw [if_pos (List.contains_iff_mem.mpr slash), if_pos slash]
    · rw [if_neg (mt List.contains_iff_mem.mp slash), if_neg slash]

section
variable {site : Site} {tree after : Tree}

/-- A page is lifted line by line. If no hidden option has a slash, the page that is written holds in the place of each
line its replacement, in the order of the lines. In the list that grows each line is visited once, when those before it
have been replaced and those from it on are as they were. -/
theorem liftPage_line_by_line {page source submodule : Text} {lines : List Text}
    (read : linesAt site tree source = .ok lines)
    (bare : ∀ line ∈ lines, (":hidden:" : Text) <:+: line → .char '/' ∉ line)
    (run : (liftPage page source submodule).runOn site tree = (.ok (), after)) :
    growPage page source submodule = liftPage page source submodule ∧
      ∃ heads last between,
        ((Growing.midway [] lines).passes (join "/" (split "/" source).dropLast) submodule).runOn site tree =
          (.ok (heads, last), between) ∧
        heads = (List.range lines.length).map (fun count =>
          .midway ((lines.take count).flatMap (replacement submodule)) (lines.drop count)) ∧
        heads.map (fun head => head.content[head.place]?) = lines.map some ∧
        last = .midway (lines.flatMap (replacement submodule)) [] ∧
        ∃ place, site.find after page = .ok (place,
          .file (Utf8.bytesOf (lines.flatMap (replacement submodule)).flatten)) := by
  refine ⟨growPage_eq_liftPage page source submodule, ?_⟩
  obtain ⟨_, between, same, moving, writing⟩ := runOn_liftPage_lines run
  obtain rfl := Except.ok.inj (read.symm.trans same)
  have moved : lines.map (movedLine submodule) = lines.map (replacement submodule) :=
    List.map_congr_left fun line member => movedLine_eq_replacement (bare line member) submodule
  rw [List.flatMap_def, moved, ← List.flatMap_def] at writing
  rw [moved] at moving
  refine ⟨_, _, between, ?_, rfl, ?_, rfl, ?_⟩
  · rw [Growing.passes_midway, map_eq_pure_bind, runOn_bind, moving, andThen_ok, runOn_pure]
    simp [Growing.trail, ← List.map_take, List.flatMap_def]
  · -- the line at the place is the first one that was not visited
    simp only [List.map_map, Function.comp_def, Growing.visited_midway, List.head?_drop]
    refine List.ext_getElem (by simp) fun count inside _ => ?_
    simp
  · obtain ⟨_, place, _, writes, written⟩ := written_writeText writing
    exact ⟨place, Site.find_eq_ok_iff.mpr ⟨Site.locate_keeps written.keeps (locate_of_writable writes), written.here⟩⟩

end

def grownSite : Site := .ascending "/w" ["docs"]

def grownLines : List Text := [":hidden:\n", "m/f\n", "x"]

def grownTree : Tree :=
  ⟨[(["docs"], .directory), (["docs", "p"], .directory),
    (["docs", "p", "m.rst"], .file (Utf8.bytesOf grownLines.flatten)), (["docs", "p", "m"], .directory),
      (["docs", "p", "m", "f"], .file (Utf8.bytesOf "a\nb\nc\nd\n"))]⟩

def grownRun : Except Fault Unit × Tree := (liftPage "y" "p/m.rst" "m").runOn grownSite grownTree

theorem liftPage_line_by_line_sample :
    linesAt grownSite grownTree "p/m.rst" = .ok grownLines ∧ grownRun.1 = .ok () ∧
      (∃ heads last between, ((Growing.midway [] grownLines).passes "p" "m").runOn grownSite grownTree =
          (.ok (heads, last), between) ∧
        heads.map (fun head => head.content[head.place]?) = grownLines.map some) ∧
      ∃ place, grownSite.find grownRun.2 "y" =
        .ok (place, .file (Utf8.bytesOf ":hidden:\n:titlesonly:\nm/m/f\nx")) := by
  have evaluated : linesAt grownSite grownTree "p/m.rst" = .ok grownLines ∧ grownRun.1 = .ok () ∧
      join "/" (split "/" "p/m.rst").dropLast = "p" ∧
      (grownLines.flatMap (replacement "m")).flatten = ":hidden:\n:titlesonly:\nm/m/f\nx" := by decide +kernel
  obtain ⟨read, done, directory, text⟩ := evaluated
  have bare : ∀ line ∈ grownLines, mentions ":hidden:" line = true → .char '/' ∉ line := by decide
  have run : grownRun = (.ok (), grownRun.2) := run_eq_of_ok done
  obtain ⟨_, heads, last, between, passes, _, visited, _, found⟩ :=
    liftPage_line_by_line read (fun line member hidden => bare line member (mentions_iff.mpr hidden)) run
  rw [directory] at passes
  rw [text] at found
  exact ⟨read, done, ⟨heads, last, between, passes, visited⟩, found⟩

end DataClass
end ApiDocs
