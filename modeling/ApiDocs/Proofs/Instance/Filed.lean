import ApiDocs.Instance
import ApiDocs.Proofs.File.Rounds
import ApiDocs.Proofs.File.Written

/-! A method's page filed under a function. The function's page gets the method's directive, its folder gets the
method's page, and a copy of the function's page is made there if there is none. -/

set_option autoImplicit false

namespace ApiDocs.Instance

open Script

theorem directiveName_eq_ok {line name : Text} (named : directiveName line = .ok name) :
    name ⊆ Text.trim '\n' line ∧ .char '.' ∉ name := by
  unfold directiveName at named
  split at named
  · rename_i word found
    cases named
    have short : Text.afterLast '.' word ⊆ word := by
      intro c member
      exact List.mem_reverse.mp ((List.takeWhile_prefix _).subset (List.mem_reverse.mp member))
    have inside : word ∈ Text.split " " (Text.trim '\n' line) := List.mem_of_getElem? found
    exact ⟨fun c member => Text.subset_of_mem_split inside (short member), (Text.afterLast_spec '.' word).1⟩
  · cases named

theorem directiveName_line {text line name : Text} (member : line ∈ Text.lines text)
    (named : directiveName line = .ok name) : .char '\n' ∉ name :=
  fun newline => Text.trim_line member ((directiveName_eq_ok named).1 newline)

def filePage (type modulePath file raw directive : Text) (lines : List Text) : Script (Option Text) := do
  let name := baseName raw
  let page := Path.join modulePath (name ++ ".rst")
  let folder := Path.join modulePath name
  makeDirectories folder true
  let pageLines ← readLines page
  let merged ← Script.ofExcept id (insertDirective directive pageLines)
  refill (Path.join folder (Text.upTo file (-4) ++ "_" ++ type ++ ".rst"))
    (retitle "/../../logos" ("ivy." ++ Text.capitalize type ++ "." ++ raw) lines)
  let copy := Path.join folder (name ++ "_functional.rst")
  if !(← present copy) then
    refill copy (retitle "/../logos" ("ivy." ++ name) pageLines)
  writeText page merged.flatten
  return some page

theorem mergePage_eq (type path stubs functional file : Text) :
    mergePage type path stubs functional file = (do
      let lines ← readLines (Path.join path file)
      match lines.find? isDirective with
      | none => return none
      | some directive =>
        let raw ← Script.ofExcept id (directiveName directive)
        if unmergedModules.contains (moduleOf stubs raw) then return none
        if !(← present (Path.join functional (moduleOf stubs raw))) then return none
        if !(← names (Path.join functional (moduleOf stubs raw))).contains (baseName raw ++ ".rst") then return none
        filePage type (Path.join functional (moduleOf stubs raw)) file raw directive lines) := rfl

abbrev copyPlace (folder : Place) (name : Text) : Place := folder ++ [name, name ++ "_functional.rst"]

def ending (type : Text) : Text := "_" ++ type ++ ".rst"

/-- What filing a method's page under a function changes. The function's page gets the directive, its copy is made if
there is none, and the method's page comes into the function's folder. -/
structure Filed (type : Text) (folder : Place) (name line : Text) (lines : List Text)
    (method : Except Fault (List Text)) (tree after : Tree) : Prop where
  sound : after.Sound
  keeps : tree.KeepsDirectories after
  opened : after.get? (folder ++ [name]) = some .directory
  page : ∃ merged, insertDirective line lines = .ok merged ∧ Text.Plain merged.flatten ∧
    after.get? (folder ++ [name ++ (".rst" : Text)]) = some (.file (Utf8.bytesOf merged.flatten))
  copied : tree.get? (copyPlace folder name) = none → ∃ retitled,
    retitle "/../logos" ("ivy." ++ name) lines = .ok retitled ∧
    Text.Plain retitled.flatten ∧ after.get? (copyPlace folder name) = some (.file (Utf8.bytesOf retitled.flatten))
  copyKept : ∀ entry, tree.get? (copyPlace folder name) = some entry → after.get? (copyPlace folder name) = some entry
  stored : ∀ last, ending type <:+ last → after.get? (folder ++ [name, last]) = tree.get? (folder ++ [name, last]) ∨
    ∃ content, method = .ok content ∧ Text.Plain content.flatten ∧
      after.get? (folder ++ [name, last]) = some (.file (Utf8.bytesOf content.flatten))
  others : ∀ place, place ≠ folder ++ [name] → place ≠ folder ++ [name ++ (".rst" : Text)] →
    place ≠ copyPlace folder name →
    (∀ last, ending type <:+ last → place ≠ folder ++ [name, last]) → after.get? place = tree.get? place

structure Supplied (place : Place) (lines : Except Fault (List Text)) (tree after : Tree) : Prop where
  sound : tree.Sound → after.Sound
  keeps : tree.KeepsDirectories after
  made : tree.get? place = none → ∃ content, lines = .ok content ∧ Text.Plain content.flatten ∧
    after.get? place = some (.file (Utf8.bytesOf content.flatten))
  kept : ∀ entry, tree.get? place = some entry → after.get? place = some entry
  others : ∀ other, other ≠ place → after.get? other = tree.get? other

section
variable {site : Site} {tree after : Tree}

theorem written_refill {path : Text} {lines : Except Fault (List Text)}
    (run : (refill path lines).runOn site tree = (.ok (), after)) :
    ∃ content place, lines = .ok content ∧ Text.Plain content.flatten ∧ site.locate tree path = .ok place ∧
      Tree.Written place (Utf8.bytesOf content.flatten) tree after := by
  obtain ⟨_, emptied, first, rest⟩ := runOn_bind_ok run
  obtain ⟨_, place, bytes, found, written⟩ := written_writeText first
  obtain ⟨content, given, filled⟩ := runOn_bind_look (runOn_ofExcept_id _ _ _) rest
  obtain ⟨plain, place', bytes', found', written'⟩ := written_writeText filled
  have located := locate_of_writable found
  obtain rfl : place = place' :=
    Except.ok.inj ((Site.locate_keeps written.keeps located).symm.trans (locate_of_writable found'))
  exact ⟨content, place, given, plain, located, written.again written'⟩

theorem ending_apart {type last name : Text} (classes : type = "array" ∨ type = "container")
    (ends : ending type <:+ last) :
    last ≠ name ++ ("_functional.rst" : Text) := by
  rintro rfl
  have copy : ("_functional.rst" : Text) <:+ name ++ ("_functional.rst" : Text) := List.suffix_append _ _
  rcases classes with rfl | rfl
  · exact absurd (List.suffix_of_suffix_length_le ends copy (by decide)) (by decide)
  · exact absurd (List.suffix_of_suffix_length_le ends copy (by decide)) (by decide)

theorem ending_of_reads {type lead name : Text} (classes : type = "array" ∨ type = "container")
    (reads : Path.Reads (lead ++ ("_" : Text) ++ type ++ (".rst" : Text)) name) : ending type <:+ name := by
  have spelled : lead ++ ("_" : Text) ++ type ++ (".rst" : Text) =
      lead ++ .char (Char.ofNat (0x5F : UInt8).toNat) :: (type ++ (".rst" : Text)) := by
    simp [Text.ofChars]
  have plain : Text.Plain (type ++ (".rst" : Text)) := by
    rcases classes with rfl | rfl <;> exact Text.plain_append.mpr ⟨Text.plain_ofChars _, Text.plain_ofChars _⟩
  rw [spelled] at reads
  exact reads.suffix (by decide) plain

section
variable (placed : site.Sound) {inner name : Text} {folder : Place}
  (located : site.locate tree inner = .ok (folder ++ [name])) (inside : tree.get? (folder ++ [name]) = some .directory)
include placed located inside

theorem written_method {type file : Text} {lines : Except Fault (List Text)} (slashless : .char '/' ∉ file)
    (classes : type = "array" ∨ type = "container")
    (run : (refill (Path.join inner (Text.upTo file (-4) ++ "_" ++ type ++ ".rst")) lines).runOn site tree =
      (.ok (), after)) :
    ∃ last content, ending type <:+ last ∧ lines = .ok content ∧ Text.Plain content.flatten ∧
      Tree.Written (folder ++ [name, last]) (Utf8.bytesOf content.flatten) tree after := by
  obtain ⟨content, place, given, plain, aimed, stored⟩ := written_refill run
  have free : .char '/' ∉ Text.upTo file (-4) ++ "_" ++ type := by
    have outside : .char '/' ∉ type := by rcases classes with rfl | rfl <;> decide
    simp only [List.mem_append, not_or]
    exact ⟨⟨fun member => slashless (List.take_subset _ _ member), by decide⟩, outside⟩
  have single : Path.Single (Text.upTo file (-4) ++ "_" ++ type ++ (".rst" : Text)) :=
    Path.single_append free (by decide) (by decide)
  obtain ⟨last, _, reads, _, rfl⟩ := (Site.locate_join_iff placed single located inside).mp aimed
  rw [List.append_assoc] at stored
  exact ⟨last, content, ending_of_reads classes reads, given, plain, stored⟩

theorem eq_copyPlace (function : Path.Word name) {place : Place}
    (aimed : site.locate tree (Path.join inner (name ++ "_functional.rst")) = .ok place) :
    place = copyPlace folder name := by
  have single : Path.Single (name ++ ("_functional.rst" : Text)) :=
    Path.single_append function.slashless (by decide) (by decide)
  have plain : Text.Plain (name ++ ("_functional.rst" : Text)) :=
    Text.plain_append.mpr ⟨function.plain, Text.plain_ofChars _⟩
  rw [Site.locate_join_plain placed single plain located inside aimed, List.append_assoc]
  rfl

theorem written_copy (function : Path.Word name) {lines : Except Fault (List Text)} {next : Script (Option Text)}
    {result : Option Text}
    (run : (present (Path.join inner (name ++ "_functional.rst")) >>= fun there =>
      if !there then refill (Path.join inner (name ++ "_functional.rst")) lines >>= fun _ => next else next).runOn site
        tree =
        (.ok result, after)) :
    ∃ between, next.runOn site between = (.ok result, after) ∧
      Supplied (copyPlace folder name) lines tree between := by
  obtain ⟨answer, seen, rest⟩ := runOn_bind_look (runOn_present _ _ _) run
  cases seen
  cases found : site.find tree (Path.join inner (name ++ "_functional.rst")) with
  -- a copy that is there already stays as it is
  | ok item =>
    rw [found] at rest
    obtain ⟨aimed, held⟩ := Site.find_eq_ok_iff.mp found
    rw [eq_copyPlace placed located inside function aimed] at held
    refine ⟨tree, rest, id, fun _ kept => kept, fun vacant => ?_, fun _ kept => kept, fun _ _ => rfl⟩
    rw [vacant] at held
    cases held
  | error refusal =>
    rw [found] at rest
    obtain ⟨_, between, copying, rest⟩ := runOn_bind_ok rest
    obtain ⟨content, place, given, plain, aimed, written⟩ := written_refill copying
    obtain rfl := eq_copyPlace placed located inside function aimed
    refine ⟨between, rest, written.sound, written.keeps, fun _ => ⟨content, given, plain, written.here⟩, ?_,
      written.others⟩
    intro entry held
    rw [Site.find_eq_ok_iff.mpr ⟨aimed, held⟩] at found
    cases found

end

/-- Filing changes what its four steps change: the folder, the method's page, the copy and the function's page. -/
theorem filed_of_steps {type name line last : Text} {folder : Place} {lines merged content : List Text}
    {method : Except Fault (List Text)} {made stored copied : Tree} (classes : type = "array" ∨ type = "container")
    (ends : ending type <:+ last) (sound : tree.Sound) (widened : Tree.Widened tree made)
    (opened : made.get? (folder ++ [name]) = some .directory)
    (around : ∀ other, other ≠ folder ++ [name] → made.get? other = tree.get? other) (given : method = .ok content)
    (encoded : Text.Plain content.flatten)
    (storing : Tree.Written (folder ++ [name, last]) (Utf8.bytesOf content.flatten) made stored)
    (copying : Supplied (copyPlace folder name) (retitle "/../logos" ("ivy." ++ name) lines) stored copied)
    (inserted : insertDirective line lines = .ok merged) (plain : Text.Plain merged.flatten)
    (writing : Tree.Written (folder ++ [name ++ (".rst" : Text)]) (Utf8.bytesOf merged.flatten) copied after) :
    Filed type folder name line lines method tree after := by
  have apart : last ≠ name ++ ("_functional.rst" : Text) := ending_apart classes ends
  have copyPage : copyPlace folder name ≠ folder ++ [name ++ (".rst" : Text)] := by simp
  -- neither the method nor the folder has the name of the copy
  have copySame : stored.get? (copyPlace folder name) = tree.get? (copyPlace folder name) := by
    rw [storing.others _ (by simpa using Ne.symm apart), around _ (by simp)]
  have later : ∀ other : Text, ending type <:+ other →
      after.get? (folder ++ [name, other]) = stored.get? (folder ++ [name, other]) := by
    intro other ends
    rw [writing.others _ (by simp), copying.others _ (by simpa using ending_apart classes ends)]
  refine ⟨?_, ?_, writing.keeps _ (copying.keeps _ (storing.keeps _ opened)), ⟨merged, inserted, plain, writing.here⟩,
    fun vacant => ?_, fun entry held => ?_, fun other ends => ?_, ?_⟩
  · exact writing.sound (copying.sound (storing.sound (widened.sound sound)))
  · exact ((widened.keeps.trans storing.keeps).trans copying.keeps).trans writing.keeps
  · rw [writing.others _ copyPage]
    exact copying.made (copySame.trans vacant)
  · rw [writing.others _ copyPage]
    exact copying.kept entry (copySame.trans held)
  · rw [later other ends]
    by_cases same : other = last
    · rw [same]
      exact .inr ⟨content, given, encoded, storing.here⟩
    · rw [storing.others _ (by simpa using same), around _ (by simp)]
      exact .inl rfl
  · intro place notFolder notPage notCopy notMethod
    rw [writing.others _ notPage, copying.others _ notCopy, storing.others _ (notMethod last ends), around _ notFolder]

variable (placed : site.Sound) (sound : tree.Sound) {modulePath : Text} {folder : Place}
  (there : site.find tree modulePath = .ok (folder, .directory)) (bare : Path.base modulePath ≠ [])
include placed sound there bare

theorem filed_filePage {type file raw line : Text} {lines : List Text} {result : Option Text}
    (function : Path.Word (baseName raw)) (slashless : .char '/' ∉ file) (classes : type = "array" ∨ type = "container")
    (run : (filePage type modulePath file raw line lines).runOn site tree = (.ok result, after)) :
    result = some (Path.join modulePath (baseName raw ++ ".rst")) ∧
      site.locate tree (Path.join modulePath (baseName raw ++ ".rst")) =
        .ok (folder ++ [baseName raw ++ (".rst" : Text)]) ∧
      ∃ pageLines, linesAt site tree (Path.join modulePath (baseName raw ++ ".rst")) = .ok pageLines ∧
        Filed type folder (baseName raw) line pageLines
          (retitle "/../../logos" ("ivy." ++ Text.capitalize type ++ "." ++ raw) lines) tree after := by
  obtain ⟨_, made, making, rest⟩ := runOn_bind_ok run
  obtain ⟨pageLines, read, rest⟩ := runOn_bind_look (runOn_readLines _ _ _) rest
  obtain ⟨merged, inserted, rest⟩ := runOn_bind_look (runOn_ofExcept_id _ _ _) rest
  obtain ⟨_, filed, filing, rest⟩ := runOn_bind_ok rest
  -- the function's folder
  have single := function.single
  obtain ⟨located, inside⟩ := Site.find_eq_ok_iff.mp there
  obtain ⟨below, opened, around⟩ := widened_makeDirectories_join placed single function.plain there bare making
  have widened := widened_makeDirectories making
  have located' := Site.locate_keeps widened.keeps located
  have inside' := widened.keeps _ inside
  have below' := Site.locate_keeps widened.keeps below
  -- the function's page, which the new folder has not changed
  have pageSingle : Path.Single (baseName raw ++ (".rst" : Text)) :=
    Path.single_append function.slashless (by decide) (by decide)
  have pagePlain : Text.Plain (baseName raw ++ (".rst" : Text)) :=
    Text.plain_append.mpr ⟨function.plain, Text.plain_ofChars _⟩
  obtain ⟨place, bytes, text, found, decoded, rfl⟩ := (linesAt_eq_ok_iff _ _).mp read
  obtain ⟨paged', held⟩ := Site.find_eq_ok_iff.mp found
  obtain rfl := Site.locate_join_plain placed pageSingle pagePlain located' inside' paged'
  have paged := (Site.locate_join_below placed pageSingle located inside located' inside').mpr paged'
  have kept : tree.get? (folder ++ [baseName raw ++ (".rst" : Text)]) = some (.file bytes) := by
    rw [← held, around _ (by simp [Text.ofChars])]
  have unread := (linesAt_eq_ok_iff _ _).mpr ⟨_, _, _, Site.find_eq_ok_iff.mpr ⟨paged, kept⟩, decoded, rfl⟩
  -- the pages in the folder, and the function's page at last
  obtain ⟨last, _, ends, given, encoded, stored⟩ := written_method placed below' opened slashless classes filing
  obtain ⟨copied, rest, copying⟩ :=
    written_copy placed (Site.locate_keeps stored.keeps below') (stored.keeps _ opened) function rest
  obtain ⟨_, _, writing, done⟩ := runOn_bind_ok rest
  cases done
  obtain ⟨plain, place, _, found, written⟩ := written_writeText writing
  have keeps := (widened.keeps.trans stored.keeps).trans copying.keeps
  obtain rfl : folder ++ [baseName raw ++ (".rst" : Text)] = place :=
    Except.ok.inj ((Site.locate_keeps keeps paged).symm.trans (locate_of_writable found))
  exact ⟨rfl, paged, _, unread, filed_of_steps classes ends sound widened opened around given encoded stored copying
    inserted plain written⟩

end
end ApiDocs.Instance
