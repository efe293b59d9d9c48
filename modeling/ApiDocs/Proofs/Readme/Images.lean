import ApiDocs.Proofs.Series
import ApiDocs.Proofs.Text.Removal
import ApiDocs.Readme

/-! Images of the readme. An image line that names the source folder by an address loses the address, and a second time
nothing is lost; a line that does not name the folder exactly once is refused. The four replacements that follow are one
pass over the text, and leave nothing of what they look for. -/

set_option autoImplicit false

namespace ApiDocs.Readme

open Text

/-- A line that, without its spaces, shows an image of the repository and names the source folder. -/
def ShowsSource (line : Text) : Prop :=
  ("..image::https://github.com/" : Text) <+: line.filter (· ≠ .char ' ') ∧
    sourceFolder <:+: line.filter (· ≠ .char ' ')

instance (line : Text) : Decidable (ShowsSource line) := inferInstanceAs (Decidable (_ ∧ _))

/-- A line without a part of it that leads from the first address up to the source folder; nothing if there is no
address. -/
def Unaddressed (line shown : Text) : Prop :=
  ∃ kept address after, line = kept ++ address ++ sourceFolder ++ after ∧ shown = kept ++ sourceFolder ++ after ∧
    (address = [] ∧ ¬("https" : Text) <:+: kept ∨ index? "https" (kept ++ address) = some kept.length)

theorem isAbsoluteImage_iff {line : Text} : isAbsoluteImage line = true ↔ ShowsSource line := by
  have squashed : replace " " "" line = line.filter (· ≠ .char ' ') := replace_mark_nil _ line
  rw [isAbsoluteImage, squashed, Bool.and_eq_true, List.isPrefixOf_iff_prefix, mentions_iff, ShowsSource]

theorem sourceFolder_eq : ∃ word : Text, sourceFolder = .char 'd' :: word ∧ .char 'd' ∉ word :=
  ⟨"ocs/partial_source", by decide, by decide⟩

theorem split_sourceFolder {before after : Text} (front : ¬sourceFolder <:+: before) (back : ¬sourceFolder <:+: after) :
    split sourceFolder (before ++ sourceFolder ++ after) = [before, after] := by
  obtain ⟨word, spelled, fresh⟩ := sourceFolder_eq
  rw [spelled] at front back ⊢
  rw [List.append_assoc, split_first fresh front, split_absent back]

theorem places_eq_one_iff {line : Text} :
    (places sourceFolder line).length = 1 ↔ ∃ before after, split sourceFolder line = [before, after] := by
  obtain ⟨word, spelled, fresh⟩ := sourceFolder_eq
  rw [← List.length_eq_two, spelled, length_split_avoided (List.cons_ne_nil _ word) (.of_not_mem fresh word) line]
  omega

/-- What localising a line comes to: the line is shown as it should be, and as it is from then on. -/
structure Localised (line shown : Text) : Prop where
  run : localiseLine line = .ok shown
  once : ShowsSource line → (places sourceFolder line).length = 1
  fits : if ShowsSource line then Unaddressed line shown else shown = line
  again : localiseLine shown = .ok shown
  subset : ∀ c ∈ shown, c ∈ sourceFolder ∨ c ∈ line

theorem localised_image {line before after : Text} (image : ShowsSource line)
    (cut : split sourceFolder line = [before, after]) : ∃ shown, Localised line shown := by
  obtain ⟨kept, others, first⟩ := List.exists_cons_of_ne_nil (split_ne_nil "https" before)
  obtain ⟨address, rfl⟩ := prefix_of_split (by decide) first
  have proper : sourceFolder ≠ [] := by decide
  have whole : line = kept ++ address ++ sourceFolder ++ after := by
    rw [← join_split proper line, cut]
    rfl
  have front : ¬sourceFolder <:+: kept := fun found =>
    not_infix_of_mem_split proper (cut ▸ List.mem_cons_self) (found.trans (List.prefix_append kept address).isInfix)
  have back : ¬sourceFolder <:+: after :=
    not_infix_of_mem_split proper (cut ▸ List.mem_cons_of_mem _ List.mem_cons_self)
  have bare : ¬("https" : Text) <:+: kept := not_infix_of_mem_split (by decide) (first ▸ List.mem_cons_self)
  have run : localiseImage line = .ok (kept ++ sourceFolder ++ after) := by
    rw [localiseImage, cut]
    dsimp only
    rw [first, List.headD_cons]
  -- what is kept has no address, so a second time all of it is kept
  have again : localiseImage (kept ++ sourceFolder ++ after) = .ok (kept ++ sourceFolder ++ after) := by
    rw [localiseImage, split_sourceFolder front back]
    dsimp only
    rw [split_absent bare, List.headD_cons]
  refine ⟨kept ++ sourceFolder ++ after, ?_, fun _ => places_eq_one_iff.mpr ⟨_, _, cut⟩, ?_, ?_, ?_⟩
  · rw [localiseLine, if_pos (isAbsoluteImage_iff.mpr image), run]
  · rw [if_pos image]
    refine ⟨kept, address, after, whole, rfl, ?_⟩
    rcases head_split (by decide) first with ⟨_, all⟩ | found
    · exact .inl ⟨List.append_right_eq_self.mp all.symm, bare⟩
    · exact .inr found
  · rw [localiseLine]
    split
    · exact again
    · rfl
  · intro c member
    rw [whole]
    simp only [List.mem_append] at member ⊢
    tauto

/-- A line is localised, or it is an image line that does not name the source folder exactly once. -/
theorem localiseLine_cases (line : Text) :
    (∃ shown, Localised line shown) ∨
      ShowsSource line ∧ (places sourceFolder line).length ≠ 1 ∧
        ∃ fault, localiseLine line = .error fault ∧ (fault = .imageFolderBroken ∨ fault = .imageFolderRepeated) := by
  by_cases image : ShowsSource line
  · by_cases once : (places sourceFolder line).length = 1
    · obtain ⟨before, after, cut⟩ := places_eq_one_iff.mp once
      exact .inl (localised_image image cut)
    · refine .inr ⟨image, once, ?_⟩
      rw [localiseLine, if_pos (isAbsoluteImage_iff.mpr image), localiseImage]
      split
      · rename_i before after cut
        exact absurd (places_eq_one_iff.mpr ⟨before, after, cut⟩) once
      · exact ⟨_, rfl, .inl rfl⟩
      · exact ⟨_, rfl, .inl rfl⟩
      · exact ⟨_, rfl, .inr rfl⟩
  · have run : localiseLine line = .ok line := by
      rw [localiseLine, if_neg fun absolute => image (isAbsoluteImage_iff.mp absolute)]
    exact .inl ⟨line, run, fun shows => absurd shows image, by rw [if_neg image], run, fun _ member => .inr member⟩

theorem localise_cases (text : Text) :
    (∃ results, List.Forall₂ Localised (split "\n" text) results ∧ localise text = .ok (join "\n" results)) ∨
      ∃ line ∈ split "\n" text, ShowsSource line ∧ (places sourceFolder line).length ≠ 1 ∧
        ∃ fault, localise text = .error fault ∧ (fault = .imageFolderBroken ∨ fault = .imageFolderRepeated) := by
  rcases mapM_cases localiseLine (split "\n" text) with ⟨results, run, each⟩ | ⟨line, member, fault, failed, run⟩
  · refine .inl ⟨results, each.imp fun line result step => ?_, by rw [localise, run]; rfl⟩
    rcases localiseLine_cases line with ⟨shown, localised⟩ | ⟨_, _, fault, failed, _⟩
    · obtain rfl := Except.ok.inj (localised.run.symm.trans step)
      exact localised
    · rw [step] at failed
      cases failed
  · rcases localiseLine_cases line with ⟨shown, localised⟩ | ⟨image, many, fault', failed', kind⟩
    · rw [localised.run] at failed
      cases failed
    · obtain rfl := Except.error.inj (failed'.symm.trans failed)
      exact .inr ⟨line, member, image, many, fault', by rw [localise, run]; rfl, kind⟩

/-- The lines of a localised text are the lines as they are shown, and a second time they stay as they are. -/
theorem split_localised {text : Text} {results : List Text}
    (localised : List.Forall₂ Localised (split "\n" text) results) :
    split "\n" (join "\n" results) = results ∧ localise (join "\n" results) = .ok (join "\n" results) := by
  have free : ∀ line ∈ split "\n" text, .char '\n' ∉ line := fun line member => split_noMark member
  have each : ∀ shown ∈ results, localiseLine shown = .ok shown ∧ .char '\n' ∉ shown := by
    have good : List.Forall₂ (flip fun shown line => (localiseLine shown = .ok shown ∧ .char '\n' ∉ shown) ∧
      Localised line shown)
        (split "\n" text) results := by
      refine ((List.forall₂_and_left _ _).mpr ⟨free, localised⟩).imp fun line shown ⟨free, localised⟩ => ?_
      exact ⟨⟨localised.again, fun newline => (localised.subset _ newline).elim (by decide) free⟩, localised⟩
    exact ((List.forall₂_and_left _ _).mp good.flip).1
  have proper : results ≠ [] := by
    rintro rfl
    exact split_ne_nil _ _ (List.forall₂_nil_right_iff.mp localised)
  have same : split "\n" (join "\n" results) = results := split_join proper fun shown member => (each shown member).2
  refine ⟨same, ?_⟩
  rw [localise, same, mapM_self fun shown member => (each shown member).1]
  rfl

/-- Localising a text refuses it exactly if an image line does not name the source folder exactly once. Otherwise image
lines lose their addresses, the other lines stay as they are, and a second time nothing changes. -/
theorem localise_lines (text : Text) :
    ((∃ fault, localise text = .error fault) ↔
        ∃ line ∈ split "\n" text, ShowsSource line ∧ (places sourceFolder line).length ≠ 1) ∧
      (∀ fault, localise text = .error fault → fault = .imageFolderBroken ∨ fault = .imageFolderRepeated) ∧
      ∀ result, localise text = .ok result →
        List.Forall₂ (fun line shown => if ShowsSource line then Unaddressed line shown else shown = line)
          (split "\n" text) (split "\n" result) ∧
        localise result = .ok result := by
  -- either every line is localised or the first one that cannot be ends the run
  rcases localise_cases text with ⟨results, localised, run⟩ | ⟨line, member, image, many, fault, run, kind⟩
  · obtain ⟨lines, again⟩ := split_localised localised
    have once : ∀ line ∈ split "\n" text, ShowsSource line → (places sourceFolder line).length = 1 :=
      ((List.forall₂_and_left _ _).mp (localised.imp fun line shown localised => ⟨localised.once, localised⟩)).1
    refine ⟨⟨fun ⟨fault, failed⟩ => ?_, fun ⟨line, member, image, many⟩ => absurd (once line member image) many⟩, ?_,
      ?_⟩
    · rw [run] at failed
      cases failed
    · intro fault failed
      rw [run] at failed
      cases failed
    · intro result done
      obtain rfl := Except.ok.inj (run.symm.trans done)
      rw [lines]
      exact ⟨localised.imp fun line shown localised => localised.fits, again⟩
  · refine ⟨⟨fun _ => ⟨line, member, image, many⟩, fun _ => ⟨fault, run⟩⟩, ?_, ?_⟩
    · intro other failed
      obtain rfl := Except.error.inj (run.symm.trans failed)
      exact kind
    · intro result done
      rw [run] at done
      cases done

def imageLines : Text := "a\n.. image:: https://github.com/b/docs/partial_source/c\nhttps"

def brokenImage : Text := "..image::https://github.com/docs/partial_ source"

theorem localise_lines_sample :
    localise "a\n.. image:: docs/partial_source/c\nhttps" = .ok "a\n.. image:: docs/partial_source/c\nhttps" ∧
      List.Forall₂ (fun line shown => if ShowsSource line then Unaddressed line shown else shown = line)
        (split "\n" imageLines) (split "\n" "a\n.. image:: docs/partial_source/c\nhttps") ∧
      ∃ fault, localise brokenImage = .error fault := by
  have run : localise imageLines = .ok "a\n.. image:: docs/partial_source/c\nhttps" := by decide +kernel
  obtain ⟨lines, again⟩ := (localise_lines imageLines).2.2 _ run
  exact ⟨again, lines, (localise_lines brokenImage).1.mpr (by decide +kernel)⟩

def builtFolder : Rule where
  old := "docs/partial_source/"
  new := "../autogenerated_source/"

def shownFolder (name : Text) : Rule where
  old := builtFolder.old ++ name
  new := "_images/"
  proper := List.append_ne_nil_of_left_ne_nil builtFolder.proper name

/-- What is put in for the source folder, with the word after it if there is one. The longest comes first. -/
def imageRules : List Rule :=
  [shownFolder "logos/supported/", shownFolder "logos/", shownFolder "images/", builtFolder]

def imageSteps : List Rule :=
  [builtFolder, { old := "../autogenerated_source/logos/supported/", new := "_images/" },
    { old := "../autogenerated_source/logos/", new := "_images/" },
      { old := "../autogenerated_source/images/", new := "_images/" }]

theorem fusible_supported : Fusible [] builtFolder "logos/supported/" := by
  constructor <;> decide

theorem fusible_logos : Fusible [shownFolder "logos/supported/"] builtFolder "logos/" := by
  constructor <;> decide

theorem fusible_images : Fusible [shownFolder "logos/supported/", shownFolder "logos/"] builtFolder "images/" := by
  constructor <;> decide

/-- The replacements are one pass over a text, in which the source folder is replaced together with the word after it,
and nothing that they look for is left. -/
theorem relocateImages_pass (text : Text) (absent : ¬("../autogenerated_source/" : Text) <:+: text) :
    relocateImages text = substitute imageRules text ∧ ∀ step ∈ imageSteps, ¬step.old <:+: relocateImages text := by
  have built : replace "docs/partial_source/" "../autogenerated_source/" text = substitute [builtFolder] text :=
    replace_eq_substitute builtFolder text
  have supported : replace "../autogenerated_source/logos/supported/" "_images/" (substitute [builtFolder] text) =
      substitute [shownFolder "logos/supported/", builtFolder] text :=
    replace_substitute fusible_supported (shownFolder "logos/supported/") rfl (by decide) absent
  have logos : replace "../autogenerated_source/logos/" "_images/" (substitute [shownFolder "logos/supported/",
    builtFolder] text) =
      substitute [shownFolder "logos/supported/", shownFolder "logos/", builtFolder] text :=
    replace_substitute fusible_logos (shownFolder "logos/") rfl (by decide) absent
  have images : replace "../autogenerated_source/images/" "_images/"
      (substitute [shownFolder "logos/supported/", shownFolder "logos/", builtFolder] text) =
        substitute imageRules text :=
    replace_substitute fusible_images (shownFolder "images/") rfl (by decide) absent
  constructor
  · rw [relocateImages, built, supported, logos, images]
  · exact replaceEach_leaves_none (by decide) (by decide) text

def pictures : Text := "docs/partial_source/logos/supported/a docs/partial_source/images"

theorem relocateImages_pass_sample :
    relocateImages pictures = "_images/a ../autogenerated_source/images" ∧
      ∀ step ∈ imageSteps, ¬step.old <:+: relocateImages pictures := by
  obtain ⟨pass, none⟩ := relocateImages_pass pictures (by decide +kernel)
  exact ⟨pass.trans (by decide +kernel), none⟩

end ApiDocs.Readme
