import ApiDocs.Proofs.Build.Prepare
import ApiDocs.Proofs.Text.Decoding
import ApiDocs.Proofs.Text.Replace

/-! The start of a second run. The configuration has the project's title already and keeps it, and the folder of pages
is made anew from the same sources, so the second run begins where the first one began. -/

set_option autoImplicit false

namespace ApiDocs

namespace Text

theorem replace_pass {old : Text} (proper : old ≠ []) (new : Text) {first rest : Text}
    (absent : ∀ front back, first = front ++ back → back ≠ [] → ¬old <+: back ++ rest) :
    replace old new (first ++ rest) = first ++ replace old new rest := by
  induction first with
  | nil => rfl
  | cons c first ih =>
    have here := absent [] (c :: first) rfl (List.cons_ne_nil c first)
    rw [List.cons_append] at here ⊢
    rw [replace_cons proper new here, ih fun front back eq => absent (c :: front) back (by rw [eq]; rfl),
      List.cons_append]

theorem replace_replace {old new : Text} (proper : old ≠ []) (filled : new ≠ [])
    (fresh : ∀ c, new.head? = some c → c ∉ old.tail)
    (passes : ∀ rest, replace old new (new ++ rest) = new ++ replace old new rest) (text : Text) :
    replace old new (replace old new text) = replace old new text := by
  induction text using replaced_induction proper with
  | nil => rw [replace_nil proper, replace_nil proper]
  | start rest ih => rw [replace_start proper, passes, ih]
  | cons c rest absent ih =>
    have apart : ¬old <+: c :: replace old new rest := by
      rintro ⟨more, eq⟩
      obtain ⟨d, tail, rfl⟩ := List.exists_cons_of_ne_nil proper
      obtain ⟨rfl, next⟩ := List.cons.inj eq
      obtain ⟨further, rfl, _⟩ := prefix_of_replace proper filled fresh next.symm
      exact absent ⟨further, rfl⟩
    rw [replace_cons proper new absent, replace_cons proper new apart, ih]

end Text

namespace Build

open Script Text

def titleLine (title : Text) : Text := "project = '" ++ title ++ "'"

/-- A title that stands between quotes as it is. -/
def Quotable (title : Text) : Prop := ∀ c ∈ ("'=\r" : Text), c ∉ title

def entitled (title text : Text) : Text := replace (titleLine "Ivy") (titleLine title) text

theorem entitled_titleLine {title : Text} (quotable : Quotable title) (rest : Text) :
    entitled title (titleLine title ++ rest) = titleLine title ++ entitled title rest := by
  by_cases same : title = "Ivy"
  · subst same
    exact replace_start (by decide) _ _
  have unquoted : .char '\'' ∉ title := quotable _ (by decide)
  have unequal : .char '=' ∉ title := quotable _ (by decide)
  -- the sample title would have to begin in the title itself, and hold a quote or an equals sign
  have inner : ∀ part, part <:+ title → ¬titleLine "Ivy" <+: part ++ .char '\'' :: rest := by
    rintro part ⟨before, rfl⟩ ⟨more, eq⟩
    have cut : ("project = " : Text) ++ .char '\'' :: (("Ivy'" : Text) ++ more) = part ++ .char '\'' :: rest := eq
    obtain ⟨rfl, _⟩ := append_mark_inj (by decide) (fun quote => unquoted (List.mem_append_right _ quote)) cut
    exact unequal (List.mem_append_right _ (by decide))
  apply replace_pass (by decide)
  intro front back eq proper starts
  have line : titleLine title = ("project = '" : Text) ++ (title ++ [.char '\'']) := by
    rw [titleLine, List.append_assoc]; rfl
  rw [line] at eq
  rcases List.append_eq_append_iff.mp eq with ⟨between, rfl, tail⟩ | ⟨between, lead, rfl⟩
  · rcases List.append_eq_append_iff.mp tail with ⟨last, rfl, quote⟩ | ⟨last, rfl, rfl⟩
    · obtain ⟨rfl, rfl⟩ | ⟨_, rfl⟩ := List.append_eq_singleton_iff.mp quote.symm
      · exact inner [] List.nil_suffix starts
      · exact proper rfl
    · rw [List.append_assoc] at starts
      exact inner last (List.suffix_append _ _) starts
  · rw [List.append_assoc, List.append_assoc] at starts
    by_cases whole : front = []
    · -- at the start of the line the titles would be the same
      rw [whole, List.nil_append] at lead
      rw [← lead] at starts
      obtain ⟨more, eq⟩ := starts
      have cut : ("Ivy" : Text) ++ .char '\'' :: more = title ++ .char '\'' :: rest :=
        List.append_cancel_left (show ("project = '" : Text) ++ _ = _ from eq)
      exact same (append_mark_inj (by decide) unquoted cut).1.symm
    · cases between with
      | nil => exact inner title List.suffix_rfl starts
      | cons c between =>
        obtain ⟨d, front, rfl⟩ := List.exists_cons_of_ne_nil whole
        have inside : c ∈ ("project = '" : Text).tail := by rw [lead]; simp
        obtain ⟨rfl, _⟩ := List.cons_prefix_cons.mp (show .char 'p' :: _ <+: c :: _ from starts)
        exact absurd inside (by decide)

theorem entitled_entitled {title : Text} (quotable : Quotable title) (text : Text) :
    entitled title (entitled title text) = entitled title text := by
  apply replace_replace (by decide) (by simp [titleLine, ofChars])
  · intro c first
    obtain rfl : CodePoint.char 'p' = c := Option.some.inj first
    decide
  · exact entitled_titleLine quotable

def configurationPlace (site : Site) : Place := site.below ["partial_source", "conf.py"]

theorem writeConfiguration_eq (title : Text) :
    writeConfiguration title = (do
      let text ← readText "partial_source/conf.py"
      writeText "partial_source/conf.py" (entitled title text)) := by
  have sample : ("project = 'Ivy'" : Text) = titleLine "Ivy" := by decide
  unfold writeConfiguration entitled
  rw [sample]
  rfl

section
variable {site : Site} (clear : site.Clear) {title : Text} {tree after : Tree}
include clear

theorem relative_configuration : site.Relative "partial_source/conf.py" ["partial_source", "conf.py"] :=
  clear.relative (by decide : ("partial_source" : Text) ∈ Site.folders) (.inr ⟨"conf.py", by decide⟩)
    (by decide) (by decide)
    (Path.named_of_all (by decide))

theorem runOn_writeConfiguration_ok (run : (writeConfiguration title).runOn site tree = (.ok (), after)) :
    ∃ bytes whole, tree.get? (configurationPlace site) = some (.file bytes) ∧
      (entitled title (unifyNewlines whole)).Plain ∧
      after = tree.put (configurationPlace site) (.file (Utf8.bytesOf (entitled title (unifyNewlines whole)))) := by
  rw [writeConfiguration_eq] at run
  obtain ⟨text, between, first, rest⟩ := Script.runOn_bind_ok run
  rw [runOn_readText] at first
  obtain ⟨read, rfl⟩ := Prod.mk.inj first
  obtain ⟨place, bytes, whole, found, _, rfl⟩ := (textAt_eq_ok_iff site tree).mp read
  obtain ⟨located, held⟩ := Site.find_eq_ok_iff.mp found
  obtain rfl : place = configurationPlace site := (relative_configuration clear).eq_of_locate located
  obtain ⟨plain, spot, old, target, rfl⟩ := runOn_writeText_ok site tree rest
  rw [writable_of_find found] at target
  cases target
  exact ⟨bytes, whole, held, plain, rfl⟩

theorem runOn_writeConfiguration_again (quotable : Quotable title) (sound : tree.Sound) (distinct : tree.Distinct)
    {whole : Text} (plain : (entitled title (unifyNewlines whole)).Plain)
    (held : tree.get? (configurationPlace site) = some (.file (Utf8.bytesOf (entitled title (unifyNewlines whole))))) :
    ∃ after, (writeConfiguration title).runOn site tree = (.ok (), after) ∧
      (∀ place, after.get? place = tree.get? place) ∧
      after.Sound ∧ after.Distinct := by
  -- a title without carriage returns lets the text be read as it was written
  have free : .char '\r' ∉ entitled title (unifyNewlines whole) := by
    intro member
    rcases mem_replace (by decide) _ member with inLine | inText
    · simp only [titleLine, List.mem_append] at inLine
      rcases inLine with (lead | inside) | last
      · exact absurd lead (by decide)
      · exact quotable _ (by decide) inside
      · exact absurd last (by decide)
    · exact unifyNewlines_free whole inText
  have parent : tree.get? (site.below ["partial_source"]) = some .directory :=
    sound.parent _ "conf.py" (by rw [List.append_assoc]; exact held ▸ rfl)
  have found : site.find tree "partial_source/conf.py" = .ok (configurationPlace site, .file _) :=
    Site.find_eq_ok_iff.mpr ⟨(relative_configuration clear).locate_pair sound parent, held⟩
  have same : ∀ place, (tree.put (configurationPlace site)
    (.file (Utf8.bytesOf (entitled title (unifyNewlines whole))))).get? place =
      tree.get? place := by
    intro place
    by_cases here : configurationPlace site = place
    · rw [← here, Tree.get?_put_file _ held, held]
    · exact Tree.get?_put_apart _ _ here
  refine ⟨_, ?_, same, sound.put (fun directory => ?_) (.inl (by rw [held]; rfl)), distinct.put _ _⟩
  · have read := (textAt_eq_ok_iff site tree).mpr ⟨_, _, _, found, Utf8.decode_bytesOf plain, rfl⟩
    rw [unifyNewlines_of_free free] at read
    rw [writeConfiguration_eq, Script.runOn_bind, runOn_readText, read, andThen_ok, entitled_entitled quotable]
    exact runOn_writeText_of site tree plain (writable_of_find found)
  · rw [held] at directory
    cases directory

end

/-- A tree that a second run begins with: outside the folder of pages it is the configured tree of the first run, except
in hidden places. -/
structure Restarted (site : Site) (hidden : Place → Prop) (configured tree : Tree) : Prop where
  sound : tree.Sound
  distinct : tree.Distinct
  pages : tree.get? (site.below ["autogenerated_source"]) = some .directory
  agree : ∀ place, ¬site.below ["autogenerated_source"] <+: place → ¬hidden place →
    tree.get? place = configured.get? place

section
variable {site : Site} (clear : site.Clear) {title whole : Text} (quotable : Quotable title)
  (plain : (entitled title (unifyNewlines whole)).Plain) {hidden : Place → Prop}
  (outside : ∀ place, hidden place → ¬site.start <+: place) {configured tree : Tree}
  (restarted : Restarted site hidden configured tree)
include outside restarted

omit clear in
theorem Restarted.below {name : Text} (differs : name ≠ "autogenerated_source") (names : Place) :
    tree.get? (site.below (name :: names)) = configured.get? (site.below (name :: names)) :=
  restarted.agree _ (site.not_below_names differs.symm [] names) fun hides => outside _ hides (List.prefix_append _ _)

include clear quotable plain

/-- The second run comes to the folder of pages of the first one. -/
theorem Restarted.prepare (preparable : Preparable site configured)
    (held : configured.get? (configurationPlace site) =
      some (.file (Utf8.bytesOf (entitled title (unifyNewlines whole))))) :
    ∃ again second, (writeConfiguration title).runOn site tree = (.ok (), again) ∧
      prepareFolder.runOn site again = (.ok (), second) ∧ second.Sound ∧ second.Distinct ∧
      (∀ place, ¬hidden place → second.get? place = prepared site configured place) ∧
      ∀ place, hidden place → second.get? place = tree.get? place := by
  have sources : ∀ names, tree.get? (site.below ("partial_source" :: names)) =
      configured.get? (site.below ("partial_source" :: names)) :=
    restarted.below outside (by decide)
  obtain ⟨again, written, same, sound, distinct⟩ :=
    runOn_writeConfiguration_again clear quotable restarted.sound restarted.distinct plain ((sources _).trans held)
  have ready : Preparable site again := {
    images := by rw [same, sources]; exact preparable.images
    pages := .inr (by rw [same]; exact restarted.pages)
    build := by rw [same, restarted.below outside (by decide)]; exact preparable.build }
  obtain ⟨second, made, sound', distinct', shows⟩ := runOn_prepareFolder clear sound distinct ready
  refine ⟨again, second, written, made, sound', distinct', fun place open_ => ?_, fun place hides => ?_⟩
  · -- wherever the folder is copied from, the sources are those of the first run
    rw [shows]
    unfold prepared
    simp only [same]
    split
    · rw [List.append_assoc, List.singleton_append, sources]
    · rename_i inPages
      split
      · rw [List.append_assoc, List.cons_append, sources]
      · split
        · rfl
        · exact restarted.agree place inPages open_
  · have away := outside place hides
    have apart : ∀ names, ¬site.below names <+: place :=
      fun names inside => away ((List.prefix_append _ _).trans inside)
    have unbuilt : place ≠ site.below ["build"] := fun here => apart ["build"] (here ▸ List.prefix_refl _)
    rw [shows, prepared, if_neg (apart _), if_neg (apart _), if_neg unbuilt, same]

end

end Build
end ApiDocs
