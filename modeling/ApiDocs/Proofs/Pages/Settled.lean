import ApiDocs.Proofs.Pages.Visit

/-! Pages at the end. A page of a module is written in the visit of the module's directory, after all that is below it,
and the page of a directory comes last in the visit of that directory. No other visit comes to either of them, so both
are at the end as they were made. -/

set_option autoImplicit false

namespace ApiDocs.Pages
open Script Text ApiDocs.Module

/-- The pages of a module and of what it defines. -/
inductive Leaf (site : Site) (names : Place) (stem : Text) : Place → Prop where
  | page : Leaf site names stem (top site ++ names ++ [stem ++ (".rst" : Text)])
  | member (name : Text) : Leaf site names stem (top site ++ (names ++ [stem]) ++ [name ++ (".rst" : Text)])

theorem Paged.kept {site : Site} {settings : Settings} {names : Place} {stem text : Text} {tree after : Tree}
    (paged : Paged site settings names stem text tree) {touched : Place → Prop}
    (confined : Tree.Confined (top site) touched tree after)
    (apart : ∀ place, Leaf site names stem place → ¬touched place) : Paged site settings names stem text after where
  page := confined.kept (apart _ .page) paged.page
  functions := fun name member => confined.kept (apart _ (.member name)) (paged.functions name member)
  classes := fun name member => confined.kept (apart _ (.member name)) (paged.classes name member)

theorem eq_of_pageNames {site : Site} {inner front : Place} {last : Text} (proper : front ++ [last] ≠ [[]])
    (same : top site ++ pageNames inner = top site ++ front ++ [last ++ (".rst" : Text)]) :
    inner = front ++ [last] := by
  rw [List.append_assoc, ← pageNames_snoc] at same
  have names := List.append_cancel_left same
  by_cases empty : inner = []
  · subst empty
    rw [pageNames_snoc] at names
    have short : front ++ [last ++ (".rst" : Text)] = [(".rst" : Text)] := names.symm
    cases front with
    | nil =>
      have last : last = [] := List.append_left_eq_self.mp (List.cons.inj short).1
      exact absurd (by rw [last]; rfl) proper
    | cons name front => exact absurd (congrArg List.length short) (by simp)
  · exact pageNames_inj empty (by simp) names

section
variable {site : Site} {settings : Settings} {lib : Place} {base : Tree} (prepared : Prepared site settings lib base)
  {goal : Place}
include prepared

theorem Prepared.not_on_way (held : base.get? (lib ++ goal) = some .directory) {names : Place} {stem : Text}
    (documented : Documented lib base names stem) : ¬names ++ [stem] <+: goal := by
  rintro ⟨rest, rfl⟩
  refine prepared.regular.apart names stem documented ?_
  rw [List.append_assoc]
  by_cases whole : rest = []
  · rwa [whole, List.append_nil] at held
  · exact prepared.regular.sound.above whole (Option.isSome_iff_exists.mpr ⟨_, by rwa [List.append_assoc]⟩)

section
variable (reached : Reached settings lib base goal) {stem : Text} (documented : Documented lib base goal stem)
  {names place : Place} (leaf : Leaf site goal stem place)
include reached documented leaf

theorem Prepared.own_leaf {other : Text} (documented' : Documented lib base names other)
    (own : Own site names other place) :
    names = goal ∧ other = stem ∨ goal ++ [stem] <+: names := by
  have word := prepared.regular.stem goal stem documented
  cases leaf with
  | page =>
    generalize eq : top site ++ goal ++ [stem ++ (".rst" : Text)] = place at own
    cases own with
    | page =>
      rw [List.append_assoc, List.append_assoc] at eq
      obtain ⟨front, last⟩ := List.append_inj' (List.append_cancel_left eq) rfl
      exact .inl ⟨front.symm, (List.append_cancel_right (List.cons.inj last).1).symm⟩
    | member name =>
      rw [List.append_assoc, List.append_assoc] at eq
      obtain ⟨front, _⟩ := List.append_inj' (List.append_cancel_left eq) rfl
      -- a module is no directory, so none of its members lies where the page does
      exact absurd ⟨[], by rw [List.append_nil, front]⟩ (prepared.not_on_way reached.held documented')
    | above way =>
      right
      rwa [← eq_of_pageNames (fun empty => word.proper (by cases goal <;> simp_all)) eq.symm]
  | member name =>
    generalize eq : top site ++ (goal ++ [stem]) ++ [name ++ (".rst" : Text)] = place at own
    cases own with
    | page =>
      rw [List.append_assoc, List.append_assoc (top site) names] at eq
      obtain ⟨front, _⟩ := List.append_inj' (List.append_cancel_left eq) rfl
      exact .inr ⟨[], by rw [List.append_nil, front]⟩
    | member name' =>
      rw [List.append_assoc, List.append_assoc (top site) (names ++ [other])] at eq
      obtain ⟨front, _⟩ := List.append_inj' (List.append_cancel_left eq) rfl
      obtain ⟨rfl, last⟩ := List.append_inj' front rfl
      exact .inl ⟨rfl, (List.cons.inj last).1.symm⟩
    | above way =>
      right
      rw [eq_of_pageNames (fun empty => absurd (congrArg List.length empty) (by simp)) eq.symm] at way
      exact (List.prefix_append _ _).trans way

variable (named : goal = [] → stem ≠ "index" ∧ stem ≠ "docs")
include named

theorem Prepared.closing_leaf (closing : Closing site names place) : goal ++ [stem] <+: names := by
  have word := prepared.regular.stem goal stem documented
  cases leaf with
  | page =>
    generalize eq : top site ++ goal ++ [stem ++ (".rst" : Text)] = place at closing
    cases closing with
    | directory =>
      rw [eq_of_pageNames (fun empty => word.proper (by cases goal <;> simp_all)) eq.symm]
    | index =>
      rw [List.append_assoc] at eq
      have same : goal ++ [stem ++ (".rst" : Text)] = [] ++ [("index" : Text) ++ (".rst" : Text)] :=
        List.append_cancel_left eq
      obtain ⟨front, last⟩ := List.append_inj' same rfl
      exact absurd (List.append_cancel_right (List.cons.inj last).1) (named front).1
    | related name =>
      rw [List.append_assoc] at eq
      have same : goal ++ [stem ++ (".rst" : Text)] = [("docs" : Text)] ++ [name ++ (".rst" : Text)] :=
        List.append_cancel_left eq
      exact absurd (List.append_inj' same rfl).1 reached.visited.ne_docs
  | member name =>
    generalize eq : top site ++ (goal ++ [stem]) ++ [name ++ (".rst" : Text)] = place at closing
    cases closing with
    | directory =>
      rw [eq_of_pageNames (fun empty => absurd (congrArg List.length empty) (by simp)) eq.symm]
      exact List.prefix_append _ _
    | index =>
      rw [List.append_assoc] at eq
      exact absurd (congrArg List.length (List.append_cancel_left eq)) (by simp)
    | related name' =>
      rw [List.append_assoc] at eq
      have same : goal ++ [stem] ++ [name ++ (".rst" : Text)] = [] ++ [("docs" : Text)] ++ [name' ++ (".rst" : Text)] :=
        List.append_cancel_left eq
      obtain ⟨front, last⟩ := List.append_inj' (List.append_inj' same rfl).1 rfl
      exact absurd (List.cons.inj last).1 (named front).2

end

section
variable (reached : Reached settings lib base goal) {stem : Text} (documented : Documented lib base goal stem)
  (named : goal = [] → stem ≠ "index" ∧ stem ≠ "docs") {bytes : Bytes}
  (held : base.get? (lib ++ goal ++ [stem ++ (".py" : Text)]) = some (.file bytes))
  (distinct : (functionNames (unifyNewlines (Utf8.decodeLenient bytes)) ++
    classNames (unifyNewlines (Utf8.decodeLenient bytes))).Nodup)
include reached documented named held distinct

theorem Prepared.paged_visit {depth : Nat} {tree after : Tree} {result : List Text × List Text}
    (state : Underway site base tree) (run : (writeUpTo settings (depth + 1) (Path.walked settings.library goal)).runOn
      site tree = (.ok result, after)) :
    Paged site settings goal stem (unifyNewlines (Utf8.decodeLenient bytes)) after := by
  have way := prepared.way_of_reached reached
  have file := prepared.regular.named documented
  obtain ⟨folders, made, lower, filled, closed, visit⟩ := prepared.visit way state run
  have reachedLower := prepared.underway_lower way visit state
  have listed : Path.walked settings.library (goal ++ [stem ++ (".py" : Text)]) ∈
      (entryPaths site tree (Path.walked settings.library goal) (lib ++ goal)).filter isModule := by
    rw [Path.walked_snoc]
    refine List.mem_filter.mpr ⟨mem_entryPaths.mpr ⟨_, ?_, rfl⟩, ?_⟩
    · rw [state.module]
      exact documented.present
    · exact (isModule_join_iff _ (file _ (by simp)).noSlash).mpr ⟨stem, rfl, documented.kept⟩
  have paged : Paged site settings goal stem (unifyNewlines (Utf8.decodeLenient bytes)) filled := by
    refine visit.modules.settles (Underway site base) _ listed reachedLower ?_ ?_ ?_
    · intro path member now next before step
      obtain ⟨previous, result, step⟩ := step
      obtain ⟨_, _, _, own⟩ := prepared.confined_module way state before member step
      exact before.next own fun _ own => own.inside
    · intro now next before step
      obtain ⟨previous, result, step⟩ := step
      obtain ⟨_, bytes', held', pages⟩ :=
        runOn_writeModule_ok prepared.placed prepared.free prepared.regular way.words documented
        prepared.located before step
      cases held.symm.trans held'
      exact pages distinct
    · -- another module of the directory has pages of its own
      intro path member differs now next before step pages
      obtain ⟨previous, result, step⟩ := step
      obtain ⟨other, rfl, documented', own⟩ := prepared.confined_module way state before member step
      refine pages.kept own fun place leaf touched => ?_
      rcases prepared.own_leaf reached documented leaf documented' touched with ⟨_, rfl⟩ | leads
      · exact differs rfl
      · exact absurd leads.length_le (by simp)
  have reachedFilled := reachedLower.next (prepared.confined_modules way visit state reachedLower)
    fun _ ⟨_, _, own⟩ => own.inside
  refine paged.kept (prepared.confined_closing way visit reachedFilled) fun place leaf closing => ?_
  exact absurd (prepared.closing_leaf reached documented leaf named closing).length_le (by simp)

/-- At the end the pages of every module in a directory that is visited are there. -/
theorem Prepared.paged {after : Tree} {result : List Text × List Text}
    (run : (write settings settings.library).runOn site base = (.ok result, after)) :
    Paged site settings goal stem (unifyNewlines (Utf8.decodeLenient bytes)) after := by
  rw [runOn_write] at run
  refine prepared.settles reached (fun tree after confined paged => paged.kept confined ?_)
    (fun depth tree after result state run => prepared.paged_visit reached documented named held distinct state run)
    (List.nil_append goal).symm (.refl _ _ base) run
  rintro place leaf ⟨names, elsewhere, _, touched⟩
  cases touched with
  | module documented' own =>
    rcases prepared.own_leaf reached documented leaf documented' own with ⟨rfl, _⟩ | leads
    · exact elsewhere (List.prefix_refl _)
    · exact elsewhere ((List.prefix_append _ _).trans leads)
  | closing closing =>
    exact elsewhere ((List.prefix_append _ _).trans (prepared.closing_leaf reached documented leaf named closing))

end

theorem Prepared.touched_directory {front : Place} {last : Text}
    (held : base.get? (lib ++ (front ++ [last])) = some .directory) (visited : Visited settings front)
    (unindexed : front = [] → last ≠ "index") {names : Place}
    (touched : Touched site lib base names (top site ++ front ++ [last ++ (".rst" : Text)])) :
    front ++ [last] <+: names := by
  have nonempty : last ≠ [] :=
    (prepared.regular.sound.named_of_mem (Option.isSome_iff_exists.mpr ⟨_, held⟩) last (by simp)).nonempty
  have proper : front ++ [last] ≠ [[]] := fun empty => nonempty (by cases front <;> simp_all)
  generalize eq : top site ++ front ++ [last ++ (".rst" : Text)] = place at touched
  cases touched with
  -- the library has a directory under the name, so no module can
  | module documented own =>
    cases own with
    | page =>
      rw [List.append_assoc, List.append_assoc] at eq
      obtain ⟨rfl, last⟩ := List.append_inj' (List.append_cancel_left eq) rfl
      refine absurd ?_ (prepared.not_on_way held documented)
      rw [List.append_cancel_right (List.cons.inj last).1]
    | member name =>
      rw [List.append_assoc, List.append_assoc] at eq
      refine absurd ?_ (prepared.not_on_way held documented)
      rw [(List.append_inj' (List.append_cancel_left eq) rfl).1]
      exact List.prefix_append _ _
    | above way => rwa [eq_of_pageNames proper eq.symm] at way
  | closing closing =>
    cases closing with
    | directory => rw [eq_of_pageNames proper eq.symm]
    | index =>
      rw [List.append_assoc] at eq
      have same : front ++ [last ++ (".rst" : Text)] = [] ++ [("index" : Text) ++ (".rst" : Text)] :=
        List.append_cancel_left eq
      obtain ⟨empty, same⟩ := List.append_inj' same rfl
      exact absurd (List.append_cancel_right (List.cons.inj same).1) (unindexed empty)
    | related name =>
      rw [List.append_assoc] at eq
      have same : front ++ [last ++ (".rst" : Text)] = [("docs" : Text)] ++ [name ++ (".rst" : Text)] :=
        List.append_cancel_left eq
      exact absurd (List.append_inj' same rfl).1 visited.ne_docs

/-- Nothing in the directory belongs to the folder of the pages. -/
def Outside (site : Site) (place : Place) : Prop := ∀ name, ¬top site <+: place ++ [name]

omit prepared in
theorem Underway.entry {tree : Tree} (state : Underway site base tree) {place : Place} (outside : Outside site place)
    (name : Text) :
    tree.get? (place ++ [name]) = base.get? (place ++ [name]) := by
  rcases state.each (place ++ [name]) with same | ⟨inside, _⟩ | ⟨_, _, inside, _⟩
  · exact same
  · exact absurd inside.2 (outside name)
  · exact absurd inside (outside name)

omit prepared in
theorem Underway.entryPaths_eq {tree : Tree} (state : Underway site base tree) {place : Place}
    (outside : Outside site place) (directory : Text) :
    entryPaths site tree directory place = entryPaths site base directory place := by
  have same : tree.names place = base.names place := Tree.names_congr fun name => by rw [state.entry outside name]
  rw [entryPaths, entryPaths, same]

theorem Prepared.locate_on_way (reached : Reached settings lib base goal) {front : Place} :
    ∀ {rest : Place}, goal = front ++ rest →
      site.locate base (Path.walked settings.library front) = .ok (lib ++ front) := by
  induction front using List.reverseRecOn with
  | nil =>
    intro rest _
    rw [List.append_nil]
    exact prepared.located
  | append_singleton front name ih =>
    intro rest eq
    have way := prepared.way_of_reached reached
    rw [List.append_assoc] at eq
    have named : Path.Named name := way.named name (by rw [eq]; simp)
    have above := prepared.held_on_way reached ⟨_, eq.symm⟩
    rw [Path.walked_snoc, ← List.append_assoc]
    refine Site.locate_join prepared.placed named (ih eq) above (Nat.le_trans ?_ reached.short)
    rw [← Path.walked_snoc, eq, ← List.append_assoc, Path.walked_append settings.library (front ++ [name]) rest]
    exact Path.size_le_walked _ fun other member => way.named other (by rw [eq]; simp [member])

def directoriesIn (site : Site) (settings : Settings) (lib : Place) (tree : Tree) (names : Place) : List Text :=
  innerDirectories site tree (entryPaths site tree (Path.walked settings.library names) (lib ++ names))

def modulesIn (site : Site) (settings : Settings) (lib : Place) (tree : Tree) (names : Place) : List Text :=
  (entryPaths site tree (Path.walked settings.library names) (lib ++ names)).filter isModule

theorem Prepared.directoriesIn_eq (reached : Reached settings lib base goal) (outside : Outside site (lib ++ goal))
    {made : Tree} (state : Underway site base made) :
    innerDirectories site made (entryPaths site base (Path.walked settings.library goal) (lib ++ goal)) =
      directoriesIn site settings lib base goal := by
  have located := prepared.locate_on_way reached (List.append_nil goal).symm
  refine List.filter_congr fun path member => ?_
  obtain ⟨name, present, rfl⟩ := mem_entryPaths.mp member
  have named := prepared.regular.sound.named _ name present
  rw [runOn_isDirectory_join prepared.placed named located reached.held,
    runOn_isDirectory_join prepared.placed named (Site.locate_keeps state.keeps located) (state.keeps _ reached.held),
    state.entry outside name]

theorem Prepared.visit_found (reached : Reached settings lib base goal) (outside : Outside site (lib ++ goal))
    {depth : Nat} {result : List Text × List Text} {folders : List (Text × List Text)}
    {tree made lower filled closed after : Tree}
    (visit : Visit site settings lib depth goal result folders tree made lower filled closed after)
    (state : Underway site base tree) :
    innerDirectories site made (entryPaths site tree (Path.walked settings.library goal) (lib ++ goal)) =
        directoriesIn site settings lib base goal ∧
      (entryPaths site tree (Path.walked settings.library goal) (lib ++ goal)).filter isModule =
        modulesIn site settings lib base goal := by
  rw [state.entryPaths_eq outside, prepared.directoriesIn_eq reached outside (visit.ready state)]
  exact ⟨rfl, rfl⟩

def directoryPage (site : Site) (settings : Settings) (lib : Place) (base : Tree) (names : Place) (readme : Text) :
    Text :=
  readme ++ Toctree.render none [(names.getLastD [],
    directoryPages settings (directoriesIn site settings lib base names) (modulesIn site settings lib base names))]

section
variable (reached : Reached settings lib base goal) (below : goal ≠ []) (outside : Outside site (lib ++ goal))
  (readme : (base.get? (lib ++ goal ++ [("README.rst" : Text)])).isSome = true)
include reached below outside readme

theorem Prepared.directory_visit {depth : Nat} {tree after : Tree} {result : List Text × List Text}
    (state : Underway site base tree) (run : (writeUpTo settings (depth + 1) (Path.walked settings.library goal)).runOn
      site tree = (.ok result, after)) :
    ∃ text, textAt site base (Path.join (Path.walked settings.library goal) "README.rst") = .ok text ∧
      after.get? (top site ++ pageNames goal) =
        some (.file (Utf8.bytesOf (directoryPage site settings lib base goal text))) := by
  have way := prepared.way_of_reached reached
  have located := prepared.locate_on_way reached (List.append_nil goal).symm
  obtain ⟨folders, made, lower, filled, closed, visit⟩ := prepared.visit way state run
  have reachedLower := prepared.underway_lower way visit state
  have reachedFilled := reachedLower.next (prepared.confined_modules way visit state reachedLower)
    fun _ ⟨_, _, own⟩ => own.inside
  obtain ⟨_, rfl⟩ := visit.ending.resolve_right fun ⟨empty, _⟩ => below empty
  have listed : (sort (site.arrange (lib ++ goal) (tree.names (lib ++ goal)))).contains "README.rst" = true := by
    rw [List.contains_iff_mem, (sort_perm _).mem_iff, (site.arrange_perm _ _).mem_iff, Tree.mem_names,
      state.entry outside]
    exact readme
  obtain ⟨text, read, page⟩ := (runOn_writeDirectory_ok prepared.placed prepared.free prepared.regular
    way.words way.named
    visit.closing).2 listed
  obtain ⟨place, bytes, whole, found, decoded, rfl⟩ := (textAt_eq_ok_iff site filled).mp read
  refine ⟨_, (textAt_eq_ok_iff site base).mpr ⟨place, bytes, whole, ?_, decoded, rfl⟩, ?_⟩
  · -- the readme is read as it was before any page was written
    have single : Path.Single "README.rst" := (Path.named_of_isNamed (by decide)).single
    obtain ⟨there, held⟩ := Site.find_eq_ok_iff.mp found
    have here := (Site.locate_join_below prepared.placed single located reached.held
      (Site.locate_keeps reachedFilled.keeps located) (reachedFilled.keeps _ reached.held)).mpr there
    obtain rfl := Site.locate_join_plain prepared.placed single (plain_ofChars _) located reached.held here
    rw [reachedFilled.entry outside] at held
    exact Site.find_eq_ok_iff.mpr ⟨here, held⟩
  · obtain ⟨directories, modules⟩ := prepared.visit_found reached outside visit state
    rw [page, directories, modules]
    rfl

/-- At the end the page of every directory that is visited and has a readme is there. -/
theorem Prepared.directory_page (unindexed : goal ≠ [("index" : Text)]) {after : Tree} {result : List Text × List Text}
    (run : (write settings settings.library).runOn site base = (.ok result, after)) :
    ∃ text, textAt site base (Path.join (Path.walked settings.library goal) "README.rst") = .ok text ∧
      after.get? (top site ++ pageNames goal) =
        some (.file (Utf8.bytesOf (directoryPage site settings lib base goal text))) := by
  rw [runOn_write] at run
  refine prepared.settles reached (fun tree after confined done => ?_)
    (fun depth tree after result state run => prepared.directory_visit reached below outside readme state run)
    (List.nil_append goal).symm (.refl _ _ base) run
  obtain ⟨text, read, page⟩ := done
  refine ⟨text, read, confined.kept ?_ page⟩
  rintro ⟨names, elsewhere, _, touched⟩
  obtain ⟨front, last, rfl⟩ := (List.eq_nil_or_concat goal).resolve_left below
  rw [List.concat_eq_append] at reached unindexed elsewhere touched
  rw [pageNames_snoc, ← List.append_assoc] at touched
  refine elsewhere (prepared.touched_directory reached.held reached.visited.front
    (fun empty same => unindexed ?_) touched)
  rw [empty, same, List.nil_append]

end
end

end ApiDocs.Pages
