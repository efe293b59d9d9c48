import ApiDocs.Proofs.Html.SourceLinks

/-! The first paragraphs of methods. They are looked for from the places where the definitions were before any edit, and
no place is corrected: the links to the sources and the paragraphs before have moved a definition by then. Its paragraph
is found all the same if it is still the first one from the old place. -/

set_option autoImplicit false

namespace ApiDocs.Html

open Text

/-- The first paragraph from a place on, without its tags. It ends before the definitions there do. -/
structure FirstParagraph (page : Text) (place first last : Nat) : Prop where
  opened : ∃ lead, index? "<p>" (page.drop place) = some lead ∧ first = place + lead + 3
  closed : ∃ length, index? "</p>" (page.drop first) = some length ∧ last = first + length
  within : ∃ size, index? "</dl>" (page.drop place) = some size ∧ last + 4 ≤ place + size

def relinked (path page : Text) : Text := relinkSources (submoduleOf path) (methods page) page

def paragraphEdit (path page : Text) (first last : Nat) : Edit :=
  ⟨first, last, linkCalls path ((page.take last).drop first)⟩

/-- Methods whose first paragraphs are found, and the edits of these. A method has moved by `shift` when the links lead
to the sources, and by `drift` more through the paragraphs before it, which end at `stop`. Seen from the place where it
was before any edit, the first paragraph is its own. -/
inductive Aimed (path page : Text) : Int → Int → Nat → List Definition → List Edit → Prop where
  | done (shift drift : Int) (stop : Nat) : Aimed path page shift drift stop [] []
  | next {shift drift : Int} {stop place seen first last : Nat} {definition : Definition}
    {definitions : List Definition}
      {edits : List Edit} (moved : (place : Int) = definition.start + shift)
      (own : FirstParagraph (relinked path page) place first last)
      (drifted : (definition.start : Int) = seen + drift) (after : stop ≤ seen)
      (found : FirstParagraph (relinked path page) seen first last) (long : first + 10 ≤ last)
      (prose : ¬("code" : Text) <:+: ((relinked path page).take last).drop first)
      (later : Aimed path page (shift + (definition.sourceEdit (submoduleOf path) page).growth)
        (drift + (paragraphEdit path (relinked path page) first last).growth) last definitions edits) :
      Aimed path page shift drift stop (definition :: definitions)
        (paragraphEdit path (relinked path page) first last :: edits)

theorem index?_take {part text : Text} {place count : Nat} (found : index? part text = some place)
    (inside : place + part.length ≤ count) : index? part (text.take count) = some place := by
  obtain ⟨stands, bound, least⟩ := index?_eq_some_iff.mp found
  have cut : ∀ {earlier : Nat}, StandsAt part (text.take count) earlier → StandsAt part text earlier := by
    intro earlier there
    unfold StandsAt at there ⊢
    rw [List.drop_take] at there
    exact there.trans (List.take_prefix _ _)
  refine index?_eq_some_iff.mpr ⟨?_, ?_, fun earlier before there => least earlier before (cut there)⟩
  · unfold StandsAt at stands ⊢
    rw [List.drop_take, List.prefix_take_iff]
    exact ⟨stands, by omega⟩
  · rw [List.length_take]
    omega

namespace FirstParagraph

variable {page : Text} {place first last : Nat} (found : FirstParagraph page place first last)
include found

theorem place_le : place + 3 ≤ first := by
  obtain ⟨lead, _, rfl⟩ := found.opened
  omega

theorem first_le : first ≤ last := by
  obtain ⟨length, _, rfl⟩ := found.closed
  exact Nat.le_add_right _ _

theorem last_le : last ≤ page.length := by
  obtain ⟨size, ends, within⟩ := found.within
  have bound := (index?_eq_some_iff.mp ends).1.bound (by decide)
  have tag : ("</dl>" : Text).length = 5 := by decide
  rw [List.length_drop, tag] at bound
  omega

theorem index_closed {size : Nat} (ends : index? "</dl>" (page.drop place) = some size) :
    (first : Int) + index "</p>" ((page.take (place + size)).drop first) = last := by
  obtain ⟨length, closes, rfl⟩ := found.closed
  obtain ⟨size', ends', within⟩ := found.within
  cases ends.symm.trans ends'
  have tag : ("</p>" : Text).length = 4 := by decide
  rw [List.drop_take, index, index?_take closes (by omega)]
  simp [signed]

end FirstParagraph

/-- One step: the paragraph that is the first from the old place of a definition is linked. -/
theorem linkDefinition_reached {path page front : Text} {stop seen first last : Nat} {drift : Int}
    {definition : Definition} (functional : functionalFolder <:+: path) (reached : Reached page front stop drift)
    (drifted : (definition.start : Int) = seen + drift) (after : stop ≤ seen)
    (found : FirstParagraph page seen first last) (long : first + 10 ≤ last)
    (prose : ¬("code" : Text) <:+: (page.take last).drop first) (proper : (first : Int) + drift ≠ 3) :
    linkDefinition path (front ++ page.drop stop) definition =
        (front ++ ((page.take first).drop stop ++ linkCalls path ((page.take last).drop first))) ++ page.drop last ∧
      Reached page (front ++ ((page.take first).drop stop ++ linkCalls path ((page.take last).drop first))) last
        (drift + (paragraphEdit path page first last).growth) := by
  have start := found.place_le
  have ordered := found.first_le
  have goes : (front ++ page.drop stop).drop definition.start = page.drop seen := by
    rw [← since_ofNat, drifted, reached.since_later after]
  obtain ⟨lead, opens, opened⟩ := found.opened
  obtain ⟨size, ends, within⟩ := found.within
  -- each place that is computed in the edited page is the one in the page, moved by the drift
  have first' : (definition.start : Int) + index "<p>" (page.drop seen) + 3 = first + drift := by
    rw [index, opens, signed]
    omega
  have stop' : (definition.start : Int) + index "</dl>" (page.drop seen) = (seen + size : Nat) + drift := by
    rw [index, ends, signed]
    omega
  have last' : (first : Int) + drift + index "</p>" ((page.take (seen + size)).drop first) = last + drift := by
    have closed := found.index_closed ends
    omega
  have inner := reached.slice_later (show stop ≤ first by omega) (show first ≤ seen + size by omega)
  have paragraph := reached.slice_later (show stop ≤ first by omega) ordered
  have named : Text.mentions "functional" path = true :=
    mentions_iff.mpr (List.IsInfix.trans ⟨[], "/ivy/", rfl⟩ functional)
  have noCode : Text.mentions "code" ((page.take last).drop first) = false :=
    Bool.eq_false_iff.mpr (mt mentions_iff.mp prose)
  have enough : ¬((last : Int) + drift - (first + drift) < 10) := by omega
  have before : stop ≤ (paragraphEdit path page first last).start := by
    show stop ≤ first
    omega
  have edited := reached.edit before ordered found.last_le
  refine ⟨?_, edited.2⟩
  unfold linkDefinition
  simp only [goes, first', stop', inner, last', paragraph, named, noCode, enough, proper, decide_false, Bool.not_true,
    Bool.or_false, Bool.false_eq_true, if_false]
  exact edited.1

section Chain
variable {path page : Text} (linked : ∀ definition ∈ methods page, definition.Linked page)
include linked

theorem standsAt_relinked {before later : List Definition} {definition : Definition}
    (listed : methods page = before ++ definition :: later) {place : Nat}
    (moved : (place : Int) = definition.start + growth (before.map (Definition.sourceEdit (submoduleOf path) page))) :
    StandsAt definitionMark (relinked path page) place := by
  have makes := makes_methods linked (submoduleOf path)
  have ordered := ordered_methods linked (submoduleOf path)
  have apart := apart_map makes ordered (Nat.zero_le _) fun _ _ => Nat.zero_le _
  have made : relinked path page = _ := foldl_patch makes ordered
  have member : definition ∈ methods page := listed ▸ List.mem_append_right _ List.mem_cons_self
  obtain ⟨stands, _, _⟩ := mem_methods.mp member
  have inside := stands.bound (by decide)
  obtain ⟨base, forward, _, _⟩ := makes definition member
  rw [listed, List.map_append] at apart made
  rw [listed] at ordered makes
  obtain ⟨_, own, across⟩ := List.pairwise_append.mp ordered
  have after : ∀ edit ∈ before.map (Definition.sourceEdit (submoduleOf path) page), edit.stop ≤ definition.start :=
    List.forall_mem_map.mpr fun one earlier => across one earlier definition List.mem_cons_self
  have starts : ∀ edit ∈ (definition :: later).map (Definition.sourceEdit (submoduleOf path) page),
      definition.start ≤ edit.start := by
    refine List.forall_mem_map.mpr fun one listed => ?_
    rcases List.mem_cons.mp listed with rfl | next
    · exact base
    · have beyond := (List.pairwise_cons.mp own).1 one next
      have first := (makes one (List.mem_append_right _ (List.mem_cons_of_mem _ next))).1
      omega
  -- the edits before the definition move it, those from it on leave the page before it alone
  obtain ⟨place', moved', goes⟩ := drop_patchFrom apart after (Nat.zero_le _) (by omega) starts
  obtain rfl : place' = place := by omega
  have line : definitionMark <+: (page.take definition.linkStart).drop definition.start := by
    rw [List.drop_take, List.prefix_take_iff]
    have longer : definitionMark.length ≤ referenceMark.length := by decide
    exact ⟨stands, by unfold Definition.linkStart; omega⟩
  rw [StandsAt, made, patch, goes, List.map_cons, patchFrom, List.append_assoc]
  exact line.trans (List.prefix_append _ _)

/-- The run: each paragraph that is found is linked in its turn. -/
theorem foldl_linkDefinition (functional : functionalFolder <:+: path) {before definitions : List Definition}
    (listed : methods page = before ++ definitions) {shift drift : Int} {stop : Nat} {edits : List Edit}
    (moved : shift = growth (before.map (Definition.sourceEdit (submoduleOf path) page)))
    (aimed : Aimed path page shift drift stop definitions edits) {front : Text}
    (reached : Reached (relinked path page) front stop drift) (fresh : front = [] → before = [] ∧ stop = 0) :
    definitions.foldl (linkDefinition path) (front ++ (relinked path page).drop stop) =
        front ++ patchFrom (relinked path page) stop edits ∧ Apart (relinked path page) stop edits := by
  induction aimed generalizing before front with
  | done => exact ⟨rfl, reached.inside⟩
  | @next shift drift stop place seen first last definition definitions edits movedHere own drifted
    after found long prose
      later ih =>
    have opened := found.place_le
    have length := reached.moved
    -- The first definition may begin the page, but a paragraph does not begin where a definition does.
    have proper : (first : Int) + drift ≠ 3 := by
      intro three
      obtain ⟨rfl, rfl⟩ := fresh (List.length_eq_zero_iff.mp (by omega))
      have mark := standsAt_relinked linked listed (moved ▸ movedHere)
      rw [List.map_nil, growth] at moved
      obtain ⟨lead, opens, firstEq⟩ := own.opened
      obtain ⟨rfl, rfl⟩ : place = 0 ∧ lead = 0 := by omega
      have paragraph := (index?_eq_some_iff.mp opens).1
      rw [standsAt_zero] at mark
      rw [standsAt_zero, List.drop_zero] at paragraph
      exact (List.prefix_or_prefix_of_prefix mark paragraph).elim (by decide) (by decide)
    obtain ⟨edited, next⟩ := linkDefinition_reached functional reached drifted after found long prose proper
    have grown : shift + (definition.sourceEdit (submoduleOf path) page).growth =
        growth ((before ++ [definition]).map (Definition.sourceEdit (submoduleOf path) page)) := by
      rw [moved, List.map_append, growth_append]
      simp [growth]
    have filled : front ++ (((relinked path page).take first).drop stop ++
        linkCalls path (((relinked path page).take last).drop first)) ≠ [] := by
      have inside := Nat.le_trans found.first_le found.last_le
      intro empty
      have size := congrArg List.length empty
      simp only [List.length_append, List.length_drop, List.length_take, List.length_nil] at size
      omega
    obtain ⟨run, apart⟩ := ih (by rw [listed, List.append_assoc, List.singleton_append]) grown next
      fun empty => absurd empty filled
    refine ⟨?_, Nat.le_trans after (Nat.le_of_add_right_le opened), found.first_le, apart⟩
    rw [List.foldl_cons, edited, run, patchFrom, List.append_assoc]
    rfl

end Chain

/-- If seen from the old place of every method the first paragraph is the method's own, then each of these paragraphs is
linked, by itself, and the page stays as it was apart from them. -/
theorem linkMethods_paragraphs {path page : Text} (functional : functionalFolder <:+: path)
    (linked : ∀ definition ∈ methods page, definition.Linked page) {edits : List Edit}
    (aimed : Aimed path page 0 0 0 (methods page) edits) :
    Apart (relinked path page) 0 edits ∧ linkMethods path page = patch (relinked path page) edits := by
  have listed : methods page = [] ++ methods page := rfl
  have run := foldl_linkDefinition linked functional listed rfl aimed (reached_start _) fun _ => ⟨rfl, rfl⟩
  refine ⟨run.2, ?_⟩
  rw [linkMethods, if_pos (mentions_iff.mpr functional)]
  exact run.1

def methodEntry (kind address paragraph : Text) : Text :=
  "<dl>\n<dt class=\"sig sig-object py\" id=\"ivy." ++ kind ++
    "_methods.abs\"><a class=\"reference internal\" href=\"" ++ address ++
    "\"><span>source</span></a></dt>\n<dd><p>" ++ paragraph ++ "</p></dd>\n</dl>\n"

def spacedPage (array container : Text × Text) : Text :=
  methodEntry "array" array.1 array.2 ++ times 120 "-" ++ methodEntry "container" container.1 container.2

def spacedPath : Text := "functional/ivy/general/abs.html"

def spacedBefore : Text :=
  spacedPage ("_modules/ivy/a.html", "Variant of ivy.abs for arrays.") ("_modules/ivy/a.html",
    "Variant of ivy.abs for containers.")

def spacedRelinked : Text :=
  spacedPage ("_modules/ivy/array/general.html#ArrayWithGeneral.abs", "Variant of ivy.abs for arrays.")
    ("_modules/ivy/container/general.html#ContainerWithGeneral.abs", "Variant of ivy.abs for containers.")

def spacedAfter : Text :=
  spacedPage
    ("_modules/ivy/array/general.html#ArrayWithGeneral.abs",
      "Variant of <a href=\"./abs/abs_functional.html\">ivy.abs</a> for arrays.")
    ("_modules/ivy/container/general.html#ContainerWithGeneral.abs",
      "Variant of <a href=\"./abs/abs_functional.html\">ivy.abs</a> for containers.")

theorem evaluated_spaced :
    methods spacedBefore = [⟨lineAt spacedBefore 5, 5⟩, ⟨lineAt spacedBefore 326, 326⟩] ∧
      relinked spacedPath spacedBefore = spacedRelinked ∧
      ((index? "<p>" (spacedRelinked.drop 5) = some 180 ∧ index? "</dl>" (spacedRelinked.drop 5) = some 223) ∧
        (index? "<p>" (spacedRelinked.drop 359) = some 192 ∧ index? "</dl>" (spacedRelinked.drop 359) = some 239) ∧
        (index? "<p>" (spacedRelinked.drop 286) = some 265 ∧ index? "</dl>" (spacedRelinked.drop 286) = some 312) ∧
        index? "</p>" (spacedRelinked.drop 188) = some 30 ∧ index? "</p>" (spacedRelinked.drop 554) = some 34) ∧
      ((Definition.sourceEdit (submoduleOf spacedPath) spacedBefore ⟨lineAt spacedBefore 5, 5⟩).growth = 33 ∧
        (paragraphEdit spacedPath spacedRelinked 188 218).growth = 40) ∧
      ∀ edit ∈ [(188, 218), (554, 588)], ¬mentions "code" ((spacedRelinked.take edit.2).drop edit.1) = true := by
  decide +kernel

theorem methods_spacedBefore : methods spacedBefore = [⟨lineAt spacedBefore 5, 5⟩, ⟨lineAt spacedBefore 326, 326⟩] :=
  evaluated_spaced.1

theorem relinked_spacedBefore : relinked spacedPath spacedBefore = spacedRelinked := evaluated_spaced.2.1

theorem firstParagraph_spaced :
    FirstParagraph spacedRelinked 5 188 218 ∧ FirstParagraph spacedRelinked 359 554 588 ∧
      FirstParagraph spacedRelinked 286 554 588 := by
  obtain ⟨⟨open₁, end₁⟩, ⟨open₂, end₂⟩, ⟨open₃, end₃⟩, close₁, close₂⟩ := evaluated_spaced.2.2.1
  refine ⟨⟨⟨_, open₁, rfl⟩, ⟨_, close₁, rfl⟩, ⟨_, end₁, by decide⟩⟩, ?_, ?_⟩
  · exact ⟨⟨_, open₂, rfl⟩, ⟨_, close₂, rfl⟩, ⟨_, end₂, by decide⟩⟩
  · exact ⟨⟨_, open₃, rfl⟩, ⟨_, close₂, rfl⟩, ⟨_, end₃, by decide⟩⟩

theorem aimed_spaced : Aimed spacedPath spacedBefore 0 0 0 (methods spacedBefore)
    [paragraphEdit spacedPath spacedRelinked 188 218, paragraphEdit spacedPath spacedRelinked 554 588] := by
  obtain ⟨array, own, seen⟩ := firstParagraph_spaced
  obtain ⟨shift, drift⟩ := evaluated_spaced.2.2.2.1
  rw [methods_spacedBefore]
  rw [← relinked_spacedBefore] at array own seen drift ⊢
  have prose : ∀ edit ∈ [(188, 218), (554, 588)], ¬("code" : Text) <:+: (spacedRelinked.take edit.2).drop edit.1 :=
    fun edit member inside => evaluated_spaced.2.2.2.2 edit member (mentions_iff.mpr inside)
  rw [← relinked_spacedBefore] at prose
  refine .next rfl array rfl (Nat.zero_le 5) array (by decide) (prose (188, 218) (by decide)) ?_
  rw [shift, drift]
  exact .next rfl own rfl (by decide) seen (by decide) (prose (554, 588) (by decide)) (.done _ _ _)

theorem linkMethods_paragraphs_sample : linkMethods spacedPath spacedBefore = spacedAfter := by
  have functional : functionalFolder <:+: spacedPath := mentions_iff.mp (by decide)
  have linked : ∀ definition ∈ methods spacedBefore, definition.Linked spacedBefore := by decide +kernel
  refine (linkMethods_paragraphs functional linked aimed_spaced).2.trans ?_
  rw [relinked_spacedBefore]
  decide +kernel

end ApiDocs.Html
