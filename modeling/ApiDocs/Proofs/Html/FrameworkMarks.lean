import ApiDocs.Html.Insertions
import ApiDocs.Proofs.Text.Insertions

/-! Classes of the paragraph of supported frameworks. The class of the paragraph is put in first and moves all that
comes after it; the links are then looked for in the page as it stands, and are those of the page before. Their classes
are put in from the first link to the last one, each moved by those before it. -/

set_option autoImplicit false

namespace ApiDocs.Html

open Text

def frameworksClass : Text := " class=supported_frameworks"

def logoClass : Text := " logo"

/-- The external links from a place on and before the first end of a paragraph that comes after another place. -/
def frameworkLinks (page : Text) (after spot : Nat) : List Nat :=
  match index? "</p>" (page.drop after) with
  | none => []
  | some close => (places externalLink page).filter fun place => spot ≤ place && place < after + close

/-- What is put into a page whose frameworks are announced up to a place, with the paragraph's tag so much later. -/
def frameworkInsertions (page : Text) (after gap : Nat) : List Edit :=
  insertion frameworksClass (after + gap + 2) ::
    (frameworkLinks page after (after + gap + 2)).map fun place => insertion logoClass (place + externalLink.length)

theorem frameworkLinks_places (page : Text) (after spot : Nat) :
    (frameworkLinks page after spot).Pairwise (· < ·) ∧
      ∀ place ∈ frameworkLinks page after spot, spot ≤ place ∧ StandsAt externalLink page place := by
  unfold frameworkLinks
  split
  · exact ⟨.nil, fun place member => absurd member List.not_mem_nil⟩
  · refine ⟨(places_ascending externalLink page).filter _, fun place member => ?_⟩
    obtain ⟨found, between⟩ := List.mem_filter.mp member
    simp only [Bool.and_eq_true, decide_eq_true_eq] at between
    exact ⟨between.1, (mem_places (by decide)).mp found⟩

theorem inserts_frameworks {page : Text} {after gap : Nat} (inside : after + gap + 2 ≤ page.length) :
    Inserts page 0 (frameworkInsertions page after gap) := by
  obtain ⟨ascending, links⟩ := frameworkLinks_places page after (after + gap + 2)
  have ends : (frameworkLinks page after (after + gap + 2)).map
    (fun place => insertion logoClass (place + externalLink.length)) =
      ((frameworkLinks page after (after + gap + 2)).map (· + externalLink.length)).map (insertion logoClass) := by
    rw [List.map_map]
    rfl
  refine ⟨Nat.zero_le _, rfl, ?_⟩
  rw [ends]
  refine inserts_map logoClass inside (List.pairwise_cons.mpr ⟨?_, ?_⟩) ?_
  · simp only [List.forall_mem_map]
    intro place member
    exact Nat.le_trans (links place member).1 (Nat.le_add_right _ _)
  · rw [List.pairwise_map]
    exact ascending.imp fun before => by omega
  · simp only [List.forall_mem_map]
    intro place member
    exact (links place member).2.bound (by decide)

theorem page_parts {page : Text} {mark gap : Nat} (first : index? frameworksMark page = some mark)
    (opened : index? "<p" (page.drop (mark + frameworksMark.length)) = some gap) :
    ∃ before between body : Text, page = before ++ (frameworksMark ++ (between ++ (("<p" : Text) ++ body))) ∧
      before.length = mark ∧
      between.length = gap := by
  obtain ⟨⟨rest, cut⟩, inside, _⟩ := index?_eq_some_iff.mp first
  have after : page.drop (mark + frameworksMark.length) = rest := by
    rw [← List.drop_drop, ← cut, List.drop_left]
  rw [after] at opened
  obtain ⟨⟨body, tag⟩, within, _⟩ := index?_eq_some_iff.mp opened
  refine ⟨page.take mark, rest.take gap, body, ?_, List.length_take_of_le inside, List.length_take_of_le within⟩
  rw [tag, List.take_append_drop, cut, List.take_append_drop]

theorem opening_avoids_closing {lead : Text} (absent : ¬("</p>" : Text) <:+: lead ++ ("<p" : Text)) :
    Avoids (lead ++ ("<p" : Text)) "</p>" := by
  intro tail member proper
  have ends := (List.mem_tails _ _).mp member
  refine ⟨fun starts => ?_, fun starts => absent (starts.isInfix.trans ends.isInfix)⟩
  rcases List.suffix_or_suffix_of_suffix ends (List.suffix_append lead ("<p" : Text)) with inside | outside
  · have none : ∀ tail ∈ ("<p" : Text).tails, tail ≠ [] → ¬tail <+: ("</p>" : Text) := by decide
    exact none tail ((List.mem_tails _ _).mpr inside) proper starts
  · have none : ¬("<p" : Text) <:+: ("</p>" : Text) := by decide
    exact none (outside.isInfix.trans starts.isInfix)

theorem filter_links (front : Text) {gap : Text} (avoids : Avoids gap externalLink) (body : Text) (size : Nat) :
    ((places externalLink (front ++ (gap ++ body))).filter fun place =>
        front.length ≤ place && place < front.length + gap.length + size) =
      ((places externalLink body).filter (· < size)).map (front.length + gap.length + ·) := by
  have rest : places externalLink (gap ++ body) = (places externalLink body).map (gap.length + ·) := by
    rw [places, placesFrom_avoided avoids, placesFrom_shift, Nat.zero_add]
  rw [filter_places (by decide), rest, List.map_map, List.filter_map]
  have moved : ((front.length + ·) ∘ (gap.length + ·) : Nat → Nat) = (front.length + gap.length + ·) :=
    funext fun place => (Nat.add_assoc _ _ _).symm
  rw [moved]
  refine congrArg (List.map _) (List.filter_congr fun place _ => ?_)
  simp

section
variable (before between body : Text)

def opening : Text := before ++ (frameworksMark ++ (between ++ ("<p" : Text)))

theorem opening_append (rest : Text) :
    opening before between ++ rest = before ++ (frameworksMark ++ (between ++ (("<p" : Text) ++ rest))) := by
  simp only [opening, List.append_assoc]

theorem length_opening :
    (opening before between).length = before.length + frameworksMark.length + between.length + 2 := by
  have tag : ("<p" : Text).length = 2 := by decide
  rw [opening, List.length_append, List.length_append, List.length_append, tag]
  omega

theorem drop_opening (rest : Text) :
    (opening before between ++ rest).drop (before.length + frameworksMark.length) =
      between ++ ("<p" : Text) ++ rest := by
  rw [opening_append, ← List.drop_drop, List.drop_left, List.drop_left, List.append_assoc]

/-- The links of the paragraph, by their places after its tag. There are none if the paragraph does not end, or if an
end of a paragraph comes before it. -/
def linksBefore : List Nat :=
  match index? "</p>" (between ++ ("<p" : Text)), index? "</p>" body with
  | none, some close => (places externalLink body).filter (· < close)
  | _, _ => []

theorem linksBefore_places :
    (linksBefore between body).Pairwise (· < ·) ∧ ∀ place ∈ linksBefore between body,
      StandsAt externalLink body place := by
  unfold linksBefore
  split
  · refine ⟨(places_ascending externalLink body).filter _, fun place member => ?_⟩
    exact (mem_places (by decide)).mp (List.mem_of_mem_filter member)
  · exact ⟨.nil, fun place member => absurd member List.not_mem_nil⟩

/-- A text after the paragraph's tag that has to do neither with links nor with ends of paragraphs moves the links. -/
theorem frameworkLinks_moved (gap : Text) (links : Avoids gap externalLink) (closing : Avoids gap "</p>") :
    frameworkLinks (opening before between ++ (gap ++ body)) (before.length + frameworksMark.length)
        (opening before between).length =
      (linksBefore between body).map ((opening before between).length + gap.length + ·) := by
  have size := length_opening before between
  have tag : (between ++ ("<p" : Text)).length = between.length + 2 := by
    rw [List.length_append]
    rfl
  rw [frameworkLinks, linksBefore, drop_opening]
  cases found : index? "</p>" (between ++ ("<p" : Text)) with
  -- the list is closed before it begins, so that no link is in it on either side
  | some close =>
    have bound := (index?_eq_some_iff.mp found).1.bound (by decide)
    have early : 0 < ("</p>" : Text).length := by decide
    rw [index?_append found (by decide)]
    refine List.filter_eq_nil_iff.mpr fun place _ inside => ?_
    simp only [Bool.and_eq_true, decide_eq_true_eq] at inside
    omega
  | none =>
    rw [index?_lead (opening_avoids_closing (index?_eq_none_iff.mp found)), index?_lead closing]
    cases index? "</p>" body with
    | none => rfl
    | some close =>
      have limit : before.length + frameworksMark.length + ((between ++ ("<p" : Text)).length + (gap.length + close)) =
          (opening before between).length + gap.length + close := by omega
      dsimp only [Option.map_some]
      rw [limit]
      exact filter_links _ links body close

end

theorem filter_eq_frameworkLinks {page : Text} {mark : Nat} (starts : frameworksMark <+: page.drop mark) (spot : Nat)
    (late : mark ≤ spot) :
    ((places externalLink page).filter fun (place : Nat) => decide ((spot : Int) ≤ place) &&
        decide ((place : Int) < index "</p>" (page.drop mark) + mark)) =
      frameworkLinks page (mark + frameworksMark.length) spot := by
  obtain ⟨rest, cut⟩ := starts
  have after : page.drop (mark + frameworksMark.length) = rest := by
    rw [← List.drop_drop, ← cut, List.drop_left]
  have unmarked : Avoids frameworksMark "</p>" := by decide
  have sought : index "</p>" (page.drop mark) = signed ((index? "</p>" rest).map (frameworksMark.length + ·)) := by
    rw [index, ← cut, index?_lead unmarked]
  rw [frameworkLinks, after, sought]
  cases index? "</p>" rest with
  | none =>
    refine List.filter_eq_nil_iff.mpr fun place _ inside => ?_
    have absent : signed (Option.map (frameworksMark.length + ·) none) = -1 := rfl
    simp only [absent, Bool.and_eq_true, decide_eq_true_eq] at inside
    omega
  | some close =>
    have found : signed (Option.map (frameworksMark.length + ·) (some close)) = (frameworksMark.length + close : Nat) :=
      rfl
    refine List.filter_congr fun place _ => ?_
    rw [Bool.eq_iff_iff, found]
    simp only [Bool.and_eq_true, decide_eq_true_eq]
    omega

/-- A text with the class of links put in after those at the given places. -/
def withLogos (text : Text) (links : List Nat) : Text :=
  patch text (links.map fun place => insertion logoClass (place + externalLink.length))

theorem makes_logo {text : Text} {stop : Nat} (inside : stop ≤ text.length) :
    Makes text insertLogo (insertion logoClass) id stop := by
  refine ⟨Nat.le_refl _, Nat.le_refl _, inside, fun {front place shift} _ _ => Prod.ext rfl ?_⟩
  have size : logoClass.length = 5 := by decide
  simp only [insertLogo, insertion, Edit.growth, size]
  omega

/-- Put in one after the other, the classes stand after the links, and what comes before the links stays. -/
theorem foldl_insertLogo (front text : Text) {links : List Nat} (ascending : links.Pairwise (· < ·))
    (stand : ∀ place ∈ links, StandsAt externalLink text place) :
    (((links.map (front.length + ·)).map (· + externalLink.length)).foldl insertLogo (front ++ text, 0)).1 =
      front ++ withLogos text links := by
  have makes : ∀ stop ∈ (links.map (front.length + ·)).map (· + externalLink.length),
      Makes (front ++ text) insertLogo (insertion logoClass) id stop := by
    simp only [List.forall_mem_map]
    intro place member
    have bound := (stand place member).bound (by decide)
    exact makes_logo (by rw [List.length_append]; omega)
  have ordered : ((links.map (front.length + ·)).map (· + externalLink.length)).Pairwise fun stop next =>
      (insertion logoClass stop).stop ≤ id next := by
    simp only [List.pairwise_map, insertion, id]
    exact ascending.imp fun {one other} before => by omega
  have reached : Reached (front ++ text) front front.length 0 := ⟨by simp, by simp⟩
  have series := foldl_patchFrom makes ordered reached (by simp only [List.forall_mem_map, id]; omega)
  have rest := patchFrom_lead front text logoClass externalLink.length 0 links
  rw [List.drop_left] at series
  rw [series, withLogos, patch, ← rest, List.map_map]
  rfl

section
variable (before between body : Text)

theorem markFrameworks_opening (first : index? frameworksMark (opening before between ++ body) = some before.length)
    (opened : index? "<p" (between ++ (("<p" : Text) ++ body)) = some between.length) :
    markFrameworks (opening before between ++ body) =
      opening before between ++ (frameworksClass ++ withLogos body (linksBefore between body)) := by
  have size := length_opening before between
  have starts : frameworksMark <+: (opening before between ++ (frameworksClass ++ body)).drop before.length := by
    rw [opening_append, List.drop_left]
    exact List.prefix_append _ _
  have unmarked : Avoids frameworksMark "<p" := by decide
  have paragraph : index "<p" ((opening before between ++ body).drop before.length) + before.length + 2 =
      (opening before between).length := by
    rw [index, opening_append, List.drop_left, index?_lead unmarked, opened, size]
    simp only [Option.map_some, signed]
    omega
  -- the class goes in first, so the links are looked for in a page that is longer by it
  have marked : insertAt (opening before between ++ body) (opening before between).length frameworksClass =
      opening before between ++ (frameworksClass ++ body) := by
    rw [insertAt, upTo_ofNat, since_ofNat, List.take_left, List.drop_left, List.append_assoc]
  have links := filter_eq_frameworkLinks starts (opening before between).length (by omega)
  rw [frameworkLinks_moved before between body frameworksClass (by decide) (by decide)] at links
  obtain ⟨ascending, stand⟩ := linksBefore_places between body
  have series := foldl_insertLogo (opening before between ++ frameworksClass) body ascending stand
  rw [List.length_append, List.append_assoc, List.append_assoc] at series
  unfold markFrameworks
  rw [first]
  dsimp only
  rw [paragraph, show (" class=supported_frameworks" : Text) = frameworksClass from rfl, marked, links]
  exact series

theorem patch_opening :
    patch (opening before between ++ body)
        (frameworkInsertions (opening before between ++ body) (before.length + frameworksMark.length) between.length) =
      opening before between ++ (frameworksClass ++ withLogos body (linksBefore between body)) := by
  have links := frameworkLinks_moved before between body [] (by decide) (by decide)
  have rest := patchFrom_lead (opening before between) body logoClass externalLink.length 0 (linksBefore between body)
  rw [List.nil_append, List.length_nil, Nat.add_zero] at links
  rw [frameworkInsertions, ← length_opening, links, patch, patchFrom, insertion, List.take_left, List.drop_zero,
    List.append_assoc]
  exact congrArg (fun rest => _ ++ (frameworksClass ++ rest)) rest

end

/-- The classes of the paragraph of frameworks and of its links are put in, and nothing else changes: taking them out
again gives the page back. -/
theorem markFrameworks_inserts {page : Text} {mark gap : Nat} (first : index? frameworksMark page = some mark)
    (opened : index? "<p" (page.drop (mark + frameworksMark.length)) = some gap) :
    Inserts page 0 (frameworkInsertions page (mark + frameworksMark.length) gap) ∧
      markFrameworks page = patch page (frameworkInsertions page (mark + frameworksMark.length) gap) ∧
      patch (markFrameworks page) (deletions 0 (frameworkInsertions page (mark + frameworksMark.length) gap)) =
        page := by
  obtain ⟨before, between, body, whole, rfl, rfl⟩ := page_parts first opened
  rw [← opening_append] at whole
  subst whole
  rw [drop_opening, List.append_assoc] at opened
  have inserts : Inserts (opening before between ++ body) 0
      (frameworkInsertions (opening before between ++ body) (before.length + frameworksMark.length)
        between.length) := by
    refine inserts_frameworks ?_
    rw [← length_opening, List.length_append]
    exact Nat.le_add_right _ _
  have result : markFrameworks (opening before between ++ body) = patch (opening before between ++ body)
      (frameworkInsertions (opening before between ++ body) (before.length + frameworksMark.length)
        between.length) := by
    rw [markFrameworks_opening before between body first opened, patch_opening]
  exact ⟨inserts, result, by rw [result, inserts.patch_deletions]⟩

def frameworksPage : Text :=
  "</p>" ++ frameworksMark ++ "<p><a reference external><a reference external></p><a reference external>"

theorem markFrameworks_inserts_sample :
    markFrameworks frameworksPage = "</p>" ++ frameworksMark ++ "<p class=supported_frameworks>" ++
        "<a reference external logo><a reference external logo></p><a reference external>" ∧
      patch (markFrameworks frameworksPage)
        (deletions 0 (frameworkInsertions frameworksPage (4 + frameworksMark.length) 0)) = frameworksPage := by
  have found : index? frameworksMark frameworksPage = some 4 ∧
      index? "<p" (frameworksPage.drop (4 + frameworksMark.length)) = some 0 ∧
      patch frameworksPage (frameworkInsertions frameworksPage (4 + frameworksMark.length) 0) =
        "</p>" ++ frameworksMark ++ "<p class=supported_frameworks>" ++
          "<a reference external logo><a reference external logo></p><a reference external>" := by
    decide +kernel
  obtain ⟨_, whole, back⟩ := markFrameworks_inserts found.1 found.2.1
  exact ⟨whole.trans found.2.2, back⟩

end ApiDocs.Html
