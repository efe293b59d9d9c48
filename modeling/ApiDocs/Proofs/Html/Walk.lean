import ApiDocs.Proofs.File.Directory
import ApiDocs.Proofs.File.Shape
import ApiDocs.Proofs.Html.Encodable
import Mathlib.Data.List.Nodup

/-! The walk over built pages. It goes through the pages below a directory one by one; each is corrected
from its own text as it was before, so the order of the pages does not matter. -/

set_option autoImplicit false

namespace ApiDocs.Html

open Script (textAt linesAt bytesAt runOn_bind andThen)

def relatedPath (site : Site) : Text := Path.join site.here "ivy_modules.txt"

/-- The text that the page at a path is corrected to, as the tree stands. -/
def correction (namespaces : Json) (site : Site) (tree : Tree) (path : Text) : Except Fault Text := do
  let page ← textAt site tree path
  let related ← linesAt site tree (relatedPath site)
  correct namespaces (related.map (Text.replace "\n" "")) path page

theorem runOn_readRelated (site : Site) (tree : Tree) :
    readRelated.runOn site tree =
      ((linesAt site tree (relatedPath site)).map (·.map (Text.replace "\n" "")), tree) := by
  simp only [readRelated, runOn_bind, Script.runOn_read, Script.andThen_ok, Script.runOn_readLines]
  rw [← relatedPath]
  cases linesAt site tree (relatedPath site) <;> rfl

theorem runOn_correctFile (namespaces : Json) (site : Site) (tree : Tree) (path : Text) :
    (correctFile namespaces path).runOn site tree =
      andThen (correction namespaces site tree path, tree) (Script.writeText path) site := by
  simp only [correctFile, runOn_bind, Script.runOn_readText, correction]
  cases textAt site tree path with
  | error fault => rfl
  | ok page =>
    rw [Script.andThen_ok, runOn_bind, runOn_readRelated]
    simp only [bind, Except.bind]
    cases linesAt site tree (relatedPath site) with
    | error fault => rfl
    | ok lines =>
      simp only [Except.map, Script.andThen_ok]
      cases correct namespaces (lines.map (Text.replace "\n" "")) path page with
      | error fault => rfl
      | ok text => rfl

theorem find_of_correction {namespaces : Json} {site : Site} {tree : Tree} {path text : Text}
    (corrected : correction namespaces site tree path = .ok text) :
    ∃ place bytes, site.find tree path = .ok (place, .file bytes) := by
  unfold correction textAt at corrected
  cases held : bytesAt site tree path with
  | error fault => rw [held] at corrected; cases corrected
  | ok bytes =>
    obtain ⟨place, found⟩ := (Script.bytesAt_eq_ok_iff site tree).mp held
    exact ⟨place, bytes, found⟩

/-- What the correction of one page can do. -/
theorem correctFile_cases (namespaces : Json) (site : Site) (tree : Tree) (path : Text) :
    (∃ fault, correction namespaces site tree path = .error fault ∧
      (correctFile namespaces path).runOn site tree = (.error fault, tree)) ∨
    ∃ text place bytes, correction namespaces site tree path = .ok text ∧
      site.find tree path = .ok (place, .file bytes) ∧
      (text.Plain ∧ (correctFile namespaces path).runOn site tree =
          (.ok (), tree.put place (.file (Utf8.bytesOf text))) ∨
        ¬text.Plain ∧ ∃ run, (correctFile namespaces path).runOn site tree =
          (.error (.unencodable run), tree.put place (.file []))) := by
  rw [runOn_correctFile]
  cases corrected : correction namespaces site tree path with
  | error fault => exact .inl ⟨fault, rfl, rfl⟩
  | ok text =>
    obtain ⟨place, bytes, found⟩ := find_of_correction corrected
    refine .inr ⟨text, place, bytes, rfl, found, ?_⟩
    rw [Script.andThen_ok]
    exact Script.runOn_writeText site tree (Script.writable_of_find found)

theorem sameShape_correctFile (namespaces : Json) (site : Site) (tree : Tree) (path : Text) :
    tree.SameShape ((correctFile namespaces path).runOn site tree).2 := by
  rcases correctFile_cases namespaces site tree path with
    ⟨fault, _, run⟩ | ⟨text, place, bytes, _, found, ⟨_, run⟩ | ⟨_, fault, run⟩⟩
  · rw [run]; exact .refl tree
  · rw [run]; exact Tree.sameShape_put (Site.find_eq_ok_iff.mp found).2 _
  · rw [run]; exact Tree.sameShape_put (Site.find_eq_ok_iff.mp found).2 _

/-- A correction looks at its own page and at the list of related libraries, and at no other file. -/
theorem correction_congr {namespaces : Json} {site : Site} {tree other : Tree} {path : Text}
    (same : tree.SameShape other)
    (page : ∀ place, site.locate tree path = .ok place → tree.get? place = other.get? place)
    (related : ∀ place, site.locate tree (relatedPath site) = .ok place → tree.get? place = other.get? place) :
    correction namespaces site tree path = correction namespaces site other path := by
  unfold correction textAt linesAt
  rw [Script.bytesAt_congr same page, Script.bytesAt_congr same related]

theorem plain_correction {namespaces : Json} (values : PlainValues namespaces) {site : Site} {tree : Tree}
    {path text : Text} (corrected : correction namespaces site tree path = .ok text)
    (named : ∀ page lines trimmed, textAt site tree path = .ok page → linesAt site tree (relatedPath site) = .ok lines →
      trimNamespaces namespaces (untrimmed (lines.map (Text.replace "\n" "")) page) = .ok trimmed →
      Text.mentions functionalFolder path = true → methods (dropUntitled trimmed) ≠ [] → (submoduleOf path).Plain) :
    text.Plain := by
  unfold correction at corrected
  cases read : textAt site tree path with
  | error fault => rw [read] at corrected; cases corrected
  | ok page =>
    cases listed : linesAt site tree (relatedPath site) with
    | error fault => rw [read, listed] at corrected; cases corrected
    | ok lines =>
      rw [read, listed] at corrected
      refine plain_correct values ?_ (fun trimmed => named page lines trimmed read listed)
        (Script.plain_textAt site tree read) corrected
      intro name member
      obtain ⟨line, inside, rfl⟩ := List.mem_map.mp member
      exact (Script.plain_linesAt site tree listed line inside).replace _ (Text.plain_ofChars _)

theorem isPage_iff {path : Text} : isPage path = true ↔ (".html" : Text) <:+ path := by
  rw [isPage, beq_iff_eq, Text.since]
  have length : (".html" : Text).length = 5 := rfl
  constructor
  · intro eq
    rw [← eq]
    exact List.drop_suffix _ _
  · rintro ⟨front, rfl⟩
    have place : Text.bound (front ++ (".html" : Text)).length (-5) = front.length := by
      rw [List.length_append, length, Text.bound, if_pos (by omega)]
      omega
    rw [place, List.drop_left]

theorem isPage_join (path : Text) {name : Text} (named : Path.Named name) :
    isPage (Path.join path name) = isPage name := by
  rw [Bool.eq_iff_iff, isPage_iff, isPage_iff]
  rcases Path.join_cases path named with ⟨_, eq⟩ | ⟨lead, eq, _⟩
  · rw [eq]
  · rw [eq]
    constructor
    · intro ends
      rcases List.suffix_or_suffix_of_suffix ends (List.suffix_append lead (.char '/' :: name)) with inner | outer
      · rcases List.suffix_cons_iff.mp inner with whole | inner
        · have first : (".html" : Text).head? = some (.char '/') := congrArg List.head? whole
          exact absurd first (by decide)
        · exact inner
      · have slash : .char '/' ∈ (".html" : Text) := outer.subset List.mem_cons_self
        exact absurd slash (by decide)
    · exact fun ends => ends.trans ((List.suffix_cons _ _).trans (List.suffix_append _ _))

/-- The pages at an entry of a directory, if these are the pages below it. A directory is entered if its
path is not too long; one that is named like a page counts as a page. -/
def pagesOf (tree : Tree) (path : Text) (place : Place) (name : Text) (below : List Place) : List Place :=
  if isPage name then [[name]]
  else if tree.get? (place ++ [name]) = some .directory ∧ Path.size (Path.join path name) ≤ Path.pathLimit then
    below.map (name :: ·)
  else []

/-- The pages below a directory, by their names from there, in the order in which the walk meets them. -/
def pagesBelow (site : Site) (tree : Tree) : Nat → Text → Place → List Place
  | 0, _, _ => []
  | depth + 1, path, place =>
    (site.arrange place (tree.names place)).flatMap fun name =>
      pagesOf tree path place name (pagesBelow site tree depth (Path.join path name) (place ++ [name]))

def visit (namespaces : Json) (depth : Nat) (path : Text) : Script Unit := do
  if isPage path then correctFile namespaces path
  else if ← Script.isDirectory path then correctUpTo namespaces depth path

theorem correctUpTo_succ (namespaces : Json) (depth : Nat) (path : Text) :
    correctUpTo namespaces (depth + 1) path =
      (do ((← Script.names path).map (Path.join path)).forM (visit namespaces depth)) := rfl

/-- The walk corrects one page after the other: listing and entering directories sees only the shape of
the tree, which no correction changes. -/
theorem runOn_correctUpTo (namespaces : Json) {site : Site} (placed : site.Sound) {tree : Tree}
    (sound : tree.Sound) {depth : Nat} {path : Text} {place : Place}
    (located : site.locate tree path = .ok place) (directory : tree.get? place = some .directory)
    (deep : ∀ other, (tree.get? other).isSome = true → other.length < place.length + depth) {now : Tree}
    (same : tree.SameShape now) :
    (correctUpTo namespaces depth path).runOn site now =
      ((pagesBelow site tree depth path place).forM fun names =>
        correctFile namespaces (Path.walked path names)).runOn site now := by
  induction depth generalizing path place now with
  | zero =>
    have impossible := deep place (by rw [directory]; rfl)
    omega
  | succ depth ih =>
    have here : ∀ {now : Tree}, tree.SameShape now → site.locate now path = .ok place :=
      fun same => (site.locate_shape same path).symm.trans located
    have still : ∀ {now : Tree}, tree.SameShape now → now.get? place = some .directory :=
      fun same => (same.directory place).mp directory
    rw [correctUpTo_succ, runOn_bind, Script.runOn_names (here same) (still same), Script.andThen_ok, pagesBelow,
      ← same.names place, Script.forM_map]
    -- the invariant of both loops is the shape of the tree
    refine Script.runOn_forM_flatMap site (tree.SameShape ·) ?_ ?_ same
    · intro now names same
      exact same.trans (sameShape_correctFile namespaces site now _)
    intro name member now same
    have present := Tree.mem_names.mp ((site.arrange_perm _ _).mem_iff.mp member)
    have named := sound.named place name present
    unfold visit pagesOf
    rw [isPage_join path named]
    split
    · exact (Script.runOn_forM_singleton site now _ _).symm
    rw [runOn_bind, Script.runOn_isDirectory_join placed named (here same) (still same), Script.andThen_ok]
    simp only [decide_eq_true_eq, ← same.directory]
    split
    · rename_i enter
      rw [Script.forM_map]
      refine ih (Site.locate_join placed named located directory enter.2) enter.1 ?_ same
      intro other some
      have bound := deep other some
      rw [List.length_append, List.length_singleton]
      omega
    · rfl

structure PageAt (tree : Tree) (place names : Place) : Prop where
  present : (tree.get? (place ++ names)).isSome = true
  ends : ∃ front name, names = front ++ [name] ∧ isPage name = true

variable {site : Site} {tree : Tree}

theorem of_mem_pagesBelow (placed : site.Sound) (sound : tree.Sound) {depth : Nat} {path : Text} {place : Place}
    (located : site.locate tree path = .ok place) (directory : tree.get? place = some .directory) {names : Place}
    (member : names ∈ pagesBelow site tree depth path place) :
    PageAt tree place names ∧
      ∀ other, site.locate tree (Path.walked path names) = .ok other → other = place ++ names := by
  induction depth generalizing path place names with
  | zero => cases member
  | succ depth ih =>
    obtain ⟨name, listed, inside⟩ := List.mem_flatMap.mp member
    have present := Tree.mem_names.mp ((site.arrange_perm _ _).mem_iff.mp listed)
    have named := sound.named place name present
    unfold pagesOf at inside
    split at inside
    · rename_i page
      obtain rfl := List.mem_singleton.mp inside
      refine ⟨⟨present, [], name, rfl, page⟩, fun other further => ?_⟩
      -- the path is known to be short enough only from where it leads
      have short : Path.size (Path.join path name) ≤ Path.pathLimit := by
        obtain ⟨known, _, _, accepted, _⟩ := Site.locate_eq_ok_iff.mp further
        exact Path.size_le_of_accept accepted
      exact Except.ok.inj (further.symm.trans (Site.locate_join placed named located directory short))
    · split at inside
      · rename_i enter
        obtain ⟨rest, deeper, rfl⟩ := List.mem_map.mp inside
        obtain ⟨⟨there, front, last, rfl, page⟩, leads⟩ :=
          ih (Site.locate_join placed named located directory enter.2) enter.1 deeper
        refine ⟨⟨?_, name :: front, last, rfl, page⟩, fun other further => ?_⟩
        · simpa using there
        · simpa using leads other further
      · cases inside

theorem nodup_pagesBelow (site : Site) (tree : Tree) (depth : Nat) (path : Text) (place : Place) :
    (pagesBelow site tree depth path place).Nodup := by
  induction depth generalizing path place with
  | zero => exact List.nodup_nil
  | succ depth ih =>
    have first : ∀ {name : Text} {below : List Place} {names : Place},
        names ∈ pagesOf tree path place name below → names.head? = some name := by
      intro name below names member
      unfold pagesOf at member
      split at member
      · rw [List.mem_singleton.mp member]; rfl
      · split at member
        · obtain ⟨rest, _, rfl⟩ := List.mem_map.mp member
          rfl
        · cases member
    refine List.nodup_flatMap.mpr ⟨fun name _ => ?_, ?_⟩
    · unfold pagesOf
      split
      · exact List.nodup_singleton _
      · split
        · exact (ih _ _).map (List.cons_injective)
        · exact List.nodup_nil
    · -- pages below different entries differ in their first name
      have listed := ((site.arrange_perm place (tree.names place)).nodup_iff).mpr (tree.names_nodup place)
      refine listed.imp fun differ => ?_
      intro names one two
      exact differ (Option.some.inj ((first one).symm.trans (first two)))

theorem mem_pagesBelow_congr (site other : Site) (tree : Tree) (depth : Nat) (path : Text) (place names : Place) :
    names ∈ pagesBelow site tree depth path place ↔ names ∈ pagesBelow other tree depth path place := by
  induction depth generalizing path place names with
  | zero => exact .rfl
  | succ depth ih =>
    have entry : ∀ name, names ∈ pagesOf tree path place name
          (pagesBelow site tree depth (Path.join path name) (place ++ [name])) ↔
        names ∈ pagesOf tree path place name
          (pagesBelow other tree depth (Path.join path name) (place ++ [name])) := by
      intro name
      unfold pagesOf
      split
      · exact .rfl
      · split
        · simp only [List.mem_map, ih]
        · exact .rfl
    simp only [pagesBelow, List.mem_flatMap, (site.arrange_perm _ _).mem_iff, (other.arrange_perm _ _).mem_iff, entry]

/-- The walk meets every page below the directory, or a directory named like a page on the way to it,
unless the path gets too long before. -/
theorem exists_mem_pagesBelow (sound : tree.Sound) {depth : Nat} {path : Text} {place : Place}
    (deep : ∀ other, (tree.get? other).isSome = true → other.length < place.length + depth) {front : Place}
    {name : Text} (present : (tree.get? (place ++ (front ++ [name]))).isSome = true) (page : isPage name = true)
    (short : Path.size (Path.walked path front) ≤ Path.pathLimit) :
    ∃ names ∈ pagesBelow site tree depth path place, names <+: front ++ [name] := by
  induction depth generalizing path place front with
  | zero =>
    have bound := deep _ present
    rw [List.length_append, List.length_append, List.length_singleton] at bound
    omega
  | succ depth ih =>
    -- the first name on the way is listed, be it that of the page or of a directory above it
    have entry : ∀ {first : Text} {rest : Place}, front ++ [name] = first :: rest →
        first ∈ site.arrange place (tree.names place) := by
      intro first rest eq
      refine (site.arrange_perm _ _).mem_iff.mpr (Tree.mem_names.mpr ?_)
      by_cases last : rest = []
      · rwa [eq, last] at present
      · rw [eq, ← List.singleton_append, ← List.append_assoc] at present
        rw [sound.above last present]
        rfl
    cases front with
    | nil => exact ⟨[name], List.mem_flatMap.mpr ⟨name, entry rfl, by simp [pagesOf, page]⟩, List.prefix_rfl⟩
    | cons first front =>
      have listed := entry rfl
      have directory : tree.get? (place ++ [first]) = some .directory := by
        refine sound.above (List.concat_ne_nil name front) ?_
        simpa using present
      -- a directory may itself be named like a page, and the walk does not enter it then
      by_cases early : isPage first = true
      · refine ⟨[first], List.mem_flatMap.mpr ⟨first, listed, by simp [pagesOf, early]⟩, ?_⟩
        exact List.cons_prefix_cons.mpr ⟨rfl, List.nil_prefix⟩
      · have within : Path.size (Path.join path first) ≤ Path.pathLimit := by
          have names := sound.named_of_mem present
          refine Nat.le_trans (Path.size_le_walked _ fun other member => names other ?_) short
          exact List.mem_append_left _ (List.mem_cons_of_mem _ member)
        have below : ∀ other, (tree.get? other).isSome = true → other.length < (place ++ [first]).length + depth := by
          intro other there
          have bound := deep other there
          rw [List.length_append, List.length_singleton]
          omega
        obtain ⟨names, member, begins⟩ : ∃ names ∈ pagesBelow site tree depth (Path.join path first) (place ++ [first]),
            names <+: front ++ [name] := ih below (by simpa using present) short
        refine ⟨first :: names, List.mem_flatMap.mpr ⟨first, listed, ?_⟩, List.cons_prefix_cons.mpr ⟨rfl, begins⟩⟩
        simp only [pagesOf, early, Bool.false_eq_true, if_false, directory, within, and_self, if_true]
        exact List.mem_map.mpr ⟨names, member, rfl⟩

theorem named_related : Path.Named ("ivy_modules.txt" : Text) :=
  Path.named_of_plain (Text.plain_ofChars _) (by decide) (by decide) (by decide) (by decide) (by decide) (by decide)

/-- What stands in the place of a page that has been corrected: its whole new text, or nothing, when the
text cannot be written. -/
def Replaced (namespaces : Json) (site : Site) (tree : Tree) (path : Text) (outcome : Except Fault Unit)
    (entry : Option Entry) : Prop :=
  ∃ text, correction namespaces site tree path = .ok text ∧
    (text.Plain ∧ entry = some (.file (Utf8.bytesOf text)) ∨
      ¬text.Plain ∧ entry = some (.file []) ∧ ∃ run, outcome = .error (.unencodable run))

theorem related_apart {place names : Place} (page : PageAt tree place names) :
    site.locate tree (relatedPath site) ≠ .ok (place ++ names) := by
  intro located
  obtain ⟨front, name, rfl, html⟩ := page.ends
  rcases Site.locate_join_last named_related located with empty | ⟨before, eq⟩
  · simp at empty
  · rw [← List.append_assoc] at eq
    obtain ⟨_, last⟩ := List.append_inj' eq rfl
    obtain rfl := (List.cons.inj last).1
    exact absurd html (by decide)

/-- A tree in the middle of a walk: the pages that are still to come, and the list of related libraries, are as before
it. -/
structure Awaits (site : Site) (tree : Tree) (place : Place) (pages : List Place) (now : Tree) : Prop where
  same : tree.SameShape now
  fresh : ∀ names ∈ pages, tree.get? (place ++ names) = now.get? (place ++ names)
  list : ∀ other, site.locate tree (relatedPath site) = .ok other → tree.get? other = now.get? other

theorem Awaits.correctFile_cases (namespaces : Json) {path : Text} {place names : Place} {pages : List Place}
    {now : Tree} (awaits : Awaits site tree place (names :: pages) now)
    (leads : ∀ other, site.locate tree path = .ok other → other = place ++ names) :
    (∃ fault, correction namespaces site tree path = .error fault ∧
      (correctFile namespaces path).runOn site now = (.error fault, now)) ∨
    ∃ text bytes, correction namespaces site tree path = .ok text ∧ now.get? (place ++ names) = some (.file bytes) ∧
      (text.Plain ∧ (correctFile namespaces path).runOn site now =
          (.ok (), now.put (place ++ names) (.file (Utf8.bytesOf text))) ∨
        ¬text.Plain ∧ ∃ run, (correctFile namespaces path).runOn site now =
          (.error (.unencodable run), now.put (place ++ names) (.file []))) := by
  have unchanged : correction namespaces site now path = correction namespaces site tree path := by
    refine (correction_congr awaits.same (fun other located => ?_) awaits.list).symm
    rw [leads other located]
    exact awaits.fresh names List.mem_cons_self
  rcases Html.correctFile_cases namespaces site now path with
    ⟨fault, failed, stop⟩ | ⟨text, other, bytes, corrected, found, run⟩
  · exact .inl ⟨fault, unchanged ▸ failed, stop⟩
  · obtain ⟨located, held⟩ := Site.find_eq_ok_iff.mp found
    obtain rfl := leads other ((site.locate_shape awaits.same _).trans located)
    exact .inr ⟨text, bytes, unchanged ▸ corrected, held, run⟩

theorem Awaits.next {place names : Place} {pages : List Place} {now : Tree} {bytes : Bytes}
    (awaits : Awaits site tree place (names :: pages) now) (apart : names ∉ pages) (page : PageAt tree place names)
    (held : now.get? (place ++ names) = some (.file bytes)) (text : Bytes) :
    Awaits site tree place pages (now.put (place ++ names) (.file text)) where
  same := awaits.same.trans (Tree.sameShape_put held _)
  fresh := by
    intro other member
    rw [Tree.get?_put_apart]
    · exact awaits.fresh other (List.mem_cons_of_mem _ member)
    · intro eq
      rw [List.append_cancel_left eq] at apart
      exact apart member
  list := by
    intro other located
    rw [Tree.get?_put_apart]
    · exact awaits.list other located
    · rintro rfl
      exact related_apart page located

theorem runOn_pages (namespaces : Json) {path : Text} {place : Place} {pages : List Place} (distinct : pages.Nodup)
    (proper : ∀ names ∈ pages, PageAt tree place names ∧
      ∀ other, site.locate tree (Path.walked path names) = .ok other → other = place ++ names)
    {now : Tree} (awaits : Awaits site tree place pages now) {outcome : Except Fault Unit} {after : Tree}
    (run : (pages.forM fun names => correctFile namespaces (Path.walked path names)).runOn site now =
      (outcome, after)) :
    (∀ other, after.get? other = now.get? other ∨ ∃ names ∈ pages, other = place ++ names ∧
      Replaced namespaces site tree (Path.walked path names) outcome (after.get? other)) ∧
    (outcome = .ok () ↔ ∀ names ∈ pages, ∃ text,
      correction namespaces site tree (Path.walked path names) = .ok text ∧ text.Plain) ∧
    (outcome = .ok () → ∀ names ∈ pages,
      Replaced namespaces site tree (Path.walked path names) outcome (after.get? (place ++ names))) := by
  induction pages generalizing now with
  | nil =>
    cases run
    simp
  | cons names pages ih =>
    obtain ⟨page, leads⟩ := proper names List.mem_cons_self
    obtain ⟨apart, distinct⟩ := List.nodup_cons.mp distinct
    rw [Script.runOn_forM_cons] at run
    rcases awaits.correctFile_cases namespaces leads with
      ⟨fault, failed, stop⟩ | ⟨text, bytes, corrected, held, ⟨plain, go⟩ | ⟨bad, fault, stop⟩⟩
    · -- the page cannot be corrected, and the walk ends before anything is written
      rw [stop] at run
      cases run
      refine ⟨fun other => .inl rfl, ⟨fun impossible => (by cases impossible), fun all => ?_⟩,
        fun impossible => (by cases impossible)⟩
      obtain ⟨text, corrected, _⟩ := all names List.mem_cons_self
      rw [failed] at corrected
      cases corrected
    · rw [go, Script.andThen_ok] at run
      obtain ⟨frame, success, replaced⟩ :=
        ih distinct (fun other member => proper other (List.mem_cons_of_mem _ member))
        (awaits.next apart page held _) run
      refine ⟨fun other => ?_, ?_, fun done other member => ?_⟩
      · rcases frame other with kept | ⟨others, member, eq, there⟩
        · by_cases own : place ++ names = other
          · refine .inr ⟨names, List.mem_cons_self, own.symm, text, corrected, .inl ⟨plain, ?_⟩⟩
            rw [kept, ← own, Tree.get?_put_file _ held]
          · rw [Tree.get?_put_apart _ _ own] at kept
            exact .inl kept
        · exact .inr ⟨others, List.mem_cons_of_mem _ member, eq, there⟩
      · rw [success, List.forall_mem_cons]
        exact ⟨fun rest => ⟨⟨text, corrected, plain⟩, rest⟩, fun all => all.2⟩
      · rcases List.mem_cons.mp member with rfl | member
        · -- no later page lies in the place of this one
          refine ⟨text, corrected, .inl ⟨plain, ?_⟩⟩
          rcases frame (place ++ other) with kept | ⟨others, inside, eq, _⟩
          · rw [kept, Tree.get?_put_file _ held]
          · rw [List.append_cancel_left eq] at apart
            exact absurd inside apart
        · exact replaced done other member
    · -- the page has been emptied for a text that cannot be written
      rw [stop] at run
      cases run
      refine ⟨fun other => ?_, ⟨fun impossible => (by cases impossible), fun all => ?_⟩,
        fun impossible => (by cases impossible)⟩
      · by_cases own : place ++ names = other
        · refine .inr ⟨names, List.mem_cons_self, own.symm, text, corrected, .inr ⟨bad, ?_, fault, rfl⟩⟩
          rw [← own, Tree.get?_put_file _ held]
        · exact .inl (Tree.get?_put_apart _ _ own)
      · obtain ⟨other, again, plain⟩ := all names List.mem_cons_self
        rw [corrected] at again
        cases again
        exact absurd plain bad

end ApiDocs.Html
