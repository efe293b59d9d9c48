import ApiDocs.Proofs.Build.Configure
import ApiDocs.Proofs.Pages.Visit
import ApiDocs.Proofs.Text.Order

/-! The order of a directory's pages. Orders are kept under their names in ascending order, so the order that is found
for a directory has just the names of the directory; it is looked for under the directories followed by the modules, so
it is found if these ascend. -/

set_option autoImplicit false

namespace ApiDocs

namespace Table
variable {κ α : Type} [DecidableEq κ]

theorem ofList_snoc (entries : List (κ × α)) (entry : κ × α) :
    ofList (entries ++ [entry]) = put entry.1 entry.2 (ofList entries) := List.foldl_append

theorem holds_of_get?_ofList (holds : κ → α → Prop) {entries : List (κ × α)}
    (each : ∀ entry ∈ entries, holds entry.1 entry.2) {key : κ} {value : α}
    (found : get? key (ofList entries) = some value) : holds key value := by
  induction entries using List.reverseRecOn with
  | nil => cases found
  | append_singleton entries entry ih =>
    rw [ofList_snoc, get?_put] at found
    split at found
    · rename_i same
      cases found
      exact same ▸ each entry (by simp)
    · exact ih (fun other member => each other (List.mem_append_left _ member)) found

theorem isSome_get?_ofList {entries : List (κ × α)} {key : κ} (member : key ∈ entries.map Prod.fst) :
    (get? key (ofList entries)).isSome = true := by
  induction entries using List.reverseRecOn with
  | nil => exact absurd member List.not_mem_nil
  | append_singleton entries entry ih =>
    rw [ofList_snoc, get?_put]
    split
    · rfl
    · rename_i differs
      rw [List.map_append, List.mem_append] at member
      exact ih (member.resolve_right fun last => differs (List.mem_singleton.mp last).symm)

theorem get?_ofList_last (earlier : List (κ × α)) (key : κ) (value : α) {later : List (κ × α)}
    (last : ∀ entry ∈ later, entry.1 ≠ key) :
    get? key (ofList (earlier ++ (key, value) :: later)) = some value := by
  induction later using List.reverseRecOn with
  | nil => rw [ofList_snoc, get?_put, if_pos rfl]
  | append_singleton later entry ih =>
    rw [← List.cons_append, ← List.append_assoc, ofList_snoc, get?_put, if_neg (last entry (by simp))]
    exact ih fun other member => last other (List.mem_append_left _ member)

end Table

namespace Build
open Script Text

/-- Every order stands under its names in ascending order. -/
def Keyed (orders : Table (List Text) (List Text)) : Prop :=
  ∀ key order, orders.get? key = some order → key = sort order

theorem keyed_ordersOf (lines : List Text) : Keyed (ordersOf lines) := by
  intro key order found
  refine Table.holds_of_get?_ofList (fun key order => key = sort order) (fun entry member => ?_) found
  obtain ⟨order, _, rfl⟩ := List.mem_map.mp member
  rfl

variable {site : Site}

theorem runOn_settingLines_ok {name : Text} {settings : Settings} {tree : Tree} {found : Option (List Text)}
    {final : Session} (run : (settingLines? name).runOn site ⟨settings, tree⟩ = (.ok found, final)) :
    final = ⟨settings, tree⟩ ∧ found = (linesAt site tree (Path.join settings.here name)).toOption.map List.tail := by
  unfold settingLines? at run
  rw [runOn_withSettings] at run
  dsimp only at run
  rw [Script.runOn_bind, runOn_present, andThen_ok] at run
  cases there : (site.find tree (Path.join settings.here name)).toOption.isSome with
  | false =>
    rw [there] at run
    cases run
    -- what is not there cannot be read
    refine ⟨rfl, ?_⟩
    cases read : linesAt site tree (Path.join settings.here name) with
    | error fault => rfl
    | ok lines =>
      obtain ⟨place, bytes, _, found, _⟩ := (linesAt_eq_ok_iff site tree).mp read
      rw [found] at there
      cases there
  | true =>
    rw [there, if_pos rfl, Script.runOn_bind, runOn_readLines] at run
    cases read : linesAt site tree (Path.join settings.here name) with
    | error fault =>
      rw [read] at run
      cases run
    | ok lines =>
      rw [read] at run
      cases run
      exact ⟨rfl, rfl⟩

theorem readSettings_orders {settings : Settings} {tree : Tree} {final : Session}
    (run : readSettings.runOn site ⟨settings, tree⟩ = (.ok (), final)) :
    final.settings.orders = (((linesAt site tree (Path.join settings.here "submod_orders.txt")).toOption.map
      List.tail).map ordersOf).getD
      settings.orders := by
  unfold readSettings at run
  -- what is left out and what is stepped over does not bear on the orders
  obtain ⟨skipped, between, read, run⟩ := runOn_bind_ok run
  obtain ⟨rfl, _⟩ := runOn_settingLines_ok read
  cases skipped
  case' some lines => obtain ⟨_, _, changed, run⟩ := runOn_bind_ok run; cases changed
  all_goals
    obtain ⟨stepped, between, read, run⟩ := runOn_bind_ok run
    obtain ⟨rfl, _⟩ := runOn_settingLines_ok read
    cases stepped
    case' some lines => obtain ⟨_, _, changed, run⟩ := runOn_bind_ok run; cases changed
    all_goals
      obtain ⟨ordered, between, read, run⟩ := runOn_bind_ok run
      obtain ⟨rfl, found⟩ := runOn_settingLines_ok read
      have found : ordered = (linesAt site tree (Path.join settings.here "submod_orders.txt")).toOption.map List.tail :=
        found
      rw [← found]
      cases ordered <;>
      · cases run
        rfl

theorem configure_orders {library : Text} {heading : Heading} {initial : Settings} {tree : Tree} {final : Session}
    (run : (configure library heading).runOn site ⟨initial, tree⟩ = (.ok (), final)) :
    final.settings.orders = (((linesAt site tree (Path.join site.here "submod_orders.txt")).toOption.map List.tail).map
      ordersOf).getD
      initial.orders := by
  rw [runOn_configure] at run
  obtain ⟨_, between, read, run⟩ := runOn_bind_ok run
  have orders := readSettings_orders read
  split at run
  · cases run
    exact orders
  · cases run
    exact orders

theorem keyed_configure {library : Text} {heading : Heading} {initial : Settings} (keyed : Keyed initial.orders)
    {tree : Tree} {final : Session} (run : (configure library heading).runOn site ⟨initial, tree⟩ = (.ok (), final)) :
    Keyed final.settings.orders := by
  rw [configure_orders run]
  cases (linesAt site tree (Path.join site.here "submod_orders.txt")).toOption with
  | none => exact keyed
  | some lines => exact keyed_ordersOf lines.tail

end Build

namespace Pages
open Script Text ApiDocs.Module

def listedNames (directories modules : List Text) : List Text :=
  directories.map Path.base ++ modules.map fun path => upTo (Path.base path) (-3)

section
variable {settings : Settings} {directories modules : List Text}
  (free : ∀ name ∈ listedNames directories modules, ¬(".rst" : Text) <:+: name)
include free

/-- A directory's page lists the order that is set for its names, or else these names. -/
theorem directoryPages_eq :
    directoryPages settings directories modules =
      ((settings.orders.get? (listedNames directories modules)).getD (listedNames directories modules)).map
        (· ++ (".rst" : Text)) := by
  have pages : directories.map (fun path => Path.base path ++ (".rst" : Text)) ++
      modules.map (fun path => upTo (Path.base path) (-3) ++ (".rst" : Text)) =
        (listedNames directories modules).map (· ++ (".rst" : Text)) := by
    rw [listedNames, List.map_append, List.map_map, List.map_map]
    rfl
  have names : ((listedNames directories modules).map (· ++ (".rst" : Text))).map (replace ".rst" "") =
      listedNames directories modules := by
    rw [List.map_map]
    refine (List.map_congr_left fun name member => ?_).trans (List.map_id _)
    have replaced := (replace_absent (by decide) (free name member) "").2
    rwa [show (ofChars "".toList : Text) = [] from rfl, List.append_nil] at replaced
  simp only [directoryPages, pages, names]
  cases settings.orders.get? (listedNames directories modules) <;> rfl

theorem directoryPages_perm (keyed : Build.Keyed settings.orders) :
    (directoryPages settings directories modules).Perm
      ((listedNames directories modules).map (· ++ (".rst" : Text))) := by
  rw [directoryPages_eq free]
  refine List.Perm.map _ ?_
  cases found : settings.orders.get? (listedNames directories modules) with
  | none => exact .refl _
  | some order =>
    rw [keyed _ _ found]
    exact (sort_perm order).symm

end

def saveNames (settings : Settings) (directory : Text) : List Text :=
  split "/" (Path.join folder ((locate settings directory).relative directory))

def saveName (settings : Settings) (directory : Text) : Text := (saveNames settings directory).getLastD []

def savePage (settings : Settings) (directory : Text) : Text :=
  Path.join (join "/" (saveNames settings directory).dropLast) (saveName settings directory ++ ".rst")

def HasReadme (site : Site) (tree : Tree) (directory : Text) : Prop :=
  ∃ place, site.locate tree directory = .ok place ∧ (tree.get? (place ++ [("README.rst" : Text)])).isSome = true

/-- A directory that gets a page: it has a readme or is stepped over. -/
def HasPage (site : Site) (settings : Settings) (tree : Tree) (directory : Text) : Prop :=
  HasReadme site tree directory ∨ directory ∈ settings.stepped.map (Path.join settings.library)

/-- What stands first on a page is the text of a directory's readme, which is still there unless it is that page. -/
def Copied (site : Site) (tree : Tree) (directory : Text) (place : Place) (front : Bytes) : Prop :=
  ∃ readme, front = Utf8.bytesOf readme ∧ (site.locate tree (Path.join directory "README.rst") ≠ .ok place →
    textAt site tree (Path.join directory "README.rst") = .ok readme)

/-- What comes after a directory's page: nothing, or for the library the index. -/
def Ending (site : Site) (settings : Settings) (directory : Text) (closed after : Tree) : Prop :=
  directory ≠ settings.library ∧ after = closed ∨
    directory = settings.library ∧ ∃ folders, (writeIndex settings folders).runOn site closed = (.ok (), after)

/-- The directories and modules of a directory, as its visit finds them when the folder for its page is there. -/
def Found (site : Site) (settings : Settings) (tree : Tree) (directory : Text) (directories modules : List Text) :
    Prop :=
  ∃ place made, site.locate tree directory = .ok place ∧
    (makeDirectories (Path.directory (Path.join folder ((locate settings directory).relative directory))) true).runOn
      site tree = (.ok (), made) ∧
    directories = innerDirectories site made (entryPaths site tree directory place) ∧
    modules = (entryPaths site tree directory place).filter isModule

theorem copied_of_read {site : Site} {tree after : Tree} {directory readme : Text} {place : Place}
    (keeps : tree.KeepsDirectories after) (same : ∀ other, place ≠ other → after.get? other = tree.get? other)
    (read : textAt site tree (Path.join directory "README.rst") = .ok readme) :
    Copied site after directory place (Utf8.bytesOf readme) := by
  refine ⟨readme, rfl, fun elsewhere => ?_⟩
  obtain ⟨other, bytes, whole, found, decoded, rfl⟩ := (textAt_eq_ok_iff site tree).mp read
  obtain ⟨located, held⟩ := Site.find_eq_ok_iff.mp found
  have still := Site.locate_keeps keeps located
  have kept := (same other fun eq => elsewhere (eq ▸ still)).trans held
  exact (textAt_eq_ok_iff site after).mpr ⟨other, bytes, whole, Site.find_eq_ok_iff.mpr ⟨still, kept⟩, decoded, rfl⟩

theorem runOn_writeDirectory_listed {site : Site} {settings : Settings} {directory : Text}
    {contents directories modules : List Text} {tree after : Tree} (due : (contents.contains "README.rst" ||
      (settings.stepped.map (Path.join settings.library)).contains directory) = true)
    (run : (writeDirectory settings directory (Path.join folder ((locate settings directory).relative directory))
      contents directories modules).runOn site tree = (.ok (), after)) :
    ∃ front place, site.find after (savePage settings directory) = .ok (place, .file (front ++
        Utf8.bytesOf (Toctree.render none
          [(saveName settings directory, directoryPages settings directories modules)]))) ∧
      (contents.contains "README.rst" = true → Copied site after directory place front) := by
  unfold writeDirectory at run
  rw [if_pos due] at run
  by_cases readme : contents.contains "README.rst" = true
  · rw [if_pos readme] at run
    obtain ⟨_, copied, copy, append⟩ := runOn_bind_ok run
    obtain ⟨text, read, write⟩ := runOn_bind_look (runOn_readText site tree _) copy
    obtain ⟨_, place, _, writable, rfl⟩ := runOn_writeText_ok site tree write
    obtain ⟨_, other, bytes, again, rfl⟩ := runOn_appendText_ok site _ append
    cases again.symm.trans (writable_put writable _)
    refine ⟨_, place, find_put_writable again _, fun _ => copied_of_read ?_ (fun other apart => ?_) read⟩
    · exact (Tree.keepsDirectories_put _ (not_directory_of_writable writable)).trans
        (Tree.keepsDirectories_put _ (not_directory_of_writable again))
    · rw [Tree.get?_put_apart _ _ apart, Tree.get?_put_apart _ _ apart]
  · rw [if_neg readme] at run
    obtain ⟨_, place, bytes, writable, rfl⟩ := runOn_appendText_ok site tree run
    exact ⟨bytes, place, find_put_writable writable _, fun held => absurd held readme⟩

/-- The visit of a directory that gets a page ends with the table of its directories and modules on that page. -/
theorem runOn_writeUpTo_listed {site : Site} {settings : Settings} {depth : Nat} {directory : Text} {tree after : Tree}
    {directories modules : List Text} (paged : HasPage site settings tree directory)
    (run : (writeUpTo settings depth directory).runOn site tree = (.ok (directories, modules), after)) :
    Found site settings tree directory directories modules ∧ ∃ front place closed,
      site.find closed (savePage settings directory) = .ok (place, .file (front ++
        Utf8.bytesOf (Toctree.render none
          [(saveName settings directory, directoryPages settings directories modules)]))) ∧
      (HasReadme site tree directory → Copied site closed directory place front) ∧
      Ending site settings directory closed after := by
  cases depth with
  | zero => cases run
  | succ depth =>
    obtain ⟨place, made, folders, lower, filled, closed, located, held, making, found, _, _, _, closing, ending⟩ :=
      runOn_writeUpTo_steps run
    obtain ⟨first, second⟩ := Prod.mk.inj found
    refine ⟨⟨place, made, located, making, first, second⟩, ?_⟩
    have readme : HasReadme site tree directory →
        (sort (site.arrange place (tree.names place))).contains "README.rst" = true := by
      rintro ⟨other, there, readme⟩
      cases there.symm.trans located
      rwa [List.contains_iff_mem, (sort_perm _).mem_iff, (site.arrange_perm _ _).mem_iff, Tree.mem_names]
    have due : ((sort (site.arrange place (tree.names place))).contains "README.rst" ||
        (settings.stepped.map (Path.join settings.library)).contains directory) = true := by
      rw [Bool.or_eq_true, List.contains_iff_mem (a := directory)]
      exact paged.imp_left readme
    obtain ⟨front, spot, page, copied⟩ := runOn_writeDirectory_listed due closing
    exact ⟨front, spot, closed, page, fun there => copied (readme there),
      ending.imp_right fun ⟨library, index⟩ => ⟨library, _, index⟩⟩

/-- Whatever orders are read, the page of a directory that gets one ends with a table of the directories and modules in
it, each as often as without an order. -/
theorem orders_lose_nothing {site : Site} {library : Text} {heading : Heading} {initial : Settings}
    (keyed : Build.Keyed initial.orders) {before : Tree} {session : Session}
    (configured : (Build.configure library heading).runOn site ⟨initial, before⟩ = (.ok (), session))
    {depth : Nat} {directory : Text} {tree after : Tree} {directories modules : List Text}
    (paged : HasPage site session.settings tree directory)
    (free : ∀ name ∈ listedNames directories modules, ¬(".rst" : Text) <:+: name)
    (run : (writeUpTo session.settings depth directory).runOn site tree = (.ok (directories, modules), after)) :
    Found site session.settings tree directory directories modules ∧ ∃ pages front place closed,
      pages.Perm ((listedNames directories modules).map (· ++ (".rst" : Text))) ∧
      site.find closed (savePage session.settings directory) = .ok (place, .file (front ++
        Utf8.bytesOf (Toctree.render none [(saveName session.settings directory, pages)]))) ∧
      (HasReadme site tree directory → Copied site closed directory place front) ∧
      Ending site session.settings directory closed after := by
  obtain ⟨found, front, place, closed, page, copied, ending⟩ := runOn_writeUpTo_listed paged run
  exact ⟨found, _, front, place, closed, directoryPages_perm free (Build.keyed_configure keyed configured), page,
    copied, ending⟩

def orderedSite : Site := .ascending "/workspace" ["docs"]

def orderedTree : Tree := ⟨[(["docs"], .directory),
    (["docs", "submod_orders.txt"], .file (Utf8.bytesOf "Orders\n[a, b]\n")),
  (["lib"], .directory), (["lib", "p"], .directory), (["lib", "p", "README.rst"], .file (Utf8.bytesOf "P\n")),
  (["lib", "p", "a.py"], .file []), (["lib", "p", "b"], .directory), (["lib", "p", "b", "c.py"], .file [])]⟩

def orderedSettings : Settings :=
  { here := "/workspace/docs", library := "../lib", heading := .byDirectory, orders := [(["a", "b"], ["a", "b"])] }

def orderedAfter : Tree := ((writeUpTo orderedSettings 2 "../lib/p").runOn orderedSite orderedTree).2

theorem runOn_configure_ordered :
    (Build.configure "../lib" .byDirectory).runOn orderedSite ⟨{}, orderedTree⟩ =
      (.ok (), ⟨orderedSettings, orderedTree⟩) := by
  decide +kernel

theorem evaluated_ordered :
    ((writeUpTo orderedSettings 2 "../lib/p").runOn orderedSite orderedTree).1 =
      .ok (["../lib/p/b"], ["../lib/p/a.py"]) ∧
      orderedSite.locate orderedAfter "autogenerated_source/p.rst" = .ok ["docs", "autogenerated_source", "p.rst"] ∧
      orderedSite.locate orderedAfter "../lib/p/README.rst" = .ok ["lib", "p", "README.rst"] ∧
      textAt orderedSite orderedAfter "../lib/p/README.rst" = .ok "P\n" := by
  decide +kernel

theorem runOn_writeUpTo_ordered :
    (writeUpTo orderedSettings 2 "../lib/p").runOn orderedSite orderedTree =
      (.ok (["../lib/p/b"], ["../lib/p/a.py"]), orderedAfter) := by
  rw [orderedAfter, ← evaluated_ordered.1]

theorem hasReadme_ordered : HasReadme orderedSite orderedTree "../lib/p" := ⟨["lib", "p"], by decide, by decide⟩

theorem page_ordered {pages : List Text} {front : Bytes} {place : Place} {closed : Tree}
    (page : orderedSite.find closed (savePage orderedSettings "../lib/p") = .ok (place, .file (front ++
      Utf8.bytesOf (Toctree.render none [(saveName orderedSettings "../lib/p", pages)]))))
    (copied : HasReadme orderedSite orderedTree "../lib/p" → Copied orderedSite closed "../lib/p" place front)
    (ending : Ending orderedSite orderedSettings "../lib/p" closed orderedAfter) :
    orderedAfter.get? ["docs", "autogenerated_source", "p.rst"] =
      some (.file (Utf8.bytesOf ("P\n" ++ Toctree.render none [("p", pages)]))) := by
  obtain ⟨_, spot, there, read⟩ := evaluated_ordered
  have path : savePage orderedSettings "../lib/p" = "autogenerated_source/p.rst" := by decide
  have name : saveName orderedSettings "../lib/p" = "p" := by decide
  have inner : ("../lib/p" : Text) ≠ orderedSettings.library := by decide
  obtain ⟨_, rfl⟩ := ending.resolve_right fun last => inner last.1
  rw [path, name] at page
  obtain ⟨located, held⟩ := Site.find_eq_ok_iff.mp page
  cases located.symm.trans spot
  obtain ⟨readme, rfl, kept⟩ := copied hasReadme_ordered
  have apart : orderedSite.locate orderedAfter "../lib/p/README.rst" ≠ .ok ["docs", "autogenerated_source",
      "p.rst"] := by
    rw [there]
    decide
  cases (kept apart).symm.trans read
  rw [held, Utf8.bytesOf_append]

theorem orders_lose_nothing_sample : ∃ pages : List Text, pages.Perm ["b.rst", "a.rst"] ∧
    orderedAfter.get? ["docs", "autogenerated_source", "p.rst"] = some (.file (Utf8.bytesOf
      (("P\n\n\n.. toctree::\n   :hidden:\n   :maxdepth: -1\n   :caption: P\n\n" : Text) ++
        pages.flatMap (fun page => ("   p/" : Text) ++ page ++ ("\n" : Text)) ++ ("\n" : Text)))) := by
  have keyed : Build.Keyed ({} : Settings).orders := fun key order found => nomatch found
  have free : ∀ name ∈ listedNames ["../lib/p/b"] ["../lib/p/a.py"], ¬(".rst" : Text) <:+: name := by decide
  have names : (listedNames ["../lib/p/b"] ["../lib/p/a.py"]).map (· ++ (".rst" : Text)) = [("b.rst" : Text),
      "a.rst"] := by decide
  obtain ⟨_, pages, front, place, closed, perm, page, copied, ending⟩ :=
    orders_lose_nothing keyed runOn_configure_ordered (.inl hasReadme_ordered) free runOn_writeUpTo_ordered
  rw [names] at perm
  have line : ∀ page ∈ pages, Toctree.line "p" page = "   p/" ++ page ++ "\n" := by
    have both : ∀ page ∈ [("b.rst" : Text), "a.rst"], Toctree.line "p" page = "   p/" ++ page ++ "\n" := by decide
    exact fun page member => both page (perm.mem_iff.mp member)
  have head : ("P\n" : Text) ++ ("\n" ++ ("\n.. toctree::\n   :hidden:\n   :maxdepth: -1\n   :caption: " ++
      (Toctree.caption none "p" ++ "\n\n"))) =
        "P\n\n\n.. toctree::\n   :hidden:\n   :maxdepth: -1\n   :caption: P\n\n" := by decide
  refine ⟨pages, perm, ?_⟩
  rw [page_ordered page copied ending, ← head, ← List.flatMap_congr line]
  simp only [Toctree.render, Toctree.block, List.flatMap_cons, List.flatMap_nil, List.append_nil, List.append_assoc]

theorem orderOfLine_eq {line : Text} {order : List Text} (proper : order ≠ []) (free : ∀ name ∈ order, .char ',' ∉ name)
    (written : replace " " "" (replace "\n" "" line) = "[" ++ join "," order ++ "]") :
    Settings.orderOfLine line = order := by
  have inner : (("[" : Text) ++ join "," order ++ "]").tail.dropLast = join "," order := by simp [ofChars]
  rw [Settings.orderOfLine, written, inner]
  exact split_join proper free

section
variable {site : Site} {tree : Tree} (sound : tree.Sound) {directory : Text} {place : Place}
include sound

theorem sorted_base_filter (chosen : Text → Bool) :
    (((entryPaths site tree directory place).filter chosen).map Path.base).Pairwise fun first second =>
      le first second = true := by
  have names : (entryPaths site tree directory place).map Path.base = sort (site.arrange place (tree.names place)) := by
    rw [entryPaths, List.map_map]
    refine (List.map_congr_left fun name member => ?_).trans (List.map_id _)
    rw [(sort_perm _).mem_iff, (site.arrange_perm _ _).mem_iff, Tree.mem_names] at member
    exact Path.base_join directory (sound.named place name member).noSlash
  refine List.Pairwise.sublist (List.filter_sublist.map Path.base) ?_
  rw [names]
  exact sorted_sort _

theorem base_module {path : Text} (member : path ∈ (entryPaths site tree directory place).filter isModule) :
    Path.base path = upTo (Path.base path) (-3) ++ (".py" : Text) := by
  obtain ⟨listed, module⟩ := List.mem_filter.mp member
  obtain ⟨name, present, rfl⟩ := mem_entryPaths.mp listed
  have slashless := (sound.named place name present).noSlash
  obtain ⟨stem, rfl, _⟩ := (isModule_join_iff directory slashless).mp module
  have cut : upTo (stem ++ (".py" : Text)) (-3) = stem := (cut_ending stem (by decide)).1
  rw [Path.base_join directory slashless, cut]

/-- The names of a directory ascend if no directory in it comes after a module. -/
theorem sorted_listedNames_iff {settings : Settings} {directories modules : List Text}
    (found : Found site settings tree directory directories modules)
    (identifiers : ∀ name ∈ listedNames directories modules, ∀ c ∈ name, (CodePoint.char '/').toNat < c.toNat) :
    ((listedNames directories modules).Pairwise fun first second => le first second = true) ↔
      ∀ inner ∈ directories, ∀ module ∈ modules, le (Path.base inner) (upTo (Path.base module) (-3)) = true := by
  obtain ⟨place, made, _, _, rfl, rfl⟩ := found
  have directories : ((innerDirectories site made (entryPaths site tree directory place)).map Path.base).Pairwise
      fun first second => le first second = true := sorted_base_filter sound _
  have modules : (((entryPaths site tree directory place).filter isModule).map fun path =>
    upTo (Path.base path) (-3)).Pairwise
      fun first second => le first second = true := by
    refine List.pairwise_map.mpr ((List.pairwise_map.mp (sorted_base_filter sound isModule)).imp_of_mem
      fun {first second} left right before => ?_)
    rw [base_module sound left, base_module sound right] at before
    refine le_of_le_append (fun c member => ?_) before
    have after := identifiers (upTo (Path.base first) (-3)) (List.mem_append_right _ (List.mem_map_of_mem left)) c
      member
    exact Nat.lt_trans (by decide) after
  rw [listedNames, List.pairwise_append]
  constructor
  · rintro ⟨_, _, across⟩ inner left module right
    exact across _ (List.mem_map_of_mem left) _ (List.mem_map_of_mem right)
  · intro across
    refine ⟨directories, modules, fun first left second right => ?_⟩
    obtain ⟨inner, listed, rfl⟩ := List.mem_map.mp left
    obtain ⟨module, other, rfl⟩ := List.mem_map.mp right
    exact across inner listed module other

end

/-- The order that a line asks for is listed by a directory that gets a page and has just the names of the line, if no
directory in it comes after a module; else the page lists the directories and then the modules. -/
theorem order_honoured_of_ascending {site : Site} {library : Text} {heading : Heading} {initial : Settings}
    {before : Tree} {session : Session} (configured : (Build.configure library heading).runOn site ⟨initial, before⟩ =
      (.ok (), session))
    {lines earlier later : List Text} {line : Text} {order : List Text}
    (read : linesAt site before (Path.join site.here "submod_orders.txt") = .ok lines)
    (header : lines.tail = earlier ++ line :: later)
    (written : replace " " "" (replace "\n" "" line) = "[" ++ join "," order ++ "]") (proper : order ≠ [])
    (identifiers : ∀ name ∈ order, ∀ c ∈ name, (CodePoint.char '/').toNat < c.toNat)
    (last : ∀ other ∈ later, ¬(Settings.orderOfLine other).Perm order)
    {depth : Nat} {directory : Text} {tree after : Tree} (sound : tree.Sound) {directories modules : List Text}
    (paged : HasPage site session.settings tree directory) (names : (listedNames directories modules).Perm order)
    (run : (writeUpTo session.settings depth directory).runOn site tree = (.ok (directories, modules), after)) :
    Found site session.settings tree directory directories modules ∧ ∃ pages front place closed,
      (pages = if ∀ inner ∈ directories, ∀ module ∈ modules,
        le (Path.base inner) (upTo (Path.base module) (-3)) = true then
          order.map (· ++ (".rst" : Text))
        else (listedNames directories modules).map (· ++ (".rst" : Text))) ∧
      site.find closed (savePage session.settings directory) = .ok (place, .file (front ++
        Utf8.bytesOf (Toctree.render none [(saveName session.settings directory, pages)]))) ∧
      (HasReadme site tree directory → Copied site closed directory place front) ∧
      Ending site session.settings directory closed after := by
  obtain ⟨found, front, place, closed, page, copied, ending⟩ := runOn_writeUpTo_listed paged run
  have orders := Build.configure_orders configured
  rw [read] at orders
  have orders : session.settings.orders = Build.ordersOf lines.tail := orders
  have fresh : ∀ {c : CodePoint}, c.toNat ≤ (CodePoint.char '/').toNat → ∀ name ∈ order, c ∉ name := by
    intro c early name member inside
    exact absurd (identifiers name member c inside) (Nat.not_lt.mpr early)
  have own : Settings.orderOfLine line = order := orderOfLine_eq proper (fresh (by decide)) written
  have free : ∀ name ∈ listedNames directories modules, ¬(".rst" : Text) <:+: name := fun name member inside =>
    fresh (by decide) name (names.mem_iff.mp member) (inside.subset List.mem_cons_self)
  have sorted := sorted_listedNames_iff sound found fun name member => identifiers name (names.mem_iff.mp member)
  refine ⟨found, _, front, place, closed, ?_, page, copied, ending⟩
  rw [directoryPages_eq free]
  split
  · rename_i ascending
    -- the names are those under which the order of the line stands
    have key : listedNames directories modules = sort order := (sort_eq_iff names).mpr (sorted.mpr ascending)
    have kept : (Build.ordersOf lines.tail).get? (sort order) = some order := by
      rw [header, Build.ordersOf, List.map_append, List.map_append, List.map_cons, List.map_cons, own]
      refine Table.get?_ofList_last _ _ _ fun entry member => ?_
      obtain ⟨_, asked, rfl⟩ := List.mem_map.mp member
      obtain ⟨other, inside, rfl⟩ := List.mem_map.mp asked
      intro (same : sort (Settings.orderOfLine other) = sort order)
      exact last other inside ((same ▸ (sort_perm _).symm).trans (sort_perm order))
    rw [key, orders, kept]
    rfl
  · rename_i mixed
    have absent : session.settings.orders.get? (listedNames directories modules) = none := by
      rw [orders]
      refine Option.eq_none_iff_forall_ne_some.mpr fun other there => mixed (sorted.mp ?_)
      rw [Build.keyed_ordersOf _ _ _ there]
      exact sorted_sort other
    rw [absent]
    rfl

theorem order_honoured_of_ascending_sample :
    orderedAfter.get? ["docs", "autogenerated_source", "p.rst"] = some (.file (Utf8.bytesOf
      "P\n\n\n.. toctree::\n   :hidden:\n   :maxdepth: -1\n   :caption: P\n\n   p/b.rst\n   p/a.rst\n\n")) := by
  have read : linesAt orderedSite orderedTree (Path.join orderedSite.here "submod_orders.txt") =
      .ok [("Orders\n" : Text), "[a, b]\n"] := by decide
  have written : replace " " "" (replace "\n" "" ("[a, b]\n" : Text)) = "[" ++ join "," [("a" : Text), "b"] ++ "]" := by
    decide
  have names : (listedNames ["../lib/p/b"] ["../lib/p/a.py"]).Perm [("a" : Text), "b"] := by decide
  have mixed : ¬∀ inner ∈ [("../lib/p/b" : Text)], ∀ module ∈ [("../lib/p/a.py" : Text)],
      le (Path.base inner) (upTo (Path.base module) (-3)) = true := by decide
  have entries : (listedNames ["../lib/p/b"] ["../lib/p/a.py"]).map (· ++ (".rst" : Text)) = [("b.rst" : Text),
      "a.rst"] := by decide
  have text : ("P\n" : Text) ++ Toctree.render none [("p", ["b.rst", "a.rst"])] =
      "P\n\n\n.. toctree::\n   :hidden:\n   :maxdepth: -1\n   :caption: P\n\n   p/b.rst\n   p/a.rst\n\n" := by decide
  obtain ⟨_, pages, front, place, closed, same, page, copied, ending⟩ :=
    order_honoured_of_ascending runOn_configure_ordered read
    (List.nil_append _).symm written (by simp) (by decide) (by simp) (Tree.sound_of_isSound (by decide))
    (.inl hasReadme_ordered) names runOn_writeUpTo_ordered
  rw [if_neg mixed, entries] at same
  rw [page_ordered page copied ending, same, text]

end Pages
end ApiDocs
