import ApiDocs.Proofs.Html.CallLinks
import ApiDocs.Proofs.Html.Corrected
import ApiDocs.Proofs.Html.MarkedNames

/-! When the correction of a page fails. Nothing has been written yet if a file cannot be read or a marked name cannot
be shown. After that only the folder of the page can keep the corrected text from being written, and then the page is
left empty. -/

set_option autoImplicit false

namespace ApiDocs.Html

open Text
open Script (textAt linesAt textAt_eq_ok_iff linesAt_eq_ok_iff)

/-- The text that is read from a file: the file is there, and its bytes are UTF-8. -/
def ReadsAs (site : Site) (tree : Tree) (path text : Text) : Prop :=
  ∃ place bytes whole, site.find tree path = .ok (place, .file bytes) ∧ Utf8.decode bytes = .ok whole ∧
    text = unifyNewlines whole

def namesIn (list : Text) : List Text := (lines list).map (replace "\n" "")

section
variable (namespaces : Json) (site : Site) (tree : Tree) (path : Text)

/-- What keeps a page from being corrected before anything is written. -/
inductive Hindered : Prop
  /-- The page cannot be opened or decoded. -/
  | page (unread : ∀ text, ¬ReadsAs site tree path text)
  /-- The list of related libraries cannot be opened or decoded. -/
  | related (unread : ∀ text, ¬ReadsAs site tree (relatedPath site) text)
  /-- A name is marked, and there is no table to look it up in. -/
  | table {page list : Text} (read : ReadsAs site tree path page) (listed : ReadsAs site tree (relatedPath site) list)
    (marks : namespaceMark <:+: untrimmed (namesIn list) page) (tableless : ∀ members, namespaces ≠ .object members)
  /-- A name is marked that has something else than a text in the table. -/
  | name {page list name : Text} {value : Json} (read : ReadsAs site tree path page)
    (listed : ReadsAs site tree (relatedPath site) list) (marked : Marked (untrimmed (namesIn list) page) name)
    (trimmed : trimNamespace namespaces name = .ok value) (textless : NoText value)

/-- The page is corrected to a text that cannot be encoded. -/
def Unwritable : Prop := ∃ text, correction namespaces site tree path = .ok text ∧ ¬text.Plain

def HasMethods : Prop :=
  ∃ page list trimmed, ReadsAs site tree path page ∧ ReadsAs site tree (relatedPath site) list ∧
    trimNamespaces namespaces (untrimmed (namesIn list) page) = .ok trimmed ∧ methods (dropUntitled trimmed) ≠ []

end

section
variable {namespaces : Json} {site : Site} {tree : Tree} {path : Text}

theorem linesAt_iff_readsAs {lines : List Text} :
    linesAt site tree path = .ok lines ↔ ∃ text, ReadsAs site tree path text ∧ lines = Text.lines text := by
  rw [linesAt_eq_ok_iff]
  constructor
  · rintro ⟨place, bytes, whole, found, decoded, rfl⟩
    exact ⟨_, ⟨place, bytes, whole, found, Utf8.decode_of_decodeLines decoded, rfl⟩, rfl⟩
  · rintro ⟨_, ⟨place, bytes, whole, found, decoded, rfl⟩, rfl⟩
    exact ⟨place, bytes, whole, found, by rw [Utf8.decodeLines, decoded], rfl⟩

theorem correction_of_readsAs {page list : Text} (read : ReadsAs site tree path page)
    (listed : ReadsAs site tree (relatedPath site) list) :
    correction namespaces site tree path = correct namespaces (namesIn list) path page := by
  rw [correction, (textAt_eq_ok_iff site tree).mpr read, linesAt_iff_readsAs.mpr ⟨list, listed, rfl⟩]
  rfl

theorem readsAs_of_correction {text : Text} (corrected : correction namespaces site tree path = .ok text) :
    (∃ page, ReadsAs site tree path page) ∧ ∃ list, ReadsAs site tree (relatedPath site) list := by
  rw [correction] at corrected
  cases read : textAt site tree path with
  | error fault => rw [read] at corrected; cases corrected
  | ok page =>
    cases listed : linesAt site tree (relatedPath site) with
    | error fault => rw [read, listed] at corrected; cases corrected
    | ok lines =>
      obtain ⟨list, reads, _⟩ := linesAt_iff_readsAs.mp listed
      exact ⟨⟨page, (textAt_eq_ok_iff site tree).mp read⟩, list, reads⟩

/-- Of all the steps of a correction only the trimming of names can fail. -/
theorem correct_error_iff {related : List Text} {page : Text} :
    (∃ fault, correct namespaces related path page = .error fault) ↔
      ∃ fault, trimNamespaces namespaces (untrimmed related page) = .error fault := by
  change (∃ fault, (trimNamespaces namespaces (untrimmed related page) >>= _) = .error fault) ↔ _
  cases trimNamespaces namespaces (untrimmed related page) <;> simp [bind, Except.bind, pure, Except.pure]

theorem correction_error_iff :
    (∃ fault, correction namespaces site tree path = .error fault) ↔ Hindered namespaces site tree path := by
  constructor
  · intro failed
    by_cases read : ∃ page, ReadsAs site tree path page
    · by_cases listed : ∃ list, ReadsAs site tree (relatedPath site) list
      · obtain ⟨⟨page, read⟩, list, listed⟩ := And.intro read listed
        rw [correction_of_readsAs read listed, correct_error_iff, trimNamespaces_error_iff] at failed
        rcases failed with ⟨marks, tableless⟩ | ⟨name, value, marked, trimmed, textless⟩
        · exact .table read listed marks tableless
        · exact .name read listed marked trimmed textless
      · exact .related (not_exists.mp listed)
    · exact .page (not_exists.mp read)
  · intro hindered
    cases corrected : correction namespaces site tree path with
    | error fault => exact ⟨fault, rfl⟩
    | ok text =>
      -- both files are read then, and what hinders on the page makes the trimming fail
      obtain ⟨⟨page, read⟩, list, listed⟩ := readsAs_of_correction corrected
      cases hindered with
      | page unread => exact absurd read (unread page)
      | related unread => exact absurd listed (unread list)
      | table read listed marks tableless =>
        rw [← corrected, correction_of_readsAs read listed, correct_error_iff, trimNamespaces_error_iff]
        exact .inl ⟨marks, tableless⟩
      | name read listed marked trimmed textless =>
        rw [← corrected, correction_of_readsAs read listed, correct_error_iff, trimNamespaces_error_iff]
        exact .inr ⟨_, _, marked, trimmed, textless⟩

theorem not_hindered_of_correction {text : Text} (corrected : correction namespaces site tree path = .ok text) :
    ¬Hindered namespaces site tree path := by
  rw [← correction_error_iff, corrected]
  rintro ⟨fault, failed⟩
  cases failed

/-- Only the folder of a page that defines methods keeps its text from being written. -/
theorem folder_of_unwritable (values : PlainValues namespaces) (unwritable : Unwritable namespaces site tree path) :
    functionalFolder <:+: path ∧ ¬(submoduleOf path).Plain ∧ HasMethods namespaces site tree path := by
  obtain ⟨text, corrected, unplain⟩ := unwritable
  by_contra other
  refine unplain (plain_correction values corrected fun page lines trimmed read listed done folder defined => ?_)
  obtain ⟨list, known, rfl⟩ := linesAt_iff_readsAs.mp listed
  by_contra broken
  exact other ⟨mentions_iff.mp folder, broken, page, list, trimmed, (textAt_eq_ok_iff site tree).mp read, known, done,
    defined⟩

theorem lookups_of_calls (path text : Text) :
    (∀ call ∈ callsFrom 0 text, 1 < (split "." call.text).length ∧ 1 < (words call.text).length) ∧
      ((callsFrom 0 text).filterMap (Call.link? path)).length ≤ (callsFrom 0 text).length := by
  refine ⟨fun call member => ?_, List.length_filterMap_le _ _⟩
  obtain ⟨mention, rfl⟩ := Mention.mem_calls.mp member
  refine ⟨by rw [mention.split_call]; exact Nat.one_lt_two, ?_⟩
  exact (List.getElem?_eq_some_iff.mp mention.words_call).1

end

structure PageOutcome (namespaces : Json) (site : Site) (tree : Tree) (path : Text) (outcome : Except Fault Unit)
    (after : Tree) : Prop where
  /-- It fails exactly if it is hindered or its text cannot be written. -/
  fails : (∃ fault, outcome = .error fault) ↔ Hindered namespaces site tree path ∨ Unwritable namespaces site tree path
  /-- What hinders it comes up before anything is written. -/
  kept : Hindered namespaces site tree path → after = tree
  /-- A text cannot be written only if it has methods of a folder whose name holds bytes that are no text. The page is
  left empty then, and everything else stays. -/
  emptied : Unwritable namespaces site tree path →
    (functionalFolder <:+: path ∧ ¬(submoduleOf path).Plain ∧ HasMethods namespaces site tree path) ∧
      ∃ place bytes run, site.find tree path = .ok (place, .file bytes) ∧ outcome = .error (.unencodable run) ∧
        after = tree.put place (.file [])
  /-- Every other page is corrected. -/
  corrected : ¬Hindered namespaces site tree path → ¬Unwritable namespaces site tree path →
    ∃ text place bytes, correction namespaces site tree path = .ok text ∧
      site.find tree path = .ok (place, .file bytes) ∧
      outcome = .ok () ∧ after = tree.put place (.file (Utf8.bytesOf text))
  /-- The parts of a call that are looked up are there, and every link has a call to stand for. -/
  lookups : ∀ text, (∀ call ∈ callsFrom 0 text, 1 < (split "." call.text).length ∧ 1 < (words call.text).length) ∧
    ((callsFrom 0 text).filterMap (Call.link? path)).length ≤ (callsFrom 0 text).length

theorem correctFile_outcome (namespaces : Json) (values : PlainValues namespaces) (site : Site) (tree : Tree)
    (path : Text) :
    PageOutcome namespaces site tree path ((correctFile namespaces path).runOn site tree).1
      ((correctFile namespaces path).runOn site tree).2 := by
  rcases correctFile_cases namespaces site tree path with
    ⟨fault, failed, run⟩ | ⟨text, place, bytes, corrected, found, ⟨plain, run⟩ | ⟨unplain, code, run⟩⟩
  · -- the page has no correction
    have held := correction_error_iff.mp ⟨fault, failed⟩
    have ended : ¬Unwritable namespaces site tree path := by
      rintro ⟨text, corrected, _⟩
      rw [failed] at corrected
      cases corrected
    rw [run]
    exact ⟨⟨fun _ => .inl held, fun _ => ⟨fault, rfl⟩⟩, fun _ => rfl, fun unwritable => absurd unwritable ended,
      fun free _ => absurd held free, lookups_of_calls path⟩
  · have free := not_hindered_of_correction corrected
    have written : ¬Unwritable namespaces site tree path := by
      rintro ⟨other, same, unplain⟩
      obtain rfl := Except.ok.inj (corrected.symm.trans same)
      exact unplain plain
    rw [run]
    refine ⟨⟨?_, ?_⟩, fun held => absurd held free, fun unwritable => absurd unwritable written,
      fun _ _ => ⟨text, place, bytes, corrected, found, rfl, rfl⟩, lookups_of_calls path⟩
    · rintro ⟨fault, failed⟩
      cases failed
    · exact fun either => absurd either (not_or.mpr ⟨free, written⟩)
  · have free := not_hindered_of_correction corrected
    have unwritable : Unwritable namespaces site tree path := ⟨text, corrected, unplain⟩
    rw [run]
    exact ⟨⟨fun _ => .inr unwritable, fun _ => ⟨_, rfl⟩⟩, fun held => absurd held free,
      fun _ => ⟨folder_of_unwritable values unwritable, place, bytes, code, found, rfl, rfl⟩,
      fun _ written => absurd unwritable written, lookups_of_calls path⟩

def brokenPage : Text := Path.join brokenPath "a.html"

def brokenPlace : Place := ["docs", "build", "functional", "ivy", "é", "a.html"]

theorem evaluated_broken :
    sampleSite.find sampleTree brokenPage = .ok (brokenPlace, .file (Utf8.bytesOf samplePage)) ∧
      Utf8.bytesOf samplePage ≠ [] ∧
      (correction (.object []) sampleSite sampleTree brokenPage).toOption.any (·.any (·.isSurrogate)) = true := by
  decide +kernel

/-- Nothing hinders the correction of a page, and yet it fails and leaves the page empty. -/
theorem correctFile_fails_unhindered :
    ¬Hindered (.object []) sampleSite sampleTree brokenPage ∧
      (∃ fault, ((correctFile (.object []) brokenPage).runOn sampleSite sampleTree).1 = .error fault) ∧
      sampleTree.get? brokenPlace ≠ some (.file []) ∧
      ((correctFile (.object []) brokenPage).runOn sampleSite sampleTree).2.get? brokenPlace = some (.file []) := by
  obtain ⟨found, filled, surrogate⟩ := evaluated_broken
  have held : sampleTree.get? brokenPlace = some (.file (Utf8.bytesOf samplePage)) := (Site.find_eq_ok_iff.mp found).2
  rcases correctFile_cases (.object []) sampleSite sampleTree brokenPage with
    ⟨fault, failed, _⟩ | ⟨text, place, bytes, corrected, there, ⟨plain, _⟩ | ⟨_, code, run⟩⟩
  · rw [failed] at surrogate
    cases surrogate
  · rw [corrected] at surrogate
    obtain ⟨point, member, odd⟩ := List.any_eq_true.mp surrogate
    exact absurd odd (Bool.eq_false_iff.mp (plain point member))
  · cases found.symm.trans there
    rw [run, held]
    exact ⟨not_hindered_of_correction corrected, ⟨_, rfl⟩, fun empty => filled (Entry.file.inj (Option.some.inj empty)),
      Tree.get?_put_file _ held⟩

def namedPage : Text := "\n\n" ++ namespaceMark ++ "ivy.functional.g</span>"

def namedTree : Tree := ⟨[(["docs"], .directory), (["docs", "ivy_modules.txt"], .file []),
    (["docs", "build"], .directory),
  (["docs", "build", "a.html"], .file (Utf8.bytesOf namedPage))]⟩

theorem evaluated_named :
    sampleSite.find namedTree "build/a.html" = .ok (["docs", "build", "a.html"], .file (Utf8.bytesOf namedPage)) ∧
      correction sampleNamespaces sampleSite namedTree "build/a.html" =
        .ok ("\n\n" ++ iconLine ++ namespaceMark ++ "ivy</span>") := by
  decide +kernel

theorem correctFile_outcome_sample :
    PlainValues sampleNamespaces ∧
      (correctFile sampleNamespaces "build/a.html").runOn sampleSite namedTree =
        (.ok (), namedTree.put ["docs", "build", "a.html"]
          (.file (Utf8.bytesOf ("\n\n" ++ iconLine ++ namespaceMark ++ "ivy</span>")))) := by
  obtain ⟨found, corrected⟩ := evaluated_named
  have values : PlainValues sampleNamespaces := by
    rintro members same key value member
    cases same
    cases List.mem_singleton.mp member
    exact plain_ofChars _
  have unhindered : ¬Hindered sampleNamespaces sampleSite namedTree "build/a.html" :=
    not_hindered_of_correction corrected
  have writable : ¬Unwritable sampleNamespaces sampleSite namedTree "build/a.html" := by
    rintro ⟨text, same, unplain⟩
    cases corrected.symm.trans same
    simp only [plain_append, plain_ofChars, iconLine, namespaceMark, and_self, not_true_eq_false] at unplain
  obtain ⟨text, place, bytes, same, there, outcome, after⟩ :=
    (correctFile_outcome sampleNamespaces values sampleSite namedTree "build/a.html").corrected unhindered writable
  cases corrected.symm.trans same
  cases found.symm.trans there
  exact ⟨values, Prod.ext outcome after⟩

end ApiDocs.Html
