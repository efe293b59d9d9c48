import ApiDocs.Html.Page
import ApiDocs.Proofs.Series
import ApiDocs.Proofs.Text.Plain

/-! Which corrected pages can be written. Every step of the correction puts together parts of the page,
fixed texts, names of related libraries, permitted names and the folder of the page; of these only the
folder can hold a surrogate once everything else has been read from files. -/

set_option autoImplicit false

namespace ApiDocs.Html

variable {page path : Text}

open Text (Plain plain_append plain_ofChars)

theorem plain_insertIcon (plain : page.Plain) : (insertIcon page).Plain :=
  plain.insertAt _ (plain_ofChars _)

theorem plain_markFrameworks (plain : page.Plain) : (markFrameworks page).Plain := by
  unfold markFrameworks
  split
  · exact plain
  · dsimp only
    refine List.foldlRecOn (motive := fun state => state.1.Plain) _ insertLogo ?_ fun state plain stop _ => ?_
    · exact plain.insertAt _ (plain_ofChars _)
    · exact plain.insertAt _ (plain_ofChars _)

theorem plain_tidy (plain : page.Plain) : (tidy page).Plain :=
  (plain.replace _ (plain_ofChars _)).replace _ (plain_ofChars _)

theorem plain_relinkModules {names : List Text} (known : ∀ name ∈ names, name.Plain) (plain : page.Plain) :
    (relinkModules names page).Plain := by
  unfold relinkModules
  induction names generalizing page with
  | nil => exact plain
  | cons name names ih =>
    refine ih (fun other member => known other (List.mem_cons_of_mem _ member)) (plain.replace _ ?_)
    have last := (known name List.mem_cons_self).afterLast '_'
    exact plain_append.mpr ⟨plain_append.mpr ⟨plain_ofChars _, last⟩, plain_ofChars _⟩

/-- The names that a table of namespaces puts into pages can be encoded. -/
def PlainValues (namespaces : Json) : Prop :=
  ∀ members, namespaces = .object members → ∀ key value, (key, .text value) ∈ members → value.Plain

theorem plain_trimNamespace {namespaces : Json} (values : PlainValues namespaces) {name value : Text}
    (plain : name.Plain) (trimmed : trimNamespace namespaces name = .ok (.text value)) : value.Plain := by
  unfold trimNamespace at trimmed
  split at trimmed
  · rename_i members
    have shown := Except.ok.inj trimmed
    unfold permitted? at shown
    cases found : members.find? fun entry => Text.mentions entry.1 name with
    | none =>
      rw [found] at shown
      obtain rfl := Json.text.inj shown
      exact plain
    | some entry =>
      rw [found] at shown
      obtain ⟨key, kept⟩ := entry
      obtain rfl : kept = .text value := shown
      exact values members rfl key value (List.mem_of_find?_eq_some found)
  · cases trimmed

theorem plain_trimPart {namespaces : Json} (values : PlainValues namespaces) {part name : Text} {rest : List Text}
    (plain : part.Plain) (trimmed : trimPart namespaces part = .ok (.text name, rest)) :
    name.Plain ∧ ∀ piece ∈ rest, piece.Plain := by
  have pieces := plain.split "</span>"
  unfold trimPart at trimmed
  split at trimmed
  · rename_i first others eq
    rw [eq] at pieces
    cases found : trimNamespace namespaces first with
    | error fault => rw [found] at trimmed; cases trimmed
    | ok value =>
      rw [found] at trimmed
      cases trimmed
      exact ⟨plain_trimNamespace values (pieces first List.mem_cons_self) found,
        fun piece member => pieces piece (List.mem_cons_of_mem _ member)⟩
  · cases trimmed
    exact ⟨.nil, by simp⟩

theorem plain_trimNamespaces {namespaces : Json} (values : PlainValues namespaces) {trimmed : Text}
    (plain : page.Plain) (done : trimNamespaces namespaces page = .ok trimmed) : trimmed.Plain := by
  have pieces := plain.split namespaceMark
  unfold trimNamespaces at done
  split at done
  · rename_i head parts eq
    rw [eq] at pieces
    cases first : parts.mapM (trimPart namespaces) with
    | error fault => rw [first] at done; cases done
    | ok named =>
      rw [first] at done
      simp only [bind, Except.bind] at done
      split at done
      · cases done
      · rename_i texts second
        cases done
        refine Text.plain_join (plain_ofChars _) fun piece member => ?_
        rcases List.mem_cons.mp member with rfl | member
        · exact pieces _ List.mem_cons_self
        -- each piece comes from one of the second pass, and that from one of the first
        obtain ⟨⟨value, rest⟩, inside, joined⟩ := exists_of_mapM second member
        obtain ⟨part, among, cut⟩ := exists_of_mapM first inside
        cases value with
        | text name =>
          obtain ⟨proper, others⟩ := plain_trimPart values (pieces part (List.mem_cons_of_mem _ among)) cut
          cases joined
          refine Text.plain_join (plain_ofChars _) fun piece member => ?_
          rcases List.mem_cons.mp member with rfl | member
          · exact proper
          · exact others piece member
        | _ => cases joined
  · cases done
    exact plain

theorem plain_dropUntitled (plain : page.Plain) : (dropUntitled page).Plain := by
  unfold dropUntitled
  dsimp only
  split
  · exact plain
  · exact plain.replace _ (plain_ofChars _)

theorem plain_lineAt (plain : page.Plain) (start : Nat) : (lineAt page start).Plain := plain.slice _ _

theorem plain_methods (plain : page.Plain) : ∀ definition ∈ methods page, definition.line.Plain := by
  intro definition member
  obtain ⟨start, _, rfl⟩ := List.mem_map.mp (List.mem_filter.mp member).1
  exact plain_lineAt plain start

theorem plain_submoduleOf (plain : path.Plain) : (submoduleOf path).Plain := plain.slice _ _

theorem plain_address {submodule : Text} (plain : submodule.Plain) {definition : Definition}
    (line : definition.line.Plain) : (definition.address submodule).Plain := by
  have name : (Text.afterLast '.' definition.identifier).Plain := (line.slice _ _).afterLast '.'
  have owner := plain.capitalize
  unfold Definition.address
  dsimp only
  split
  · simp only [plain_append, plain_ofChars, plain, owner, name, and_self]
  · simp only [plain_append, plain_ofChars, plain, owner, name, and_self]

theorem plain_relinkSources {submodule : Text} (proper : submodule.Plain) {definitions : List Definition}
    (listed : ∀ definition ∈ definitions, definition.line.Plain) (plain : page.Plain) :
    (relinkSources submodule definitions page).Plain := by
  unfold relinkSources
  generalize (0 : Int) = shift
  induction definitions generalizing page shift with
  | nil => exact plain
  | cons definition definitions ih =>
    rw [List.foldl_cons]
    refine ih (fun other member => listed other (List.mem_cons_of_mem _ member)) ?_ _
    have address := plain_address proper (listed definition List.mem_cons_self)
    have link := fun start stop place => plain_append.mpr ⟨(plain.slice start stop).upTo place, address⟩
    exact plain_append.mpr ⟨plain_append.mpr ⟨plain.upTo _, link _ _ _⟩, plain.since _⟩

theorem plain_callsFrom {text : Text} (plain : text.Plain) (start : Nat) :
    ∀ call ∈ callsFrom start text, call.text.Plain ∧ call.word.Plain := by
  have single : ∀ {start : Nat} {word text : Text} {call : Call}, word.Plain → text.Plain →
      callAt? start word text = some call → call.text.Plain ∧ call.word.Plain := by
    intro start word text call proper plain found
    unfold callAt? at found
    dsimp only at found
    split at found
    · split at found
      · cases found
        exact ⟨plain.of_subset (List.take_subset _ _), proper⟩
      · cases found
    · cases found
  induction text generalizing start with
  | nil => simp [callsFrom]
  | cons c rest ih =>
    intro call member
    rcases List.mem_append.mp member with member | member
    · rcases List.mem_append.mp member with member | member
      · exact single (plain_ofChars _) plain (Option.mem_toList.mp member)
      · exact single (plain_ofChars _) plain (Option.mem_toList.mp member)
    · exact ih (Text.plain_cons.mp plain).2 _ call member

theorem plain_getD {pieces : List Text} (plain : ∀ piece ∈ pieces, piece.Plain) (place : Nat) :
    ((pieces[place]?).getD []).Plain := by
  cases found : pieces[place]? with
  | none => exact .nil
  | some piece => exact plain piece (List.mem_of_getElem? found)

theorem plain_link {call : Call} (text : call.text.Plain) (word : call.word.Plain) {link : Text}
    (linked : call.link? path = some link) : link.Plain := by
  unfold Call.link? at linked
  dsimp only at linked
  split at linked
  · cases linked
  · have name : call.name.Plain := plain_getD (text.split _) 1
    have shown := plain_getD (text.wordsFrom .nil) 1
    have dot : ∀ {same : Prop} [Decidable same], Plain (if same then "." else "") := by
      intro same _
      split
      · exact plain_ofChars _
      · exact plain_ofChars _
    cases linked
    simp only [plain_append, plain_ofChars, word, name, shown, dot, Text.words, and_self]

theorem plain_linkCalls {paragraph : Text} (plain : paragraph.Plain) : (linkCalls path paragraph).Plain := by
  unfold linkCalls
  dsimp only
  have bare : (paragraph |> Text.replace "<cite>" "" |> Text.replace "</cite>" "").Plain :=
    (plain.replace _ (plain_ofChars _)).replace _ (plain_ofChars _)
  generalize Text.replace "</cite>" "" (Text.replace "<cite>" "" paragraph) = text at bare ⊢
  have links : ∀ pair ∈ (callsFrom 0 text).zip ((callsFrom 0 text).filterMap (Call.link? path)), pair.2.Plain := by
    rintro ⟨call, link⟩ member
    obtain ⟨other, inside, linked⟩ := List.mem_filterMap.mp (List.of_mem_zip member).2
    obtain ⟨proper, word⟩ := plain_callsFrom bare 0 other inside
    exact plain_link proper word linked
  generalize (callsFrom 0 text).zip _ = pairs at links ⊢
  generalize (0 : Int) = shift
  induction pairs generalizing text shift with
  | nil => exact bare
  | cons pair pairs ih =>
    rw [List.foldl_cons]
    refine ih _ ?_ (fun other member => links other (List.mem_cons_of_mem _ member)) _
    exact plain_append.mpr ⟨plain_append.mpr ⟨bare.upTo _, links pair List.mem_cons_self⟩, bare.since _⟩

theorem plain_linkMethods (named : Text.mentions functionalFolder path = true → methods page ≠ [] →
    (submoduleOf path).Plain)
    (plain : page.Plain) : (linkMethods path page).Plain := by
  unfold linkMethods
  split
  · rename_i inside
    dsimp only
    by_cases none : methods page = []
    · rw [none]
      exact plain
    have start := plain_relinkSources (named inside none) (plain_methods plain) plain
    generalize relinkSources _ _ _ = page at start ⊢
    generalize methods _ = definitions
    induction definitions generalizing page with
    | nil => exact start
    | cons definition definitions ih =>
      refine ih _ ?_
      unfold linkDefinition
      dsimp only
      split
      · exact start
      · exact plain_append.mpr ⟨plain_append.mpr ⟨start.upTo _, plain_linkCalls (start.slice _ _)⟩, start.since _⟩
  · exact plain

theorem plain_coverElement (plain : page.Plain) (place : Nat) : (coverElement page place).Plain := by
  unfold coverElement
  dsimp only
  split
  · exact plain_append.mpr ⟨plain_append.mpr ⟨plain.upTo _, Text.plain_times (plain_ofChars _) _⟩, plain.since _⟩
  · exact plain

theorem plain_coverBetween (plain : page.Plain) (start stop : Nat) : (coverBetween page start stop).Plain := by
  unfold coverBetween
  generalize List.filter _ _ = places
  induction places generalizing page with
  | nil => exact plain
  | cons place places ih => exact ih (plain_coverElement plain place)

theorem plain_dropTensorTypes (plain : page.Plain) : (dropTensorTypes page).Plain := by
  refine Text.Plain.replace ?_ _ (plain_ofChars _)
  generalize Text.places parametersMark page = places
  fun_induction coverLists page places with
  | case1 => exact plain
  | case2 page start => exact plain_coverBetween plain _ _
  | case3 page start next rest ih => exact ih (plain_coverBetween plain _ _)

def untrimmed (related : List Text) (page : Text) : Text :=
  page |> insertIcon |> markFrameworks |> tidy |> relinkModules related

/-- A page is corrected to a text that can be written, if its folder and everything that it is corrected
from can be. The folder does not matter if no method is defined in it. -/
theorem plain_correct {namespaces : Json} (values : PlainValues namespaces) {related : List Text}
    (names : ∀ name ∈ related, name.Plain)
    (named : ∀ trimmed, trimNamespaces namespaces (untrimmed related page) = .ok trimmed →
      Text.mentions functionalFolder path = true → methods (dropUntitled trimmed) ≠ [] → (submoduleOf path).Plain)
    (plain : page.Plain) {text : Text} (corrected : correct namespaces related path page = .ok text) : text.Plain := by
  have entered := plain_relinkModules names (plain_tidy (plain_markFrameworks (plain_insertIcon plain)))
  unfold correct at corrected
  simp only [bind, Except.bind] at corrected
  split at corrected
  · cases corrected
  · rename_i trimmed done
    cases corrected
    have titled := plain_dropUntitled (plain_trimNamespaces values entered done)
    exact plain_dropTensorTypes (plain_linkMethods (named trimmed done) titled)

end ApiDocs.Html
