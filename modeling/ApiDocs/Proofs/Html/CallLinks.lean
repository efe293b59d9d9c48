import ApiDocs.Html.Definitions
import ApiDocs.Proofs.Text.Patch
import ApiDocs.Proofs.Text.Pieces
import Mathlib.Data.List.Sort
import Mathlib.Data.List.TakeWhile

/-! Links in place of the functions that a paragraph mentions. The links of the mentions that have one are put in place
of the first mentions, so a mention gets its own link as long as no mention without a link comes before it. -/

set_option autoImplicit false

namespace ApiDocs.Html

open Text

def uncited (paragraph : Text) : Text := paragraph |> Text.replace "<cite>" "" |> Text.replace "</cite>" ""

/-- A mention of a function in a text: a word, the library's name and a name that a space or a point ends. -/
structure Mention (text : Text) where
  start : Nat
  word : Text
  name : Text
  worded : word = "of" ∨ word = "for"
  whole : ∀ c ∈ name, endsName c = false
  ended : ∃ c, endsName c = true ∧ StandsAt (word ++ " ivy." ++ name ++ [c]) text start

namespace Mention

variable {text : Text}

def spelled (mention : Mention text) : Text := mention.word ++ " ivy." ++ mention.name

def stop (mention : Mention text) : Nat := mention.start + mention.spelled.length

def fits (path : Text) (mention : Mention text) : Bool := (Text.split "/" path).any (Text.mentions mention.name)

/-- The link of a mention. It shows the name up to the first white space. -/
def link (path : Text) (mention : Mention text) : Text :=
  let dot : Text := if (Text.split "/" path).countP (Text.mentions mention.name) = 2 then "." else ""
  mention.word ++ " <a href=\"" ++ dot ++ "./" ++ mention.name ++ "/" ++ mention.name ++ "_functional.html\">" ++
    ("ivy." ++ mention.name.takeWhile (!isBlank ·)) ++ "</a>"

def call (mention : Mention text) : Call := ⟨mention.start, mention.spelled, mention.word⟩

theorem start_lt_stop (mention : Mention text) : mention.start < mention.stop := by
  have positive : 0 < mention.spelled.length := by
    simp only [spelled, List.length_append]
    exact Nat.add_pos_left (Nat.add_pos_right _ (by decide)) _
  exact Nat.lt_add_of_pos_right positive

theorem stop_le (mention : Mention text) : mention.stop ≤ text.length := by
  obtain ⟨c, _, stands⟩ := mention.ended
  have bound := stands.bound (by simp)
  rw [List.length_append] at bound
  exact Nat.le_of_add_right_le (Nat.add_assoc _ _ _ ▸ bound)

theorem call_injective {one other : Mention text} (same : one.call = other.call) : one = other := by
  obtain ⟨start, word, name, _, _, _⟩ := one
  obtain ⟨_, _, _, _, _, _⟩ := other
  obtain ⟨rfl, spelled, rfl⟩ := Call.mk.inj same
  obtain rfl := List.append_cancel_left spelled
  rfl

end Mention

/-- The call that a text begins with, by its parts. -/
theorem callAt?_eq_some_iff {start : Nat} {word text : Text} {call : Call} :
    callAt? start word text = some call ↔
      ∃ name c, (∀ d ∈ name, endsName d = false) ∧ endsName c = true ∧
        word ++ (" ivy." : Text) ++ name ++ [c] <+: text ∧ call = ⟨start, word ++ " ivy." ++ name, word⟩ := by
  unfold callAt?
  constructor
  · intro found
    simp only at found
    split at found
    · rename_i starts
      obtain ⟨rest, rfl⟩ := List.isPrefixOf_iff_prefix.mp starts
      rw [List.drop_left] at found
      split at found
      · -- the name reaches to the first character that ends one
        rename_i length first
        obtain ⟨inside, ends, least⟩ := List.findIdx?_eq_some_iff_getElem.mp first
        refine ⟨rest.take length, rest[length], ?_, ends, ?_, ?_⟩
        · intro d member
          obtain ⟨place, before, rfl⟩ := List.mem_take_iff_getElem.mp member
          simpa using least place (by omega)
        · rw [List.append_assoc, List.prefix_append_right_inj, List.take_append_getElem]
          exact List.take_prefix _ _
        · rw [List.take_length_add_append] at found
          exact (Option.some.inj found).symm
      · cases found
    · cases found
  · rintro ⟨name, c, whole, ends, ⟨rest, rfl⟩, rfl⟩
    have first : (name ++ c :: rest).findIdx? endsName = some name.length := by
      rw [List.findIdx?_append, List.findIdx?_eq_none_iff.mpr whole, List.findIdx?_cons, if_pos ends]
      simp
    generalize word ++ (" ivy." : Text) = lead
    have starts : lead.isPrefixOf (lead ++ (name ++ c :: rest)) = true :=
      List.isPrefixOf_iff_prefix.mpr (List.prefix_append _ _)
    rw [List.append_assoc, List.append_assoc, List.singleton_append]
    simp only [starts, if_true, List.drop_left, first, List.take_length_add_append, List.take_left]

theorem mem_callsFrom {start : Nat} {text : Text} {call : Call} :
    call ∈ callsFrom start text ↔
      ∃ (offset : Nat) (word : Text), (word = "of" ∨ word = "for") ∧
        callAt? (start + offset) word (text.drop offset) = some call := by
  induction text generalizing start with
  | nil =>
    refine ⟨fun member => absurd member List.not_mem_nil, ?_⟩
    rintro ⟨offset, word, _, found⟩
    obtain ⟨name, c, _, _, starts, _⟩ := callAt?_eq_some_iff.mp found
    simp at starts
  | cons c rest ih =>
    rw [callsFrom, List.mem_append, List.mem_append, Option.mem_toList, Option.mem_toList, ih]
    constructor
    · rintro ((found | found) | ⟨offset, word, worded, found⟩)
      · exact ⟨0, "of", .inl rfl, found⟩
      · exact ⟨0, "for", .inr rfl, found⟩
      · exact ⟨offset + 1, word, worded, by rwa [Nat.add_right_comm] at found⟩
    · rintro ⟨offset, word, worded, found⟩
      cases offset with
      | zero =>
        rcases worded with rfl | rfl
        · exact .inl (.inl found)
        · exact .inl (.inr found)
      | succ offset => exact .inr ⟨offset, word, worded, by rwa [← Nat.add_assoc, Nat.add_right_comm] at found⟩

theorem start_of_callAt? {start : Nat} {word text : Text} {call : Call} (found : callAt? start word text = some call) :
    call.start = start := by
  obtain ⟨_, _, _, _, _, rfl⟩ := callAt?_eq_some_iff.mp found
  rfl

theorem callAt?_of_for {start : Nat} {text : Text} {call : Call} (found : callAt? start "of" text = some call) :
    callAt? start "for" text = none := by
  obtain ⟨_, _, _, _, ⟨rest, rfl⟩, _⟩ := callAt?_eq_some_iff.mp found
  rfl

theorem callsFrom_ascending (start : Nat) (text : Text) :
    (callsFrom start text).Pairwise fun one other => one.start < other.start := by
  induction text generalizing start with
  | nil => exact .nil
  | cons c rest ih =>
    rw [callsFrom, List.pairwise_append]
    refine ⟨?_, ih (start + 1), ?_⟩
    · cases found : callAt? start "of" (c :: rest) with
      | none => cases callAt? start "for" (c :: rest) <;> simp
      | some call =>
        rw [callAt?_of_for found]
        exact List.pairwise_singleton _ _
    · intro one here other later
      have place : one.start = start := by
        rcases List.mem_append.mp here with found | found
        · exact start_of_callAt? (Option.mem_toList.mp found)
        · exact start_of_callAt? (Option.mem_toList.mp found)
      obtain ⟨offset, _, _, found⟩ := mem_callsFrom.mp later
      have after := start_of_callAt? found
      omega

namespace Mention

variable {text : Text}

theorem mem_calls {call : Call} : call ∈ callsFrom 0 text ↔ ∃ mention : Mention text, mention.call = call := by
  rw [mem_callsFrom]
  constructor
  · rintro ⟨offset, word, worded, found⟩
    obtain ⟨name, c, whole, ends, starts, rfl⟩ := callAt?_eq_some_iff.mp found
    exact ⟨⟨0 + offset, word, name, worded, whole, c, ends, by rwa [Nat.zero_add]⟩, rfl⟩
  · rintro ⟨mention, rfl⟩
    obtain ⟨c, ends, starts⟩ := mention.ended
    refine ⟨mention.start, mention.word, mention.worded, callAt?_eq_some_iff.mpr ?_⟩
    exact ⟨mention.name, c, mention.whole, ends, starts, by rw [Nat.zero_add]; rfl⟩

theorem map_call {mentions : List (Mention text)} (complete : ∀ mention, mention ∈ mentions)
    (apart : mentions.Pairwise fun one next => one.stop ≤ next.start) : mentions.map call = callsFrom 0 text := by
  have : Std.Irrefl fun one other : Call => one.start < other.start := ⟨fun _ => Nat.lt_irrefl _⟩
  have : Std.Antisymm fun one other : Call => one.start < other.start :=
    ⟨fun _ _ before after => absurd before (Nat.lt_asymm after)⟩
  have ascending : (mentions.map call).Pairwise fun one other => one.start < other.start :=
    List.pairwise_map.mpr (apart.imp fun {one _} before => Nat.lt_of_lt_of_le one.start_lt_stop before)
  refine ascending.eq_of_mem_iff (callsFrom_ascending 0 text) fun call => ?_
  rw [mem_calls, List.mem_map]
  exact ⟨fun ⟨mention, _, same⟩ => ⟨mention, same⟩, fun ⟨mention, same⟩ => ⟨mention, complete mention, same⟩⟩

theorem complete_of_calls {mentions : List (Mention text)} (calls : mentions.map call = callsFrom 0 text)
    (mention : Mention text) : mention ∈ mentions := by
  have member : mention.call ∈ mentions.map call := calls ▸ mem_calls.mpr ⟨mention, rfl⟩
  obtain ⟨other, listed, same⟩ := List.mem_map.mp member
  exact call_injective same ▸ listed

theorem split_call (mention : Mention text) :
    Text.split "." mention.call.text = [mention.word ++ (" ivy" : Text), mention.name] := by
  have free : .char '.' ∉ mention.name := fun member => absurd (mention.whole _ member) (by decide)
  have lead : .char '.' ∉ mention.word ++ (" ivy" : Text) := by
    rcases mention.worded with eq | eq <;> rw [eq] <;> decide
  have parts : mention.spelled = mention.word ++ (" ivy" : Text) ++ .char '.' :: mention.name := by
    rw [spelled, List.append_assoc, List.append_assoc]
    rfl
  rw [call, parts, show (("." : Text)) = [.char '.'] from rfl, split_append, split_free lead, split_free free]
  rfl

theorem name_call (mention : Mention text) : mention.call.name = mention.name := by
  rw [Call.name, split_call]
  rfl

end Mention

section Words
variable {run : Text} (solid : ∀ c ∈ run, isBlank c = false)
include solid

theorem wordsFrom_run (word rest : Text) : wordsFrom word (run ++ rest) = wordsFrom (run.reverse ++ word) rest := by
  induction run generalizing word with
  | nil => rfl
  | cons c run ih =>
    rw [List.cons_append, wordsFrom, if_neg (Bool.eq_false_iff.mp (solid c List.mem_cons_self)),
      ih (fun d member => solid d (List.mem_cons_of_mem _ member)), List.reverse_cons, List.append_assoc,
      List.singleton_append]

theorem words_run (proper : run ≠ []) {c : CodePoint} (blank : isBlank c = true) (rest : Text) :
    words (run ++ c :: rest) = run :: words rest := by
  rw [words, wordsFrom_run solid, List.append_nil, wordsFrom, if_pos blank,
    if_neg (mt List.isEmpty_iff.mp (mt List.reverse_eq_nil_iff.mp proper)), List.reverse_reverse]
  rfl

theorem head_words (proper : run ≠ []) (rest : Text) :
    (words (run ++ rest))[0]? = some (run ++ rest.takeWhile (!isBlank ·)) := by
  have longer : ∀ c ∈ run ++ rest.takeWhile (!isBlank ·), isBlank c = false := by
    intro c member
    rcases List.mem_append.mp member with first | second
    · exact solid c first
    · simpa using List.mem_takeWhile_imp second
  have filled : run ++ rest.takeWhile (!isBlank ·) ≠ [] := by simp [proper]
  have parts : run ++ rest = (run ++ rest.takeWhile (!isBlank ·)) ++ rest.dropWhile (!isBlank ·) := by
    rw [List.append_assoc, List.takeWhile_append_dropWhile]
  rw [parts]
  cases after : rest.dropWhile (!isBlank ·) with
  | nil =>
    rw [words, wordsFrom_run longer, wordsFrom, List.append_nil,
      if_neg (mt List.isEmpty_iff.mp (mt List.reverse_eq_nil_iff.mp filled)), List.reverse_reverse]
    rfl
  | cons c more =>
    have blank : isBlank c = true := by
      have first := List.head_dropWhile_not (!isBlank ·) (after ▸ List.cons_ne_nil c more)
      simpa [after] using first
    rw [words_run longer filled blank]
    rfl

end Words

namespace Mention

variable {text : Text}

theorem words_call (mention : Mention text) :
    (words mention.call.text)[1]? = some (("ivy." : Text) ++ mention.name.takeWhile (!isBlank ·)) := by
  have solid : ∀ c ∈ mention.word, isBlank c = false := by
    rcases mention.worded with eq | eq <;> rw [eq] <;> decide
  have proper : mention.word ≠ [] := by
    rcases mention.worded with eq | eq <;> rw [eq] <;> decide
  have parts : mention.call.text = mention.word ++ .char ' ' :: (("ivy." : Text) ++ mention.name) := by
    rw [call, spelled, List.append_assoc]
    rfl
  rw [parts, words_run solid proper (by decide), List.getElem?_cons_succ]
  exact head_words (by decide) (by decide) mention.name

theorem link?_call (path : Text) (mention : Mention text) :
    mention.call.link? path = if mention.fits path then some (mention.link path) else none := by
  have none_iff : ((Text.split "/" path).filter (Text.mentions mention.name)).isEmpty = !mention.fits path := by
    rw [Bool.eq_iff_iff, List.isEmpty_iff, List.filter_eq_nil_iff, Bool.not_eq_true', fits, List.any_eq_false]
  unfold Call.link?
  simp only [name_call, words_call, none_iff, ← List.countP_eq_length_filter]
  cases mention.fits path <;> rfl

end Mention

theorem filter_starts {α : Type} {keep : α → Bool} {items : List α}
    (first : items.Pairwise fun one next => keep next = true → keep one = true) : items.filter keep <+: items := by
  induction items with
  | nil => exact List.nil_prefix
  | cons item items ih =>
    obtain ⟨here, later⟩ := List.pairwise_cons.mp first
    by_cases kept : keep item = true
    · rw [List.filter_cons_of_pos kept]
      exact List.cons_prefix_cons.mpr ⟨rfl, ih later⟩
    · have none : items.filter keep = [] :=
        List.filter_eq_nil_iff.mpr fun next member held => kept (here next member held)
      rw [List.filter_cons_of_neg kept, none]
      exact List.nil_prefix

theorem zip_of_starts {α : Type} {items more : List α} (starts : items <+: more) :
    more.zip items = items.map fun item => (item, item) := by
  obtain ⟨rest, rfl⟩ := starts
  induction items with
  | nil => simp
  | cons item items ih => simpa using ih

theorem pairwise_zip {α β : Type} {related : α → α → Prop} {items : List α} (pairwise : items.Pairwise related)
    (others : List β) : (items.zip others).Pairwise fun one next => related one.1 next.1 := by
  induction pairwise generalizing others with
  | nil => exact .nil
  | cons first _ ih =>
    cases others with
    | nil => exact .nil
    | cons other others => exact .cons (fun pair member => first pair.1 (List.of_mem_zip member).1) (ih others)

section Linking
variable {text : Text} (path : Text)

/-- The edit that puts the link of one mention in place of another. -/
def linkEdit (pair : Mention text × Mention text) : Edit := ⟨pair.1.start, pair.1.stop, pair.2.link path⟩

theorem makes_link (pair : Mention text × Mention text) :
    Makes text (fun state pair => replaceCall state (pair.1.call, pair.2.link path)) (linkEdit path)
      (·.1.start) pair := by
  refine ⟨Nat.le_refl _, Nat.le_of_lt pair.1.start_lt_stop, pair.1.stop_le, fun reached after => ?_⟩
  refine Prod.ext rfl ?_
  simp only [replaceCall, Mention.call, linkEdit, Edit.growth, Mention.stop]
  omega

theorem filterMap_link? (mentions : List (Mention text)) :
    (mentions.map Mention.call).filterMap (Call.link? path) =
      (mentions.filter (·.fits path)).map (Mention.link path) := by
  induction mentions with
  | nil => rfl
  | cons mention mentions ih =>
    rw [List.map_cons, List.filterMap_cons, mention.link?_call, List.filter_cons, ih]
    cases mention.fits path <;> rfl

end Linking

/-- Mentions that do not overlap. The links of the mentions that fit the path are put, in their order, in place of the
first mentions. If no mention that fits comes after one that does not, each of them gets its own link and all else
stays. -/
theorem linkCalls_mentions (path paragraph : Text) {mentions : List (Mention (uncited paragraph))}
    (complete : ∀ mention, mention ∈ mentions) (apart : mentions.Pairwise fun one next => one.stop ≤ next.start) :
    linkCalls path paragraph =
        patch (uncited paragraph) ((mentions.zip (mentions.filter (·.fits path))).map (linkEdit path)) ∧
      ((mentions.Pairwise fun one next => next.fits path = true → one.fits path = true) →
        linkCalls path paragraph =
          patch (uncited paragraph) ((mentions.filter (·.fits path)).map fun mention =>
            linkEdit path (mention, mention))) := by
  have general : linkCalls path paragraph =
      patch (uncited paragraph) ((mentions.zip (mentions.filter (·.fits path))).map (linkEdit path)) := by
    show (((callsFrom 0 (uncited paragraph)).zip ((callsFrom 0 (uncited paragraph)).filterMap (Call.link? path))).foldl
      replaceCall (uncited paragraph, 0)).1 = _
    rw [← Mention.map_call complete apart, filterMap_link?, List.zip_map, List.foldl_map]
    exact foldl_patch (fun pair _ => makes_link path pair) (pairwise_zip apart _)
  refine ⟨general, fun first => ?_⟩
  rw [general, zip_of_starts (filter_starts first), List.map_map]
  rfl

def sampleParagraph : Text := "Variant of <cite>ivy.abs</cite>. Look for ivy.sin too."

def sampleMentions : List (Mention (uncited sampleParagraph)) := [
  ⟨8, "of", "abs", .inl rfl, by decide, .char '.', by decide, by decide +kernel⟩,
  ⟨25, "for", "sin", .inr rfl, by decide, .char ' ', by decide, by decide +kernel⟩]

theorem linkCalls_mentions_sample :
    linkCalls "functional/ivy/abs/abs_functional.html" sampleParagraph =
      "Variant of <a href=\"../abs/abs_functional.html\">ivy.abs</a>. Look for ivy.sin too." := by
  have complete := Mention.complete_of_calls (show sampleMentions.map Mention.call = _ by decide +kernel)
  have apart : sampleMentions.Pairwise fun one next => one.stop ≤ next.start := by decide +kernel
  refine ((linkCalls_mentions _ sampleParagraph complete apart).2 ?first).trans ?result
  case first => decide +kernel
  case result => decide +kernel

end ApiDocs.Html
