import ApiDocs.Proofs.Module.Contents
import ApiDocs.Proofs.Text.Cuts

/-! Definitions by lines. A module is cut where a newline and a word stand, so the definitions that it has are those of
its lines that begin with the word, the first line apart, and each of them takes in the lines up to the next. A function
is found on every line but the first. -/

set_option autoImplicit false

namespace ApiDocs

namespace Text

theorem beforeFirst_lead {mark : CodePoint} {lead : Text} (free : mark ∉ lead) (rest : Text) :
    beforeFirst mark (lead ++ rest) = lead ++ beforeFirst mark rest :=
  List.takeWhile_append_of_pos fun _ member => bne_iff_ne.mpr fun same => free (same ▸ member)

end Text

namespace Module
open Text

/-- A line that begins with a word: what comes after the word, and the lines below up to the next that begins with
it. -/
structure Header where
  line : Text
  below : List Text
  deriving DecidableEq

def headers (word : Text) : List Text → List Header
  | [] => []
  | line :: later =>
    if word.isPrefixOf line then ⟨line.drop word.length, later.takeWhile (!word.isPrefixOf ·)⟩ :: headers word later
    else headers word later

def Header.part (header : Header) : Text := join "\n" (header.line :: header.below)

/-- What is taken for the name: all that comes before a parenthesis. -/
def Header.title (header : Header) : Text := beforeFirst '(' header.part

theorem mem_headers {word : Text} {lines : List Text} {header : Header} (member : header ∈ headers word lines) :
    word ++ header.line ∈ lines := by
  induction lines with
  | nil => cases member
  | cons line later ih =>
    rw [headers] at member
    split at member
    · rename_i starts
      obtain ⟨rest, rfl⟩ := List.isPrefixOf_iff_prefix.mp starts
      rcases List.mem_cons.mp member with rfl | inside
      · simp
      · exact List.mem_cons_of_mem _ (ih inside)
    · exact List.mem_cons_of_mem _ (ih member)

theorem Header.part_of_line {header : Header} {name rest : Text} {mark : CodePoint}
    (line : header.line = name ++ mark :: rest) :
    header.part = name ++ mark :: join "\n" (rest :: header.below) := by
  rw [part, line, join_lead]
  exact congrArg (name ++ ·) (join_lead "\n" [mark] rest header.below)

theorem Header.title_of_paren {header : Header} {name rest : Text} (free : .char '(' ∉ name)
    (line : header.line = name ++ .char '(' :: rest) : header.title = name := by
  rw [title, part_of_line line]
  exact beforeFirst_append free _

/-- Cutting at a newline and a word gives the lines up to the first header, and then the part of each header. -/
theorem split_headers {word : Text} (single : .char '\n' ∉ word) (first : Text) (later : List Text)
    (free : ∀ line ∈ first :: later, .char '\n' ∉ line) :
    split ("\n" ++ word) (join "\n" (first :: later)) =
      join "\n" (first :: later.takeWhile (!word.isPrefixOf ·)) :: (headers word later).map Header.part := by
  -- over the lines: the next one either begins a new piece or goes on with the piece of the line before it
  induction later generalizing first with
  | nil =>
    have alone : split (.char '\n' :: word) (first ++ []) = (first ++ []) :: [] :=
      split_lead (free first List.mem_cons_self) rfl
    rw [List.append_nil] at alone
    exact alone
  | cons line later ih =>
    have here := free first List.mem_cons_self
    have there : ∀ other ∈ line :: later, .char '\n' ∉ other :=
      fun other member => free other (List.mem_cons_of_mem first member)
    have whole : join "\n" (first :: line :: later) = first ++ .char '\n' :: join "\n" (line :: later) := by
      rw [join_cons (List.cons_ne_nil _ _), List.append_assoc]
      rfl
    by_cases starts : word.isPrefixOf line = true
    · obtain ⟨rest, rfl⟩ := List.isPrefixOf_iff_prefix.mp starts
      have inner : ∀ other ∈ rest :: later, .char '\n' ∉ other := by
        intro other member
        rcases List.mem_cons.mp member with rfl | inside
        · exact fun newline => there _ List.mem_cons_self (List.mem_append_right word newline)
        · exact there other (List.mem_cons_of_mem _ inside)
      have begin : split (.char '\n' :: word) (.char '\n' :: word ++ join "\n" (rest :: later)) =
          [] :: split (.char '\n' :: word) (join "\n" (rest :: later)) := split_start (List.cons_ne_nil _ _) _
      have lead := split_lead here begin
      rw [List.append_nil] at lead
      rw [whole, join_lead, headers, if_pos starts, List.takeWhile_cons_of_neg (by simp [starts]), List.map_cons,
        List.drop_left]
      exact lead.trans (congrArg (first :: ·) (ih rest inner))
    · have absent : ¬(.char '\n' :: word).isPrefixOf (.char '\n' :: join "\n" (line :: later)) = true := by
        rw [List.isPrefixOf_iff_prefix, List.cons_prefix_cons]
        rintro ⟨_, begins⟩
        refine starts (List.isPrefixOf_iff_prefix.mpr ?_)
        cases later with
        | nil => exact begins
        | cons next later =>
          rw [join_cons (List.cons_ne_nil _ _), List.append_assoc] at begins
          exact prefix_of_mark single begins
      have onward : split (.char '\n' :: word) (.char '\n' :: join "\n" (line :: later)) =
          (.char '\n' :: join "\n" (line :: later.takeWhile (!word.isPrefixOf ·))) :: (headers word later).map
            Header.part := by
        rw [split, splitSkipping, if_neg absent]
        exact congrArg (consFirst (.char '\n')) (ih line there)
      rw [whole, headers, if_neg starts, List.takeWhile_cons_of_pos (by simp [starts]),
        join_cons (List.cons_ne_nil _ _), List.append_assoc]
      exact split_lead here onward

theorem namesAfter_eq {word : Text} (single : .char '\n' ∉ word) (text : Text) :
    namesAfter word text = (headers word (split "\n" text).tail).map Header.title := by
  obtain ⟨first, later, lines⟩ := List.exists_cons_of_ne_nil (split_ne_nil "\n" text)
  have cut := split_headers single first later fun line member => split_noMark (lines ▸ member)
  rw [← lines, join_split (by decide)] at cut
  rw [namesAfter, cut, lines, List.tail_cons, List.tail_cons, List.map_map]
  rfl

/-- A line that begins with a word goes on with a name and a parenthesis. -/
def Headed (word line : Text) : Prop :=
  word <+: line → ∃ name rest, line = word ++ name ++ .char '(' :: rest ∧ Path.Word name ∧ .char '(' ∉ name

def isHeaded (word line : Text) : Bool :=
  !word.isPrefixOf line || (line.drop word.length).contains (.char '(') &&
    Path.isWord (beforeFirst '(' (line.drop word.length))

theorem headed_of_all {word : Text} {lines : List Text} (check : lines.all (isHeaded word) = true) :
    ∀ line ∈ lines, Headed word line := by
  rintro line member ⟨after, rfl⟩
  have starts : word.isPrefixOf (word ++ after) = true := List.isPrefixOf_iff_prefix.mpr (List.prefix_append word after)
  have checked := List.all_eq_true.mp check _ member
  rw [isHeaded, starts, List.drop_left, Bool.not_true, Bool.false_or, Bool.and_eq_true,
    List.contains_iff_mem] at checked
  obtain ⟨name, rest, rfl, free⟩ := List.eq_append_cons_of_mem checked.1
  rw [beforeFirst_append free] at checked
  exact ⟨name, rest, (List.append_assoc ..).symm, Path.word_of_isWord checked.2, free⟩

def headedNames (word : Text) (lines : List Text) : List Text :=
  (lines.filter (word.isPrefixOf ·)).map fun line => beforeFirst '(' (line.drop word.length)

/-- The name on a header's line is all that is taken for the name. -/
theorem headedNames_eq {word : Text} {lines : List Text} (headed : ∀ line ∈ lines, Headed word line) :
    (headers word lines).map Header.title = headedNames word lines := by
  induction lines with
  | nil => rfl
  | cons line later ih =>
    have rest := ih fun other member => headed other (List.mem_cons_of_mem line member)
    rw [headers, headedNames]
    by_cases starts : word.isPrefixOf line = true
    · obtain ⟨name, more, eq, _, free⟩ := headed line List.mem_cons_self (List.isPrefixOf_iff_prefix.mp starts)
      have after : line.drop word.length = name ++ .char '(' :: more := by rw [eq, List.append_assoc, List.drop_left]
      rw [if_pos starts, List.filter_cons_of_pos starts, List.map_cons, List.map_cons, Header.title_of_paren free after,
        after, beforeFirst_append free]
      exact congrArg (name :: ·) rest
    · rw [if_neg starts, List.filter_cons_of_neg starts]
      exact rest

theorem titled_of_headed {word text : Text} (single : .char '\n' ∉ word)
    (headed : ∀ line ∈ (split "\n" text).tail, Headed word line) : Titled word text := by
  obtain ⟨first, later, lines⟩ := List.exists_cons_of_ne_nil (split_ne_nil "\n" text)
  have cut := split_headers single first later fun line member => split_noMark (lines ▸ member)
  rw [← lines, join_split (by decide)] at cut
  rw [lines, List.tail_cons] at headed
  intro item member
  rw [cut, List.tail_cons] at member
  obtain ⟨header, inside, rfl⟩ := List.mem_map.mp member
  obtain ⟨name, rest, eq, proper, free⟩ := headed _ (mem_headers inside) (List.prefix_append word header.line)
  rw [List.append_assoc, List.append_cancel_left_eq] at eq
  exact ⟨name, _, Header.part_of_line eq, proper, free⟩

def publicFunctions (lines : List Text) : List Text := (headedNames "def " lines).filter (·.head? != some (.char '_'))

theorem publicFunctions_cons_iff {first : Text} (headed : Headed "def " first) (later : List Text) :
    publicFunctions later = publicFunctions (first :: later) ↔
      (("def " : Text) <+: first → ("def _" : Text) <+: first) := by
  by_cases starts : ("def " : Text) <+: first
  · obtain ⟨name, rest, rfl, word, free⟩ := headed starts
    obtain ⟨c, name, rfl⟩ := List.exists_cons_of_ne_nil word.proper
    have names : headedNames "def " ((("def " : Text) ++ (c :: name) ++ .char '(' :: rest) :: later) =
        (c :: name) :: headedNames "def " later := by
      rw [headedNames, List.filter_cons_of_pos (List.isPrefixOf_iff_prefix.mpr starts), List.map_cons,
        List.append_assoc, List.drop_left, beforeFirst_append free]
      rfl
    have private_iff : ("def _" : Text) <+: ("def " : Text) ++ (c :: name) ++ .char '(' :: rest ↔ c = .char '_' := by
      rw [List.append_assoc, show ("def _" : Text) = ("def " : Text) ++ [.char '_'] from rfl,
        List.prefix_append_right_inj]
      exact List.cons_prefix_cons.trans ⟨fun both => both.1.symm, fun same => ⟨same.symm, List.nil_prefix⟩⟩
    rw [publicFunctions, publicFunctions, names, private_iff]
    by_cases hidden : c = .char '_'
    · simp [hidden]
    · rw [List.filter_cons_of_pos (by simpa using hidden)]
      simp [hidden]
  · have none : headedNames "def " (first :: later) = headedNames "def " later := by
      rw [headedNames, List.filter_cons_of_neg fun begins => starts (List.isPrefixOf_iff_prefix.mp begins)]
      rfl
    rw [publicFunctions, publicFunctions, none]
    exact iff_of_true rfl fun begins => absurd begins starts

theorem runOn_read_found {site : Site} {tree : Tree} {path : Text} {place : Place} {bytes : Bytes} {text : Text}
    (found : site.find tree path = .ok (place, .file bytes)) (decoded : text = unifyNewlines (Utf8.decodeLenient bytes))
    (dotted : Text) : (read path dotted).runOn site tree = (contents text dotted, tree) := by
  rw [read, Script.runOn_bind, Script.runOn_readLenient_of site tree found, Script.andThen_ok, Script.runOn_ofExcept_id,
    ← decoded]

/-- The functions of a module file are those for everyone on its lines, in their order, but for the first line. -/
theorem read_functions {site : Site} {tree : Tree} {path : Text} {place : Place} {bytes : Bytes} {text : Text}
    (found : site.find tree path = .ok (place, .file bytes)) (decoded : text = unifyNewlines (Utf8.decodeLenient bytes))
    (headed : ∀ line ∈ split "\n" text, Headed "def " line) (dotted : Text) :
    ∃ first later, split "\n" text = first :: later ∧
      (read path dotted).runOn site tree =
        (.ok ((publicFunctions later).map (dotted ++ "." ++ ·), (classNames text).map (dotted ++ "." ++ ·)), tree) ∧
      (publicFunctions later = publicFunctions (first :: later) ↔
        (("def " : Text) <+: first → ("def _" : Text) <+: first)) := by
  obtain ⟨first, later, lines⟩ := List.exists_cons_of_ne_nil (split_ne_nil "\n" text)
  have below : ∀ line ∈ (split "\n" text).tail, Headed "def " line :=
    fun line member => headed line (List.mem_of_mem_tail member)
  have names : functionNames text = publicFunctions later := by
    rw [functionNames, namesAfter_eq (by decide), headedNames_eq below, lines]
    rfl
  refine ⟨first, later, lines, ?_, publicFunctions_cons_iff (headed first (lines ▸ List.mem_cons_self)) later⟩
  rw [runOn_read_found found decoded, contents_eq (titled_of_headed (by decide) below), names]

def functionsSite : Site := .ascending "/w" ["docs"]

def functionsModule : Text := "def f(x):\n\ndef _g():\ndef h(y):\n"

def functionsTree : Tree :=
  ⟨[(["docs"], .directory), (["lib"], .directory), (["lib", "m.py"], .file (Utf8.bytesOf functionsModule))]⟩

theorem read_functions_sample :
    (read "../lib/m.py" "lib.m").runOn functionsSite functionsTree = (.ok ([("lib.m.h" : Text)], []), functionsTree) ∧
      publicFunctions (split "\n" functionsModule) = [("f" : Text), "h"] := by
  have evaluated : functionsSite.find functionsTree "../lib/m.py" =
    .ok (["lib", "m.py"], .file (Utf8.bytesOf functionsModule)) ∧
      functionsModule = unifyNewlines (Utf8.decodeLenient (Utf8.bytesOf functionsModule)) ∧
      (split "\n" functionsModule).all (isHeaded "def ") = true ∧ classNames functionsModule = [] ∧
      publicFunctions (split "\n" functionsModule).tail = [("h" : Text)] ∧
      publicFunctions (split "\n" functionsModule) = [("f" : Text), "h"] := by decide +kernel
  obtain ⟨there, decoded, headed, classes, below, all⟩ := evaluated
  obtain ⟨first, later, lines, run, _⟩ := read_functions there decoded (headed_of_all headed) "lib.m"
  rw [lines, List.tail_cons] at below
  refine ⟨?_, all⟩
  rw [run, classes, below]
  rfl

end Module
end ApiDocs
