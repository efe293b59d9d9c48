import ApiDocs.Module
import ApiDocs.Proofs.File.Directory
import ApiDocs.Proofs.Text.Pieces

/-! The functions and classes that a text defines, when every definition has a name of its own before its
parenthesis. -/

set_option autoImplicit false

namespace ApiDocs

theorem Text.afterLast_dotted (dotted : Text) {name : Text} (dotless : .char '.' ∉ name) :
    afterLast '.' (dotted ++ "." ++ name) = name := by
  rw [show dotted ++ "." ++ name = dotted ++ .char '.' :: name by simp [Text.ofChars]]
  exact afterLast_mark dotted dotless

namespace Module
open Text

theorem afterLast_member (dotted name : Text) : afterLast '.' (dotted ++ "." ++ name) = afterLast '.' name := by
  obtain ⟨free, alone | ⟨lead, whole⟩⟩ := afterLast_spec '.' name
  · rw [← alone] at free
    rw [afterLast_dotted dotted free, afterLast_free free]
  · conv_lhs => rw [whole, ← List.append_assoc]
    exact afterLast_mark _ free

theorem filterAuxM_eq_ok_iff {α : Type} {test : α → Except Fault Bool} {items kept found : List α} :
    items.filterAuxM test kept = .ok found ↔
      (∀ item ∈ items, ∃ answer, test item = .ok answer) ∧
        found = (items.filter fun item => (test item).toOption.getD false).reverse ++ kept := by
  induction items generalizing kept with
  | nil => simp [List.filterAuxM, pure, Except.pure, eq_comm]
  | cons item items ih =>
    rw [List.filterAuxM]
    cases answer : test item with
    | error fault => simp [answer, bind, Except.bind]
    | ok holds =>
      simp only [bind, Except.bind]
      rw [ih]
      cases holds <;> simp [answer, Except.toOption]

theorem filterM_eq_ok_iff {α : Type} {test : α → Except Fault Bool} {items found : List α} :
    items.filterM test = .ok found ↔
      (∀ item ∈ items, ∃ answer, test item = .ok answer) ∧
        found = items.filter fun item => (test item).toOption.getD false := by
  unfold List.filterM
  cases aux : items.filterAuxM test [] with
  | error fault =>
    simp only [bind, Except.bind, reduceCtorEq, false_iff]
    rintro ⟨all, _⟩
    rw [filterAuxM_eq_ok_iff.mpr ⟨all, rfl⟩] at aux
    cases aux
  | ok kept =>
    obtain ⟨all, rfl⟩ := filterAuxM_eq_ok_iff.mp aux
    simp only [bind, Except.bind, pure, Except.pure, Except.ok.injEq, List.append_nil, List.reverse_reverse]
    exact ⟨fun eq => ⟨all, eq.symm⟩, fun both => both.2.symm⟩

theorem filterAuxM_eq_error {α : Type} {test : α → Except Fault Bool} {items kept : List α} {fault : Fault}
    (failed : items.filterAuxM test kept = .error fault) : ∃ item ∈ items, test item = .error fault := by
  induction items generalizing kept with
  | nil => cases failed
  | cons item items ih =>
    rw [List.filterAuxM] at failed
    cases answer : test item with
    | error other =>
      rw [answer] at failed
      obtain rfl : other = fault := Except.error.inj failed
      exact ⟨item, List.mem_cons_self, answer⟩
    | ok holds =>
      rw [answer] at failed
      obtain ⟨other, member, same⟩ := ih failed
      exact ⟨other, List.mem_cons_of_mem item member, same⟩

theorem filterM_eq_error {α : Type} {test : α → Except Fault Bool} {items : List α} {fault : Fault}
    (failed : items.filterM test = .error fault) : ∃ item ∈ items, test item = .error fault := by
  unfold List.filterM at failed
  cases aux : items.filterAuxM test [] with
  | error other =>
    rw [aux] at failed
    obtain rfl : other = fault := Except.error.inj failed
    exact filterAuxM_eq_error aux
  | ok kept =>
    rw [aux] at failed
    cases failed

/-- The names that follow a word at the start of a line, up to a parenthesis. -/
def namesAfter (word text : Text) : List Text := (split ("\n" ++ word) text).tail.map (beforeFirst '(')

theorem defined_eq (word dotted text : Text) :
    defined word dotted text = (namesAfter word text).map (dotted ++ "." ++ ·) := by
  rw [defined, namesAfter, List.map_map]
  rfl

def functionNames (text : Text) : List Text := (namesAfter "def " text).filter (·.head? != some (.char '_'))

def classNames (text : Text) : List Text := namesAfter "class " text

/-- After every such word stand a name and a parenthesis. -/
def Titled (word text : Text) : Prop :=
  ∀ item ∈ (split ("\n" ++ word) text).tail, ∃ name rest, item = name ++ .char '(' :: rest ∧ Path.Word name ∧
    .char '(' ∉ name

theorem Titled.word {word text : Text} (titled : Titled word text) : ∀ name ∈ namesAfter word text, Path.Word name := by
  intro name member
  obtain ⟨item, inside, rfl⟩ := List.mem_map.mp member
  obtain ⟨name, rest, rfl, proper, free⟩ := titled item inside
  rwa [beforeFirst_append free]

def isTitled (word text : Text) : Bool :=
  (split ("\n" ++ word) text).tail.all fun item => item.contains (.char '(') && Path.isWord (beforeFirst '(' item)

theorem titled_of_isTitled {word text : Text} (check : isTitled word text = true) : Titled word text := by
  intro item member
  have checked := List.all_eq_true.mp check item member
  rw [Bool.and_eq_true, List.contains_iff_mem] at checked
  obtain ⟨name, rest, rfl, free⟩ := List.eq_append_cons_of_mem checked.1
  rw [beforeFirst_append free] at checked
  exact ⟨name, rest, rfl, Path.word_of_isWord checked.2, free⟩

theorem contents_eq {text : Text} (titled : Titled "def " text) (dotted : Text) :
    contents text dotted =
      .ok ((functionNames text).map (dotted ++ "." ++ ·), (classNames text).map (dotted ++ "." ++ ·)) := by
  have answer : ∀ name ∈ namesAfter "def " text,
      isPublic (dotted ++ "." ++ name) = .ok (name.head? != some (.char '_')) := by
    intro name member
    have word := titled.word name member
    rw [isPublic, afterLast_dotted dotted word.dotless]
    cases name with
    | nil => exact absurd rfl word.proper
    | cons c name => exact congrArg Except.ok (congrArg not Option.some_beq_some.symm)
  have kept : (defined "def " dotted text).filterM isPublic = .ok ((functionNames text).map (dotted ++ "." ++ ·)) := by
    rw [defined_eq]
    refine filterM_eq_ok_iff.mpr ⟨fun item member => ?_, ?_⟩
    · obtain ⟨name, inside, rfl⟩ := List.mem_map.mp member
      exact ⟨_, answer name inside⟩
    · rw [functionNames, List.filter_map]
      refine congrArg _ (List.filter_congr fun name member => ?_)
      rw [Function.comp, answer name member]
      rfl
  rw [contents, kept, defined_eq]
  rfl

/-- The classes of a text are found, unless a function has no name. -/
theorem contents_cases (text dotted : Text) :
    (∃ functions, contents text dotted = .ok (functions, (classNames text).map (dotted ++ "." ++ ·))) ∨
      contents text dotted = .error .functionUnnamed ∧ ∃ name ∈ namesAfter "def " text, afterLast '.' name = [] := by
  rw [contents, defined_eq "class "]
  cases kept : (defined "def " dotted text).filterM isPublic with
  | ok functions => exact .inl ⟨functions, rfl⟩
  | error fault =>
    obtain ⟨item, member, failed⟩ := filterM_eq_error kept
    rw [defined_eq] at member
    obtain ⟨name, inside, rfl⟩ := List.mem_map.mp member
    rw [isPublic, afterLast_member] at failed
    cases own : afterLast '.' name with
    | nil =>
      rw [own] at failed
      obtain rfl := Except.error.inj failed
      exact .inr ⟨rfl, name, inside, own⟩
    | cons c rest =>
      rw [own] at failed
      cases failed

theorem runOn_read_ok {path dotted : Text} {site : Site} {tree after : Tree} {found : List Text × List Text}
    (run : (read path dotted).runOn site tree = (.ok found, after)) :
    after = tree ∧ ∃ place bytes, site.find tree path = .ok (place, .file bytes) ∧
      contents (unifyNewlines (Utf8.decodeLenient bytes)) dotted = .ok found := by
  obtain ⟨text, between, reading, rest⟩ := Script.runOn_bind_ok run
  obtain ⟨rfl, place, bytes, there, rfl⟩ := Script.runOn_readLenient_ok site tree reading
  rw [Script.runOn_ofExcept_id] at rest
  obtain ⟨read, rfl⟩ := Prod.mk.inj rest
  exact ⟨rfl, place, bytes, there, read⟩

end Module
end ApiDocs
