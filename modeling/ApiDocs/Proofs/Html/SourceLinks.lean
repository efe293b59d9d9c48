import ApiDocs.Html.Definitions
import ApiDocs.Proofs.Text.Patch

/-! The links of methods to their source. The definitions are found before the page is edited, and every edit moves
those after it; their places are corrected by what the edits so far have added, so each link is changed as if it were
the only one. -/

set_option autoImplicit false

namespace ApiDocs.Html

open Text

namespace Definition

def linkStart (definition : Definition) : Nat :=
  definition.start + (index? referenceMark definition.line).getD 0 + referenceMark.length

def linkStop (page : Text) (definition : Definition) : Nat :=
  definition.linkStart + (index? "\"><span" (page.drop definition.linkStart)).getD 0

def href (page : Text) (definition : Definition) : Text :=
  (page.take (definition.linkStop page)).drop definition.linkStart

/-- The edit that leads a definition's first reference to the source of the method: the address stays up to the folder
of sources. -/
def sourceEdit (submodule page : Text) (definition : Definition) : Edit where
  start := definition.linkStart
  stop := definition.linkStop page
  new := (definition.href page).take ((index? sourceFolder (definition.href page)).getD 0 + sourceFolder.length) ++
    definition.address submodule

/-- A line that holds one definition, with a reference to the folder of sources whose address ends on the line. -/
structure Linked (page : Text) (definition : Definition) : Prop where
  single : ∀ place, StandsAt definitionMark definition.line place → place = 0
  reference : referenceMark <:+: definition.line
  closed : ("\"><span" : Text) <:+: page.drop definition.linkStart
  sameLine : definition.linkStop page ≤ definition.start + definition.line.length
  source : sourceFolder <:+: definition.href page

end Definition

theorem index?_eq_getD {part text : Text} (found : part <:+: text) :
    index? part text = some ((index? part text).getD 0) := by
  obtain ⟨place, eq⟩ := Option.isSome_iff_exists.mp (isSome_index?.trans (mentions_iff.mpr found))
  rw [eq]
  rfl

theorem index_eq_getD {part text : Text} (found : part <:+: text) :
    index part text = ((index? part text).getD 0 : Nat) := by
  rw [index, index?_eq_getD found]
  rfl

theorem mem_methods {page : Text} {definition : Definition} :
    definition ∈ methods page ↔
      StandsAt definitionMark page definition.start ∧ definition.line = lineAt page definition.start ∧
        definition.isMethod = true := by
  have proper : definitionMark ≠ [] := by decide
  simp only [methods, List.mem_filter, List.mem_map, mem_places proper]
  constructor
  · rintro ⟨⟨start, stands, rfl⟩, method⟩
    exact ⟨stands, rfl, method⟩
  · rintro ⟨stands, line, method⟩
    refine ⟨⟨definition.start, stands, ?_⟩, method⟩
    rw [← line]

theorem methods_ascending (page : Text) : (methods page).Pairwise fun one other => one.start < other.start := by
  refine List.Pairwise.filter _ (List.pairwise_map.mpr ?_)
  exact places_ascending definitionMark page

theorem lineAt_starts (page : Text) (start : Nat) : lineAt page start <+: page.drop start := by
  unfold lineAt slice
  rw [List.drop_take, ← since_ofNat, since]
  exact List.take_prefix _ _

theorem lineAt_newline {page : Text} {start : Nat} (ended : ("\n" : Text) <:+: page.drop start) :
    ∃ after, page.drop start = lineAt page start ++ .char '\n' :: after := by
  have found := index?_eq_getD ended
  generalize (index? "\n" (page.drop start)).getD 0 = length at found
  obtain ⟨⟨after, eq⟩, _, _⟩ := index?_eq_some_iff.mp found
  have line : lineAt page start = (page.drop start).take length := by
    have stop : (start : Int) + index "\n" (page.drop start) = ((start + length : Nat) : Int) := by
      rw [index, found]
      rfl
    rw [lineAt, stop, slice_ofNat, List.drop_take, Nat.add_sub_cancel_left]
  refine ⟨after, ?_⟩
  rw [line, show (.char '\n' :: after : Text) = "\n" ++ after from rfl, eq, List.take_append_drop]

theorem lineAt_unended {page : Text} {start : Nat} (unended : ¬("\n" : Text) <:+: page.drop start)
    (inside : 0 < start) :
    lineAt page start = [] := by
  have stop : (start : Int) + index "\n" (page.drop start) = ((start - 1 : Nat) : Int) := by
    rw [index, index?_eq_none_iff.mpr unended, signed]
    omega
  rw [lineAt, stop, slice_ofNat]
  exact List.drop_eq_nil_of_le (Nat.le_trans (List.length_take_le _ _) (Nat.sub_le _ _))

theorem line_ne_nil {definition : Definition} (method : definition.isMethod = true) : definition.line ≠ [] := by
  intro empty
  rw [Definition.isMethod, Definition.ofArray, empty] at method
  exact absurd method (by decide)

theorem line_before {page : Text} {definition next : Definition} (member : definition ∈ methods page)
    (later : next ∈ methods page) (after : definition.start < next.start) (linked : definition.Linked page) :
    definition.start + definition.line.length ≤ next.start := by
  obtain ⟨_, line, _⟩ := mem_methods.mp member
  obtain ⟨stands, nextLine, method⟩ := mem_methods.mp later
  have nextEnded : ("\n" : Text) <:+: page.drop next.start := by
    by_contra unended
    exact line_ne_nil method (nextLine.trans (lineAt_unended unended (Nat.zero_lt_of_lt after)))
  have ended : ("\n" : Text) <:+: page.drop definition.start := by
    refine nextEnded.trans (List.IsSuffix.isInfix ?_)
    rw [show next.start = definition.start + (next.start - definition.start) by omega, ← List.drop_drop]
    exact List.drop_suffix _ _
  obtain ⟨rest, whole⟩ := lineAt_newline ended
  rw [← line] at whole
  by_contra near
  have inside : StandsAt definitionMark (definition.line ++ .char '\n' :: rest) (next.start - definition.start) := by
    rw [← whole, StandsAt, List.drop_drop,
      show definition.start + (next.start - definition.start) = next.start by omega]
    exact stands
  have again := linked.single _ (inside.before_mark (by decide) (by decide) (by omega))
  omega

namespace Definition.Linked

variable {page : Text} {definition : Definition} (linked : definition.Linked page)
include linked

theorem index_reference (starts : definition.line <+: page.drop definition.start) :
    (definition.start : Int) + index referenceMark (page.drop definition.start) + referenceMark.length =
      definition.linkStart := by
  obtain ⟨rest, whole⟩ := starts
  have found := index?_append (index?_eq_getD linked.reference) (by decide) rest
  rw [whole] at found
  rw [index, found, linkStart]
  simp [signed]

theorem index_closed :
    (definition.linkStart : Int) + index "\"><span" (page.drop definition.linkStart) = definition.linkStop page := by
  rw [index_eq_getD linked.closed, linkStop]
  simp

/-- One step leads one link, at the place where it is by then. -/
theorem makes (member : definition ∈ methods page) (submodule : Text) :
    Makes page (relinkSource submodule) (sourceEdit submodule page) Definition.start definition := by
  obtain ⟨_, line, _⟩ := mem_methods.mp member
  have starts : definition.line <+: page.drop definition.start := line ▸ lineAt_starts page definition.start
  have base : definition.start ≤ definition.linkStart := by unfold linkStart; omega
  have ordered : definition.linkStart ≤ definition.linkStop page := Nat.le_add_right _ _
  have inside : definition.linkStop page ≤ page.length := by
    have size := starts.length_le
    have bound := linked.sameLine
    have proper : 0 < definition.line.length := List.length_pos_iff.mpr (line_ne_nil (mem_methods.mp member).2.2)
    rw [List.length_drop] at size
    omega
  refine ⟨base, ordered, inside, fun {front place shift} reached after => ?_⟩
  have reference := linked.index_reference starts
  have closed := linked.index_closed
  have start : (definition.start : Int) + shift +
      index referenceMark (since (front ++ page.drop place) (definition.start + shift)) + referenceMark.length =
        definition.linkStart + shift := by
    rw [reached.since_later after]
    omega
  have stop : (definition.linkStart : Int) + shift +
      index "\"><span" (since (front ++ page.drop place) (definition.linkStart + shift)) =
        definition.linkStop page + shift := by
    rw [reached.since_later (Nat.le_trans after base)]
    omega
  have old : slice (front ++ page.drop place) (definition.linkStart + shift) (definition.linkStop page + shift) =
      definition.href page := reached.slice_later (Nat.le_trans after base) ordered
  have kept : upTo (definition.href page) (index sourceFolder (definition.href page) + sourceFolder.length) =
      (definition.href page).take ((index? sourceFolder (definition.href page)).getD 0 + sourceFolder.length) := by
    rw [index_eq_getD linked.source, ← Int.natCast_add, upTo_ofNat]
  have length : ((definition.href page).length : Int) = definition.linkStop page - definition.linkStart := by
    rw [href, List.length_drop, List.length_take]
    omega
  unfold relinkSource
  simp only [start, stop, old, kept, length]
  refine Prod.ext rfl ?_
  simp only [sourceEdit, Edit.growth]
  omega

end Definition.Linked

section Series
variable {page : Text} (linked : ∀ definition ∈ methods page, definition.Linked page) (submodule : Text)
include linked

theorem makes_methods :
    ∀ definition ∈ methods page,
      Makes page (relinkSource submodule) (Definition.sourceEdit submodule page) Definition.start definition :=
  fun definition member => (linked definition member).makes member submodule

theorem ordered_methods :
    (methods page).Pairwise fun one other => (Definition.sourceEdit submodule page one).stop ≤ other.start := by
  refine (methods_ascending page).imp_of_mem fun {one other} member later after => ?_
  exact Nat.le_trans (linked one member).sameLine (line_before member later after (linked one member))

end Series

/-- Every link of a method is led to the source of the method, each as if it were the only one, and the page stays as it
was apart from them. -/
theorem relinkSources_methods {page : Text} (linked : ∀ definition ∈ methods page, definition.Linked page)
    (path : Text) :
    Apart page 0 ((methods page).map (Definition.sourceEdit (submoduleOf path) page)) ∧
      relinkSources (submoduleOf path) (methods page) page =
        patch page ((methods page).map (Definition.sourceEdit (submoduleOf path) page)) := by
  have makes := makes_methods linked (submoduleOf path)
  have ordered := ordered_methods linked (submoduleOf path)
  exact ⟨apart_map makes ordered (Nat.zero_le _) fun _ _ => Nat.zero_le _, foldl_patch makes ordered⟩

instance (page : Text) (definition : Definition) : Decidable (definition.Linked page) :=
  decidable_of_iff
    ((∀ place ∈ places definitionMark definition.line, place = 0) ∧ mentions referenceMark definition.line = true ∧
      mentions "\"><span" (page.drop definition.linkStart) = true ∧
      definition.linkStop page ≤ definition.start + definition.line.length ∧
      mentions sourceFolder (definition.href page) = true)
    ⟨fun ⟨single, reference, closed, sameLine, source⟩ =>
      ⟨fun place stands => single place ((mem_places (by decide)).mpr stands), mentions_iff.mp reference,
        mentions_iff.mp closed, sameLine, mentions_iff.mp source⟩,
    fun linked =>
      ⟨fun place member => linked.single place ((mem_places (by decide)).mp member), mentions_iff.mpr linked.reference,
        mentions_iff.mpr linked.closed, linked.sameLine, mentions_iff.mpr linked.source⟩⟩

def linkedPage (first second : Text) : Text :=
  "<dl>\n<dt class=\"sig sig-object py\" id=\"ivy.array_methods.abs\">abs<a class=\"reference internal\" href=\"" ++
    first ++
    "\"><span>source</span></a></dt>\n<dt class=\"sig sig-object py\" id=\"ivy.container_methods.abs\">abs" ++
    "<a class=\"reference internal\" href=\"" ++ second ++ "\"><span>source</span></a></dt>\n</dl>"

def unledPage : Text :=
  linkedPage "_modules/ivy/a.html" "../_modules/ivy/container_methods/container_methods.html#ContainerWithGeneral.abs"

theorem relinkSources_methods_sample :
    relinkSources (submoduleOf "build/functional/ivy/general/abs.html") (methods unledPage) unledPage =
      linkedPage "_modules/ivy/array/general.html#ArrayWithGeneral.abs"
        "../_modules/ivy/container/general.html#ContainerWithGeneral.abs" := by
  refine (relinkSources_methods ?linked _).2.trans ?result
  case linked => decide +kernel
  case result => decide +kernel

end ApiDocs.Html
