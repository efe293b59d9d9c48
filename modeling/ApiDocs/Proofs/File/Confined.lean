import ApiDocs.Proofs.File.Relative
import ApiDocs.Proofs.File.Rounds
import ApiDocs.Proofs.File.Written

/-! What a script may change. Files are written only where it is said, directories are made under names without a dot,
and everything else stays as it is. Paths that are written from the start directory lead where their names say. -/

set_option autoImplicit false

namespace ApiDocs

namespace Path

/-- A text that leads one step down and is read as it is written. -/
structure Literal (text : Text) : Prop extends Single text where
  plain : text.Plain

theorem Word.literal {name : Text} (word : Word name) : Literal name := ⟨word.single, word.plain⟩

theorem Word.page {name : Text} (word : Word name) : Literal (name ++ (".rst" : Text)) :=
  ⟨single_append word.slashless (by decide) (by decide), Text.plain_append.mpr ⟨word.plain, Text.plain_ofChars _⟩⟩

theorem base_names {front : Place} {last : Text} (slashless : .char '/' ∉ last) :
    base (Text.join "/" (front ++ [last])) = last := by
  by_cases alone : front = []
  · rw [alone]
    exact Text.afterLast_free slashless
  · rw [Text.join_last _ alone, List.append_assoc]
    exact Text.afterLast_mark _ slashless

theorem open_names {names : Place} (proper : names ≠ []) (single : ∀ name ∈ names, Single name) :
    Text.join "/" names ≠ [] ∧ (Text.join "/" names).getLast? ≠ some (.char '/') := by
  obtain ⟨front, last, rfl⟩ := (List.eq_nil_or_concat names).resolve_left proper
  rw [List.concat_eq_append] at single ⊢
  have final := single last (by simp)
  apply open_of_base
  rw [base_names final.slashless]
  exact final.proper

theorem names_names {names : Place} (proper : names ≠ []) (single : ∀ name ∈ names, Single name) :
    Path.names (Text.join "/" names) = names := by
  have pieces : Text.split "/" (Text.join "/" names) = names :=
    Text.split_join proper fun name member => (single name member).slashless
  rw [names_eq, if_neg (open_names proper single).2, List.append_nil, parts, pieces, List.filter_eq_self]
  intro name member
  simpa using (single name member).proper

theorem join_names {names : Place} (proper : names ≠ []) (single : ∀ name ∈ names, Single name) {last : Text}
    (relative : last.head? ≠ some (.char '/')) : join (Text.join "/" names) last = Text.join "/" (names ++ [last]) := by
  obtain ⟨nonempty, bare⟩ := open_names proper single
  rw [join_open relative nonempty bare, Text.join_last _ proper, List.append_assoc]
  rfl

def Worded (first path : Text) : Prop :=
  ∃ names : Place, path = Text.join "/" (first :: names) ∧ ∀ name ∈ first :: names, Word name

theorem Worded.directory {first path : Text} (worded : Worded first path) :
    directory path = [] ∨ Worded first (directory path) := by
  obtain ⟨names, rfl, words⟩ := worded
  rcases List.eq_nil_or_concat names with rfl | ⟨front, last, rfl⟩
  · exact .inl (directory_name (words first List.mem_cons_self).slashless)
  · rw [List.concat_eq_append, ← List.cons_append] at words ⊢
    have final := words last (by simp)
    have inner : ∀ name ∈ first :: front, Word name := fun name member => words name (List.mem_append_left _ member)
    have single : ∀ name ∈ first :: front, Single name := fun name member => (inner name member).single
    obtain ⟨proper, bare⟩ := open_names (List.cons_ne_nil _ _) single
    rw [← join_names (List.cons_ne_nil _ _) single fun slash => final.slashless (List.mem_of_head? slash),
      directory_join proper bare final.slashless]
    exact .inr ⟨front, rfl, inner⟩

end Path

theorem Site.locate_names {site : Site} (placed : site.Sound) {first : Text} {names : Place} (apart : site.root ≠ first)
    (literal : ∀ name ∈ first :: names, Path.Literal name) {tree : Tree} {place : Place}
    (located : site.locate tree (Text.join "/" (first :: names)) = .ok place) :
    place = site.start ++ first :: names := by
  have single : ∀ name ∈ first :: names, Path.Single name := fun name member => (literal name member).toSingle
  have head := literal first List.mem_cons_self
  have plain : Text.Plain (Text.join "/" (first :: names)) :=
    Text.plain_join (Text.plain_ofChars _) fun name member => (literal name member).plain
  have begins : Text.join "/" (first :: names) = first ∨
      ∃ rest, Text.join "/" (first :: names) = first ++ .char '/' :: rest := by
    cases names with
    | nil => exact .inl rfl
    | cons name names => exact .inr ⟨Text.join "/" (name :: names), by simp [Text.join, Text.ofChars]⟩
  have relative : (Text.join "/" (first :: names)).head? ≠ some (.char '/') := by
    have other : first.head? ≠ some (.char '/') := fun slash => head.slashless (List.mem_of_head? slash)
    cases first with
    | nil => exact absurd rfl head.proper
    | cons c first =>
      rcases begins with same | ⟨rest, same⟩ <;> rw [same] <;> exact other
  obtain ⟨known, start, rest, accepted, origin, walked⟩ := locate_eq_ok_iff.mp located
  obtain rfl := Path.accept_plain plain accepted
  obtain ⟨_, ⟨fromRoot, _⟩ | ⟨_, _, rfl, rfl⟩⟩ := origin_eq_ok_iff.mp origin
  · exact absurd fromRoot (placed.not_fromRoot apart head.slashless begins relative)
  · rw [Path.names_names (List.cons_ne_nil _ _) single] at walked
    exact walk_names single walked

namespace Tree

/-- Files have been written at some places, directories have been made at others, and nothing else has changed. -/
structure Changed (touched made : Place → Prop) (tree after : Tree) : Prop where
  sound : tree.Sound → after.Sound
  each : ∀ place, after.get? place = tree.get? place ∨
    (touched place ∧ tree.get? place ≠ some .directory ∧ ∃ bytes, after.get? place = some (.file bytes)) ∨
    (tree.get? place = none ∧ after.get? place = some .directory ∧ made place)

/-- Directories are made inside a place only, under names without dots. -/
abbrev Confined (inside : Place) (touched : Place → Prop) : Tree → Tree → Prop :=
  Changed touched fun place => inside <+: place ∧ ∃ name, place.getLast? = some name ∧ Path.Word name

namespace Changed
variable {touched made more : Place → Prop} {tree between after : Tree}

theorem refl (touched made : Place → Prop) (tree : Tree) : Changed touched made tree tree := ⟨id, fun _ => .inl rfl⟩

theorem mono (changed : Changed touched made tree after) (wider : ∀ place, touched place → more place) :
    Changed more made tree after :=
  ⟨changed.sound, fun place => (changed.each place).imp_right (Or.imp_left fun change => ⟨wider place change.1,
    change.2⟩)⟩

theorem keeps (changed : Changed touched made tree after) : tree.KeepsDirectories after := by
  intro place held
  rcases changed.each place with same | ⟨_, vacant, _⟩ | ⟨none, _⟩
  · rw [same, held]
  · exact absurd held vacant
  · rw [none] at held
    cases held

theorem trans (first : Changed touched made tree between) (second : Changed touched made between after) :
    Changed touched made tree after := by
  refine ⟨fun sound => second.sound (first.sound sound), fun place => ?_⟩
  rcases second.each place with same | ⟨here, vacant, written⟩ | ⟨vacant, directory, new⟩
  · rw [same]
    exact first.each place
  · exact .inr (.inl ⟨here, fun held => vacant (first.keeps place held), written⟩)
  · rcases first.each place with same | ⟨_, _, _, held⟩ | ⟨_, held, _⟩
    · exact .inr (.inr ⟨same ▸ vacant, directory, new⟩)
    · rw [vacant] at held
      cases held
    · rw [vacant] at held
      cases held

theorem cumulative (touched made : Place → Prop) : Script.Cumulative (Changed touched made) :=
  ⟨refl touched made, trans⟩

theorem kept (changed : Changed touched made tree after) {place : Place} (apart : ¬touched place) {entry : Entry}
    (held : tree.get? place = some entry) : after.get? place = some entry := by
  rcases changed.each place with same | ⟨here, _⟩ | ⟨none, _⟩
  · rw [same, held]
  · exact absurd here apart
  · rw [none] at held
    cases held

end Changed

theorem Confined.same {inside : Place} {touched : Place → Prop} {tree after : Tree}
    (confined : Confined inside touched tree after) {front : Place} {name : Text} (apart : ¬touched (front ++ [name]))
    (dotted : .char '.' ∈ name) : after.get? (front ++ [name]) = tree.get? (front ++ [name]) := by
  rcases confined.each (front ++ [name]) with same | ⟨here, _⟩ | ⟨_, _, _, last, ends, word⟩
  · exact same
  · exact absurd here apart
  · rw [List.getLast?_append] at ends
    cases ends
    exact absurd dotted word.dotless

theorem Written.changed {touched made : Place → Prop} {tree after : Tree} {place : Place} {bytes : Bytes}
    (written : Written place bytes tree after) (here : touched place) : Changed touched made tree after := by
  refine ⟨written.sound, fun other => ?_⟩
  by_cases same : other = place
  · subst same
    exact .inr (.inl ⟨here, written.vacant, bytes, written.here⟩)
  · exact .inl (written.others other same)

end Tree

namespace Script
variable {site : Site} {tree after : Tree} {inside : Place} {touched : Place → Prop}

/-- A loop that writes one file a round leaves the other files, and its own as they should be if they are different. -/
theorem Rounds.written {α : Type} {items : List α} {place : α → Place} {content : α → Bytes}
    (rounds : Rounds (fun item tree after => Tree.Written (place item) (content item) tree after) items tree after) :
    (∀ other, (∀ item ∈ items, other ≠ place item) → after.get? other = tree.get? other) ∧
      (items.Pairwise (fun item other => place item ≠ place other) →
        ∀ item ∈ items, after.get? (place item) = some (.file (content item))) := by
  induction rounds with
  | nil tree => exact ⟨fun _ _ => rfl, fun _ item member => absurd member List.not_mem_nil⟩
  | @cons item items tree between after first rest ih =>
    refine ⟨fun other apart => ?_, fun different chosen member => ?_⟩
    · rw [ih.1 other fun item inside => apart item (List.mem_cons_of_mem _ inside)]
      exact first.others other (apart item List.mem_cons_self)
    · obtain ⟨apart, different⟩ := List.pairwise_cons.mp different
      rcases List.mem_cons.mp member with rfl | inside
      · rw [ih.1 (place chosen) apart]
        exact first.here
      · exact ih.2 different chosen inside

theorem Rounds.confined {α : Type} {items : List α} {round : α → Tree → Tree → Prop}
    (rounds : Rounds round items tree after)
    (each : ∀ item ∈ items, ∀ now next, Tree.Confined inside touched tree now → round item now next →
      Tree.Confined inside touched now next) :
    Tree.Confined inside touched tree after :=
  rounds.keeps (Tree.Confined inside touched tree) (.refl touched _ tree) fun item member now next before round =>
    before.trans (each item member now next before round)

theorem changed_put {made : Place → Prop} {path : Text} {place : Place} (located : site.locate tree path = .ok place)
    (vacant : tree.get? place = none) (new : made place) :
    Tree.Changed touched made tree (tree.put place .directory) := by
  have widened := widened_put located vacant
  refine ⟨widened.sound, fun other => ?_⟩
  by_cases same : place = other
  · subst same
    exact .inr (.inr ⟨vacant, Tree.get?_put_self _ (by simp [vacant]), new⟩)
  · exact .inl (Tree.get?_put_apart _ _ same)

theorem respects_makeDirectory_worded (placed : site.Sound) {first : Text} (apart : site.root ≠ first) {path : Text}
    (worded : Path.Worded first path) : Respects site (Tree.Confined (site.start ++ [first]) touched)
      (makeDirectory path) := by
  obtain ⟨names, rfl, words⟩ := worded
  intro tree
  rcases runOn_makeDirectory (Text.join "/" (first :: names)) site tree with ⟨fault, run⟩ | ⟨path, place, accepted,
    located, vacant, run⟩
  · rw [run]
    exact .refl touched _ tree
  · rw [run]
    have plain : Text.Plain (Text.join "/" (first :: names)) :=
      Text.plain_join (Text.plain_ofChars _) fun name member => (words name member).plain
    obtain rfl := Path.accept_plain plain accepted
    rw [Path.dropSlashes_open (Path.open_names (List.cons_ne_nil _ _) fun name member =>
      (words name member).single).2] at located
    obtain rfl := Site.locate_names placed apart (fun name member => (words name member).literal) located
    have final : (site.start ++ first :: names).getLast? = some ((first :: names).getLast (List.cons_ne_nil _ _)) := by
      rw [List.getLast?_append, List.getLast?_eq_some_getLast (List.cons_ne_nil first names)]
      rfl
    exact changed_put located vacant ⟨⟨names, by simp⟩, _, final, words _ (List.getLast_mem _)⟩

/-- Directories are made under the names of the path. -/
theorem confined_makeDirectories (placed : site.Sound) {first : Text} {names : Place} (apart : site.root ≠ first)
    (words : ∀ name ∈ first :: names, Path.Word name) {existing : Bool} {outcome : Except Fault Unit}
    (run : (makeDirectories (Text.join "/" (first :: names)) existing).runOn site tree = (outcome, after)) :
    Tree.Confined (site.start ++ [first]) touched tree after := by
  have respects : Respects site (Tree.Confined (site.start ++ [first]) touched)
      (makeDirectories (Text.join "/" (first :: names)) existing) :=
    respects_makeDirectoriesUpTo (Tree.Changed.cumulative touched _) (fun _ worded => worded.directory)
      (fun _ worded => respects_makeDirectory_worded placed apart worded) existing _ ⟨names, rfl, words⟩
  have result := respects tree
  rwa [run] at result

end Script
end ApiDocs
