import ApiDocs.Proofs.File.Name
import ApiDocs.Proofs.File.Resolution
import ApiDocs.Proofs.File.Shape
import ApiDocs.Proofs.Text.Pieces
import Mathlib.Data.List.Induction

/-! Names in a directory. A directory and the name of an entry are joined to a path that leads to the
entry, unless the path gets too long. -/

set_option autoImplicit false

namespace ApiDocs

namespace Path

/-- What an entry of a directory can be called. -/
structure Named (name : Text) : Prop where
  nonempty : name ≠ []
  noSlash : .char '/' ∉ name
  notHere : name ≠ "."
  notAbove : name ≠ ".."
  short : size name ≤ nameLimit
  sound : ∃ bytes, Utf8.Spelled name bytes ∧ 0 ∉ bytes ∧ Utf8.decodeName bytes = name

/-- A text that leads one step down. -/
structure Single (text : Text) : Prop where
  proper : text ≠ []
  slashless : .char '/' ∉ text
  notHere : text ≠ "."
  notAbove : text ≠ ".."

theorem single_of_dotless {text : Text} (proper : text ≠ []) (slashless : .char '/' ∉ text)
    (dotless : .char '.' ∉ text) :
    Single text := by
  refine ⟨proper, slashless, ?_, ?_⟩ <;> rintro rfl <;> exact dotless (by decide)

theorem single_append {lead ending : Text} (slashless : .char '/' ∉ lead) (free : .char '/' ∉ ending)
    (long : 2 < ending.length) : Single (lead ++ ending) := by
  have longer : ∀ other : Text, other.length ≤ 2 → lead ++ ending ≠ other := by
    rintro other small rfl
    rw [List.length_append] at small
    omega
  refine ⟨longer [] (by decide), fun member => ?_, longer "." (by decide), longer ".." (by decide)⟩
  exact (List.mem_append.mp member).elim slashless free

theorem Named.single {name : Text} (named : Named name) : Single name :=
  ⟨named.nonempty, named.noSlash, named.notHere, named.notAbove⟩

/-- A name without dots, of proper characters. -/
structure Word (name : Text) : Prop where
  plain : name.Plain
  proper : name ≠ []
  slashless : .char '/' ∉ name
  dotless : .char '.' ∉ name

theorem Word.single {name : Text} (word : Word name) : Single name :=
  single_of_dotless word.proper word.slashless word.dotless

def isWord (name : Text) : Bool :=
  !name.any CodePoint.isSurrogate && name != [] && !name.contains (.char '/') && !name.contains (.char '.')

theorem word_of_isWord {name : Text} (check : isWord name = true) : Word name := by
  simp only [isWord, Bool.and_eq_true, Bool.not_eq_true', bne_iff_ne, ne_eq, List.any_eq_false, List.contains_eq_mem,
    decide_eq_false_iff_not] at check
  obtain ⟨⟨⟨plain, proper⟩, slashless⟩, dotless⟩ := check
  exact ⟨fun c member => by simpa using plain c member, proper, slashless, dotless⟩

def parts (path : Text) : List Text := (Text.split "/" path).filter (!·.isEmpty)

theorem names_eq (path : Text) :
    names path = parts path ++ (if path.getLast? = some (.char '/') then [("." : Text)] else []) := rfl

theorem parts_slash (first second : Text) :
    parts (first ++ .char '/' :: second) = parts first ++ parts second := by
  unfold parts
  rw [← List.filter_append]
  exact congrArg _ (Text.split_append _ first second)

theorem parts_nil : parts [] = [] := rfl

theorem Named.parts {name : Text} (named : Named name) : parts name = [name] := by
  unfold Path.parts
  rw [show Text.split "/" name = [name] from Text.split_free named.noSlash]
  simp [named.nonempty]

theorem Named.getLast? {name : Text} (named : Named name) : name.getLast? ≠ some (.char '/') :=
  fun last => named.noSlash (List.mem_of_getLast? last)

theorem Named.head? {name : Text} (named : Named name) : name.head? ≠ some (.char '/') :=
  fun head => named.noSlash (List.mem_of_head? head)

theorem join_mark {directory name : Text} (proper : directory ≠ []) (relative : name.head? ≠ some (.char '/')) :
    ∃ lead, join directory name = lead ++ .char '/' :: name ∧
      (directory = lead ∧ lead ≠ [] ∧ lead.getLast? ≠ some (.char '/') ∨ directory = lead ++ [.char '/']) := by
  unfold join
  rw [if_neg relative]
  by_cases slash : directory.getLast? = some (.char '/')
  · obtain ⟨lead, rfl⟩ := List.getLast?_eq_some_iff.mp slash
    exact ⟨lead, by simp, .inr rfl⟩
  · exact ⟨directory, by simp [proper, slash, Text.ofChars], .inl ⟨rfl, proper, slash⟩⟩

theorem join_cases (directory : Text) {name : Text} (named : Named name) :
    (directory = [] ∧ join directory name = name) ∨
      ∃ lead, join directory name = lead ++ .char '/' :: name ∧
        (directory = lead ∧ lead ≠ [] ∧ lead.getLast? ≠ some (.char '/') ∨ directory = lead ++ [.char '/']) := by
  by_cases empty : directory = []
  · subst empty
    exact .inl ⟨rfl, by simp [join, named.head?]⟩
  · exact .inr (join_mark empty named.head?)

theorem parts_join (directory : Text) {name : Text} (named : Named name) :
    parts (join directory name) = parts directory ++ [name] := by
  rcases join_cases directory named with ⟨rfl, eq⟩ | ⟨lead, eq, ⟨rfl, _⟩ | rfl⟩
  · rw [eq, named.parts]; rfl
  · rw [eq, parts_slash, named.parts]
  · rw [eq, parts_slash, parts_slash, named.parts, parts_nil, List.append_nil]

theorem getLast?_join (directory : Text) {name : Text} (named : Named name) :
    (join directory name).getLast? ≠ some (.char '/') := by
  have tail : ∀ lead : Text, (lead ++ name).getLast? ≠ some (.char '/') := by
    intro lead
    rw [List.getLast?_append_of_ne_nil _ named.nonempty]
    exact named.getLast?
  rcases join_cases directory named with ⟨rfl, eq⟩ | ⟨lead, eq, _⟩
  · rw [eq]; exact named.getLast?
  · rw [eq, ← List.singleton_append, ← List.append_assoc]; exact tail _

theorem names_join (directory : Text) {name : Text} (named : Named name) :
    names (join directory name) = parts directory ++ [name] := by
  rw [names_eq, if_neg (getLast?_join directory named), parts_join directory named, List.append_nil]

theorem join_nil (name : Text) : join [] name = name := by
  unfold join
  split
  · rfl
  · simp

theorem join_open {lead name : Text} (relative : name.head? ≠ some (.char '/')) (proper : lead ≠ [])
    (bare : lead.getLast? ≠ some (.char '/')) : join lead name = lead ++ .char '/' :: name := by
  simp [join, relative, proper, bare, Text.ofChars]

theorem join_closed {lead name : Text} (named : Named name) :
    join (lead ++ [.char '/']) name = lead ++ .char '/' :: name := by
  unfold join
  rw [if_neg named.head?]
  simp

/-- A name that is joined to a path is read behind what the path is read as. -/
theorem accept_join {directory known name : Text} (named : Named name)
    (accepted : accept directory = .ok known) (short : size (join directory name) ≤ pathLimit) :
    accept (join directory name) = .ok (join known name) := by
  obtain ⟨bytes, spelled, sound, _, rfl⟩ := accept_eq_ok_iff.mp accepted
  obtain ⟨more, naming, clean, same⟩ := named.sound
  rcases join_cases directory named with ⟨rfl, eq⟩ | ⟨lead, eq, kind⟩
  · cases spelled
    rw [eq] at short ⊢
    refine accept_eq_ok_iff.mpr ⟨more, naming, clean, ?_, ?_⟩
    · rw [← size_of_spelled naming]; exact short
    · rw [same]; exact join_nil name
  · -- joining puts a slash between the two, whose bytes stand between theirs
    have spelling : ∀ {front : Bytes}, Utf8.Spelled lead front →
        Utf8.Spelled (join directory name) (front ++ 0x2F :: more) := by
      intro front begin
      rw [eq]
      exact begin.append (Utf8.spelled_slash.append naming)
    have outcome : ∀ {front : Bytes}, Utf8.Spelled lead front → 0 ∉ front →
        accept (join directory name) = .ok (Utf8.decodeName front ++ .char '/' :: name) := by
      intro front begin clear
      refine accept_eq_ok_iff.mpr ⟨_, spelling begin, ?_, ?_, ?_⟩
      · simp [clear, clean]
      · rw [← size_of_spelled (spelling begin)]; exact short
      · rw [Utf8.decodeName_slash, same]
    rcases kind with ⟨rfl, proper, bare⟩ | rfl
    · rw [outcome spelled sound, join_open named.head?]
      · -- neither of what keeps the slash away can come up by reading the bytes
        intro empty
        have spells := Utf8.spelled_decodeName bytes
        rw [empty] at spells
        cases spells
        exact proper spelled.eq_nil
      · intro last
        obtain ⟨before, eq⟩ := List.getLast?_eq_some_iff.mp last
        have spells := Utf8.spelled_decodeName bytes
        rw [eq] at spells
        obtain ⟨left, right, rfl, _, tail⟩ := spells.split
        rw [tail.unique Utf8.spelled_slash] at spelled
        exact bare spelled.slash_last
    · obtain ⟨left, right, rfl, begin, tail⟩ := spelled.split
      obtain rfl := tail.unique Utf8.spelled_slash
      rw [outcome begin (fun null => sound (List.mem_append_left _ null)), Utf8.decodeName_slash]
      exact congrArg _ (join_closed named).symm

theorem prefix_join (directory : Text) {name : Text} (named : Named name) :
    directory <+: join directory name := by
  rcases join_cases directory named with ⟨rfl, _⟩ | ⟨lead, eq, ⟨rfl, _⟩ | rfl⟩
  · exact List.nil_prefix
  · rw [eq]; exact List.prefix_append _ _
  · exact ⟨name, by rw [eq, List.append_assoc, List.singleton_append]⟩

theorem size_join_le (path : Text) {name : Text} (named : Named name) :
    size path ≤ size (join path name) := by
  obtain ⟨rest, eq⟩ := prefix_join path named
  rw [← eq, size_append]
  omega

/-- The path that names lead to from a directory. -/
def walked (path : Text) (names : Place) : Text := names.foldl join path

theorem size_le_walked (path : Text) {names : Place} (named : ∀ name ∈ names, Named name) :
    size path ≤ size (walked path names) := by
  induction names generalizing path with
  | nil => exact Nat.le_refl _
  | cons name names ih =>
    have first := size_join_le path (named name List.mem_cons_self)
    exact Nat.le_trans first (ih _ fun other member => named other (List.mem_cons_of_mem _ member))

theorem base_suffix (path : Text) : ∃ lead, path = lead ++ base path ∧ .char '/' ∉ base path := by
  obtain ⟨free, eq | ⟨lead, eq⟩⟩ := Text.afterLast_spec (.char '/') path
  · exact ⟨[], eq, free⟩
  · exact ⟨lead ++ [.char '/'], by rw [List.append_assoc]; exact eq, free⟩

theorem open_of_base {path : Text} (named : base path ≠ []) : path ≠ [] ∧ path.getLast? ≠ some (.char '/') := by
  constructor
  · rintro rfl
    exact named rfl
  · obtain ⟨lead, cut, free⟩ := base_suffix path
    rw [cut, List.getLast?_append_of_ne_nil _ named]
    exact fun last => free (List.mem_of_getLast? last)

theorem walked_eq {path : Text} (proper : path ≠ []) (bare : path.getLast? ≠ some (.char '/')) {names : Place}
    (named : ∀ name ∈ names, Named name) : walked path names = path ++ names.flatMap (.char '/' :: ·) := by
  induction names generalizing path with
  | nil => rw [List.flatMap_nil, List.append_nil]; rfl
  | cons name names ih =>
    have first := named name List.mem_cons_self
    have opened := join_open first.head? proper bare
    have further : walked (join path name) names = join path name ++ names.flatMap (.char '/' :: ·) :=
      ih (by rw [opened]; simp) (getLast?_join path first) fun other member =>
        named other (List.mem_cons_of_mem _ member)
    rw [show walked path (name :: names) = walked (join path name) names from rfl, further, opened,
      List.flatMap_cons, List.append_assoc]

theorem walked_snoc (path : Text) (names : Place) (name : Text) :
    walked path (names ++ [name]) = join (walked path names) name := by simp [walked]

theorem walked_append (path : Text) (first second : Place) :
    walked path (first ++ second) = walked (walked path first) second := List.foldl_append

theorem parts_walked (path : Text) {names : Place} (named : ∀ name ∈ names, Named name) :
    parts (walked path names) = parts path ++ names := by
  induction names using List.reverseRecOn with
  | nil => exact (List.append_nil _).symm
  | append_singleton names name ih =>
    rw [walked_snoc, parts_join _ (named name (by simp)),
      ih fun other member => named other (List.mem_append_left _ member), List.append_assoc]

theorem open_walked {path : Text} (proper : path ≠ []) (bare : path.getLast? ≠ some (.char '/')) {names : Place}
    (named : ∀ name ∈ names, Named name) :
    walked path names ≠ [] ∧ (walked path names).getLast? ≠ some (.char '/') := by
  induction names using List.reverseRecOn with
  | nil => exact ⟨proper, bare⟩
  | append_singleton names name ih =>
    have new : Named name := named name (by simp)
    rw [walked_snoc]
    refine ⟨fun empty => ?_, getLast?_join _ new⟩
    have before := prefix_join (walked path names) new
    rw [empty, List.prefix_nil] at before
    exact (ih fun other member => named other (List.mem_append_left _ member)).1 before

theorem join_append (front : Text) {directory name : Text} (named : Named name) (proper : directory ≠ []) :
    join (front ++ directory) name = front ++ join directory name := by
  rcases join_cases directory named with ⟨rfl, _⟩ | ⟨lead, eq, ⟨rfl, _, bare⟩ | rfl⟩
  · exact absurd rfl proper
  · rw [eq, join_open named.head? (by simp [proper]), List.append_assoc]
    rwa [List.getLast?_append_of_ne_nil _ proper]
  · rw [eq, ← List.append_assoc, join_closed named, List.append_assoc]

theorem accept_plain {path known : Text} (plain : path.Plain) (accepted : accept path = .ok known) : known = path := by
  obtain ⟨bytes, spelled, _, _, rfl⟩ := accept_eq_ok_iff.mp accepted
  rw [spelled.unique (Utf8.spelled_of_plain plain), Utf8.decodeName_bytesOf plain]

theorem size_le_of_accept {path known : Text} (accepted : accept path = .ok known) :
    size path ≤ pathLimit := by
  obtain ⟨bytes, spelled, _, short, _⟩ := accept_eq_ok_iff.mp accepted
  rwa [size_of_spelled spelled]

end Path

namespace Site

/-- The root is written without a slash at its end. It is an absolute path, or a name that stands for
one. -/
def Sound (site : Site) : Prop :=
  .char '/' ∉ site.root ∨ site.root.head? = some (.char '/') ∧ site.root.getLast? ≠ some (.char '/')

theorem Sound.bare {site : Site} (sound : site.Sound) : site.root.getLast? ≠ some (.char '/') := by
  rcases sound with free | ⟨_, bare⟩
  · exact fun last => free (List.mem_of_getLast? last)
  · exact bare

def FromRoot (site : Site) (path : Text) : Prop :=
  path = site.root ∨ ∃ rest, path = site.root ++ .char '/' :: rest

theorem fromRoot_iff {site : Site} {path : Text} :
    (path = site.root || (site.root ++ "/").isPrefixOf path) = true ↔ site.FromRoot path := by
  simp only [Bool.or_eq_true, decide_eq_true_eq, FromRoot, List.isPrefixOf_iff_prefix]
  refine or_congr_right ⟨?_, ?_⟩
  · rintro ⟨rest, rfl⟩
    exact ⟨rest, by simp [Text.ofChars]⟩
  · rintro ⟨rest, rfl⟩
    exact ⟨rest, by simp [Text.ofChars]⟩

theorem origin_eq_ok_iff {site : Site} {path rest : Text} {start : Place} :
    site.origin path = .ok (start, rest) ↔ path ≠ [] ∧
      (site.FromRoot path ∧ start = [] ∧ rest = path.drop site.root.length ∨
        ¬site.FromRoot path ∧ path.head? ≠ some (.char '/') ∧ start = site.start ∧ rest = path) := by
  unfold origin
  by_cases empty : path = []
  · simp [empty]
  rw [if_neg (by simpa using empty)]
  by_cases inside : site.FromRoot path
  · rw [if_pos (fromRoot_iff.mpr inside)]
    rw [Except.ok.injEq, Prod.mk.injEq]
    constructor
    · rintro ⟨rfl, rfl⟩
      exact ⟨empty, .inl ⟨inside, rfl, rfl⟩⟩
    · rintro ⟨_, ⟨_, rfl, rfl⟩ | ⟨outside, _⟩⟩
      · exact ⟨rfl, rfl⟩
      · exact absurd inside outside
  · rw [if_neg (fun yes => inside (fromRoot_iff.mp yes))]
    by_cases absolute : path.head? = some (.char '/')
    · simp [absolute, inside]
    · simp [absolute, inside, empty, eq_comm]

theorem Sound.fromRoot_join {site : Site} (sound : site.Sound) {path name : Text} (named : Path.Named name)
    (proper : path ≠ []) (relative : path.head? ≠ some (.char '/'))
    (inside : site.FromRoot (Path.join path name)) : site.FromRoot path := by
  have head : (Path.join path name).head? = path.head? := by
    obtain ⟨rest, eq⟩ := Path.prefix_join path named
    rw [← eq, List.head?_append_of_ne_nil _ proper]
  rcases sound with free | ⟨absolute, _⟩
  · rcases Path.join_cases path named with ⟨rfl, _⟩ | ⟨lead, eq, kind⟩
    · exact absurd rfl proper
    rw [eq] at inside
    rcases inside with same | ⟨rest, same⟩
    · rw [← same] at free
      simp at free
    -- the root has no slash, so it ends before the one that joining puts
    have begins : lead = site.root ∨ ∃ more, lead = site.root ++ .char '/' :: more := by
      rcases List.append_eq_append_iff.mp same with ⟨between, whole, tail⟩ | ⟨between, whole, tail⟩
      · cases between with
        | nil => exact .inl (by simpa using whole.symm)
        | cons c between =>
          obtain ⟨rfl, _⟩ := List.cons.inj tail
          rw [whole] at free
          simp at free
      · cases between with
        | nil => exact .inl (by simpa using whole)
        | cons c between =>
          obtain ⟨rfl, _⟩ := List.cons.inj tail
          exact .inr ⟨between, whole⟩
    rcases kind with ⟨rfl, _⟩ | rfl
    · exact begins
    · rcases begins with rfl | ⟨more, rfl⟩
      · exact .inr ⟨[], rfl⟩
      · exact .inr ⟨more ++ [.char '/'], by simp⟩
  · have first : (Path.join path name).head? = some (.char '/') := by
      have nonempty : site.root ≠ [] := by
        intro empty
        rw [empty] at absolute
        cases absolute
      rcases inside with same | ⟨rest, same⟩
      · rw [same, absolute]
      · rw [same, List.head?_append_of_ne_nil _ nonempty, absolute]
    exact absurd (head.symm.trans first) relative

theorem origin_join {site : Site} (sound : site.Sound) {path rest name : Text} {start : Place}
    (named : Path.Named name) (origin : site.origin path = .ok (start, rest)) :
    ∃ more, site.origin (Path.join path name) = .ok (start, more) ∧
      Path.names more = Path.parts rest ++ [name] := by
  obtain ⟨proper, ⟨inside, rfl, rfl⟩ | ⟨outside, relative, rfl, same⟩⟩ := origin_eq_ok_iff.mp origin
  · -- a path from the root is read from there with the name or without
    rcases inside with rfl | ⟨rest, rfl⟩
    · have eq := Path.join_open named.head? proper sound.bare
      refine ⟨.char '/' :: name, origin_eq_ok_iff.mpr ⟨by simp [eq], .inl ⟨?_, rfl, by simp [eq]⟩⟩, ?_⟩
      · exact .inr ⟨name, eq⟩
      · rw [List.drop_length, Path.names_eq, if_neg, List.append_nil]
        · exact (Path.parts_slash [] name).trans (by rw [named.parts])
        · rw [← List.singleton_append, List.getLast?_append_of_ne_nil _ named.nonempty]
          exact named.getLast?
    · have eq := Path.join_append site.root named (List.cons_ne_nil (.char '/') rest)
      refine ⟨Path.join (.char '/' :: rest) name,
        origin_eq_ok_iff.mpr ⟨?_, .inl ⟨?_, rfl, by simp [eq]⟩⟩, ?_⟩
      · obtain ⟨more, whole⟩ := Path.prefix_join (site.root ++ .char '/' :: rest) named
        rw [← whole]
        simp
      · obtain ⟨more, whole⟩ := Path.prefix_join (.char '/' :: rest) named
        exact .inr ⟨rest ++ more, by rw [eq, ← whole]; simp⟩
      · rw [List.drop_left, Path.names_join _ named]
  · subst same
    refine ⟨Path.join rest name, origin_eq_ok_iff.mpr ⟨?_, .inr ⟨?_, ?_, rfl, rfl⟩⟩, Path.names_join _ named⟩
    · obtain ⟨more, whole⟩ := Path.prefix_join rest named
      rw [← whole]
      simp [proper]
    · exact fun inside => outside (sound.fromRoot_join named proper relative inside)
    · obtain ⟨more, whole⟩ := Path.prefix_join rest named
      rw [← whole, List.head?_append_of_ne_nil _ proper]
      exact relative

theorem walk_append (tree : Tree) (start : Place) (first second : List Text) :
    walk tree start (first ++ second) = (walk tree start first).bind fun place => walk tree place second := by
  induction first generalizing start with
  | nil => rfl
  | cons name first ih =>
    simp only [List.cons_append, walk]
    split
    · cases step start name with
      | error refusal => rfl
      | ok next => exact ih next
    · rfl
    · rfl

theorem walk_last {tree : Tree} {start place : Place} {front : List Text} {name : Text}
    (walked : walk tree start (front ++ [name]) = .ok place) :
    ∃ between, walk tree start front = .ok between ∧ tree.get? between = some .directory ∧
      step between name = .ok place := by
  rw [walk_append] at walked
  cases first : walk tree start front with
  | error refusal => rw [first] at walked; cases walked
  | ok between =>
    rw [first] at walked
    simp only [Except.bind, walk] at walked
    split at walked
    · rename_i directory
      refine ⟨between, rfl, directory, ?_⟩
      cases stepped : step between name with
      | error refusal => rw [stepped] at walked; cases walked
      | ok next => rw [stepped] at walked; exact walked
    · cases walked
    · cases walked

theorem step_named {name : Text} (named : Path.Named name) (place : Place) :
    step place name = .ok (place ++ [name]) := by
  have short := named.short
  rw [step, if_neg named.notHere, if_neg named.notAbove, if_neg (by omega)]

theorem step_single {name : Text} (single : Path.Single name) {place next : Place}
    (stepped : step place name = .ok next) :
    next = place ++ [name] := by
  unfold step at stepped
  rw [if_neg single.notHere, if_neg single.notAbove] at stepped
  split at stepped
  · cases stepped
  · exact (Except.ok.inj stepped).symm

theorem walk_named {tree : Tree} {place : Place} {name : Text} (named : Path.Named name)
    (directory : tree.get? place = some .directory) : walk tree place [name] = .ok (place ++ [name]) := by
  simp only [walk, directory, step_named named]
  rfl

theorem walk_parts {tree : Tree} {start place : Place} {rest : Text}
    (walked : walk tree start (Path.names rest) = .ok place) : walk tree start (Path.parts rest) = .ok place := by
  rw [Path.names_eq, walk_append] at walked
  cases first : walk tree start (Path.parts rest) with
  | error refusal => rw [first] at walked; cases walked
  | ok between =>
    rw [first] at walked
    simp only [Except.bind] at walked
    split at walked
    · simp only [walk] at walked
      split at walked
      · exact walked
      · cases walked
      · cases walked
    · exact walked

theorem locate_eq_ok_iff {site : Site} {tree : Tree} {path : Text} {place : Place} :
    site.locate tree path = .ok place ↔ ∃ known start rest, Path.accept path = .ok known ∧
      site.origin known = .ok (start, rest) ∧ walk tree start (Path.names rest) = .ok place := by
  unfold locate
  constructor
  · intro located
    cases accepted : Path.accept path with
    | error refusal => rw [accepted] at located; cases located
    | ok known =>
      rw [accepted] at located
      simp only [bind, Except.bind] at located
      cases origin : site.origin known with
      | error refusal => rw [origin] at located; cases located
      | ok pair => rw [origin] at located; exact ⟨known, pair.1, pair.2, rfl, origin, located⟩
  · rintro ⟨known, start, rest, accepted, origin, walked⟩
    simp only [accepted, origin, bind, Except.bind, walked]

theorem locate_join {site : Site} (sound : site.Sound) {tree : Tree} {path name : Text} {place : Place}
    (named : Path.Named name) (located : site.locate tree path = .ok place)
    (directory : tree.get? place = some .directory)
    (short : Path.size (Path.join path name) ≤ Path.pathLimit) :
    site.locate tree (Path.join path name) = .ok (place ++ [name]) := by
  obtain ⟨known, start, rest, accepted, origin, walked⟩ := locate_eq_ok_iff.mp located
  obtain ⟨more, further, names⟩ := origin_join sound named origin
  refine locate_eq_ok_iff.mpr ⟨_, start, more, Path.accept_join named accepted short, further, ?_⟩
  rw [names, walk_append, walk_parts walked]
  exact walk_named named directory

theorem find_eq_ok_iff {site : Site} {tree : Tree} {path : Text} {place : Place} {entry : Entry} :
    site.find tree path = .ok (place, entry) ↔
      site.locate tree path = .ok place ∧ tree.get? place = some entry := by
  unfold find
  cases located : site.locate tree path with
  | error refusal => simp [bind, Except.bind]
  | ok other =>
    simp only [bind, Except.bind, Except.ok.injEq]
    cases held : tree.get? other with
    | none =>
      simp only [reduceCtorEq, false_iff, not_and]
      rintro rfl
      simp [held]
    | some kept =>
      simp only [Except.ok.injEq, Prod.mk.injEq]
      constructor
      · rintro ⟨rfl, rfl⟩
        exact ⟨rfl, held⟩
      · rintro ⟨rfl, there⟩
        rw [held] at there
        exact ⟨rfl, Option.some.inj there⟩

theorem find_put {site : Site} {tree : Tree} {path : Text} {place : Place}
    (located : site.locate tree path = .ok place) (vacant : tree.get? place ≠ some .directory) (entry : Entry) :
    site.find (tree.put place entry) path = .ok (place, entry) :=
  find_eq_ok_iff.mpr ⟨locate_keeps (Tree.keepsDirectories_put _ vacant) located, Tree.get?_put_self _ vacant⟩

/-- A path with a slash at its end leads to directories only. -/
theorem directory_of_slash {site : Site} {tree : Tree} {path known : Text} {place : Place}
    (accepted : Path.accept path = .ok known) (slash : known.getLast? = some (.char '/'))
    (located : site.locate tree path = .ok place) : tree.get? place = some .directory := by
  obtain ⟨other, start, rest, accepted', origin, walked⟩ := locate_eq_ok_iff.mp located
  obtain rfl := Except.ok.inj (accepted.symm.trans accepted')
  -- cutting the root off leaves the closing slash, if anything is left
  have kind : rest = [] ∧ start = [] ∨ rest.getLast? = some (.char '/') := by
    obtain ⟨_, ⟨inside, rfl, rfl⟩ | ⟨_, _, _, rfl⟩⟩ := origin_eq_ok_iff.mp origin
    · rcases inside with rfl | ⟨more, rfl⟩
      · exact .inl ⟨by simp, rfl⟩
      · rw [List.getLast?_append_of_ne_nil _ (by simp)] at slash
        exact .inr (by rw [List.drop_left]; exact slash)
    · exact .inr slash
  rcases kind with ⟨rfl, rfl⟩ | last
  · cases walked
    rfl
  · -- a closing slash adds a last step that stays, which is one out of a directory
    rw [Path.names_eq, if_pos last, walk_append] at walked
    cases first : walk tree start (Path.parts rest) with
    | error refusal => rw [first] at walked; cases walked
    | ok between =>
      rw [first] at walked
      simp only [Except.bind, walk] at walked
      split at walked
      · rename_i directory
        obtain rfl : between = place := Except.ok.inj walked
        exact directory
      · cases walked
      · cases walked

end Site

namespace Script

theorem writable_of_find {site : Site} {tree : Tree} {path : Text} {place : Place} {bytes : Bytes}
    (found : site.find tree path = .ok (place, .file bytes)) : writable path site tree = .ok (place, bytes) := by
  obtain ⟨located, held⟩ := Site.find_eq_ok_iff.mp found
  obtain ⟨known, start, rest, accepted, origin, walked⟩ := Site.locate_eq_ok_iff.mp located
  have again : site.locate tree known = .ok place :=
    Site.locate_eq_ok_iff.mpr ⟨known, start, rest, Path.accept_accepted accepted, origin, walked⟩
  have bare : known.getLast? ≠ some (.char '/') := by
    intro slash
    rw [Site.directory_of_slash accepted slash located] at held
    cases held
  simp [writable, accepted, bind, Except.bind, bare, again, held]

end Script

namespace Path

theorem named_of_plain {name : Text} (plain : name.Plain) (proper : name ≠ []) (slash : .char '/' ∉ name)
    (null : .char '\x00' ∉ name) (here : name ≠ ".") (above : name ≠ "..") (short : size name ≤ nameLimit) :
    Named name :=
  ⟨proper, slash, here, above, short, Utf8.bytesOf name, Utf8.spelled_of_plain plain,
    fun zero => null ((Utf8.spelled_of_plain plain).null_iff.mpr zero), Utf8.decodeName_bytesOf plain⟩

def isNamed (name : Text) : Bool :=
  !name.any CodePoint.isSurrogate && name != [] && !name.contains (.char '/') && !name.contains (.char '\x00') &&
    name != ("." : Text) && name != (".." : Text) && size name ≤ nameLimit

theorem named_of_isNamed {name : Text} (check : isNamed name = true) : Named name := by
  simp only [isNamed, Bool.and_eq_true, Bool.not_eq_true', bne_iff_ne, ne_eq, decide_eq_true_eq,
    List.any_eq_false, List.contains_eq_mem, decide_eq_false_iff_not] at check
  obtain ⟨⟨⟨⟨⟨⟨plain, proper⟩, slash⟩, null⟩, here⟩, above⟩, short⟩ := check
  exact named_of_plain (fun c member => by simpa using plain c member) proper slash null here above short

theorem named_of_all {names : Place} (check : names.all isNamed = true) : ∀ name ∈ names, Named name :=
  fun name member => named_of_isNamed (List.all_eq_true.mp check name member)

def EndsIn (path name : Text) : Prop := path = name ∨ ∃ lead, path = lead ++ .char '/' :: name

theorem EndsIn.names {path name : Text} (proper : name ≠ []) (noSlash : .char '/' ∉ name)
    (ends : EndsIn path name) : ∃ before, names path = before ++ [name] := by
  have bare : name.getLast? ≠ some (.char '/') := fun last => noSlash (List.mem_of_getLast? last)
  have single : parts name = [name] := by
    rw [parts, show Text.split "/" name = [name] from Text.split_free noSlash]
    simp [proper]
  rcases ends with rfl | ⟨lead, rfl⟩
  · exact ⟨[], by rw [names_eq, if_neg bare, single]; rfl⟩
  · refine ⟨parts lead, ?_⟩
    rw [names_eq, parts_slash, single, if_neg, List.append_nil]
    rw [← List.singleton_append, ← List.append_assoc, List.getLast?_append_of_ne_nil _ proper]
    exact bare

theorem endsIn_of_accept_join {directory known name : Text} (named : Named name)
    (accepted : accept (join directory name) = .ok known) : EndsIn known name := by
  obtain ⟨bytes, spelled, _, _, rfl⟩ := accept_eq_ok_iff.mp accepted
  obtain ⟨more, naming, _, same⟩ := named.sound
  rcases join_cases directory named with ⟨_, eq⟩ | ⟨lead, eq, _⟩
  · rw [eq] at spelled
    exact .inl (by rw [spelled.unique naming, same])
  · rw [eq] at spelled
    obtain ⟨front, right, rfl, _, tail⟩ := spelled.split
    rw [tail.unique (Utf8.spelled_slash.append naming)]
    exact .inr ⟨Utf8.decodeName front, (Utf8.decodeName_slash front more).trans (by rw [same])⟩

end Path

namespace Site

/-- Whatever stands in front of the last name of a path, the name comes last. -/
theorem locate_endsIn {site : Site} {tree : Tree} {path known name : Text} {place : Place}
    (proper : name ≠ []) (noSlash : .char '/' ∉ name) (notHere : name ≠ ".") (notAbove : name ≠ "..")
    (accepted : Path.accept path = .ok known) (ends : Path.EndsIn known name)
    (located : site.locate tree path = .ok place) :
    place = [] ∧ known = site.root ∨ Path.size name ≤ Path.nameLimit ∧ ∃ before, place = before ++ [name] := by
  obtain ⟨other, start, rest, accepted', origin, walked⟩ := locate_eq_ok_iff.mp located
  obtain rfl := Except.ok.inj (accepted.symm.trans accepted')
  -- cutting the root off leaves the last name, unless the path is the root
  have shorter : (rest = [] ∧ start = []) ∧ known = site.root ∨ Path.EndsIn rest name := by
    obtain ⟨_, ⟨inside, rfl, rfl⟩ | ⟨_, _, _, rfl⟩⟩ := origin_eq_ok_iff.mp origin
    · rcases inside with rfl | ⟨more, rfl⟩
      · exact .inl ⟨⟨by simp, rfl⟩, rfl⟩
      · rw [List.drop_left]
        rcases ends with eq | ⟨lead, eq⟩
        · exact absurd (by rw [← eq]; simp) noSlash
        · rcases List.append_eq_append_iff.mp eq with ⟨between, _, tail⟩ | ⟨between, _, tail⟩
          · exact .inr (.inr ⟨between, tail⟩)
          · cases between with
            | nil => exact .inr (.inr ⟨[], tail.symm⟩)
            | cons c between =>
              obtain ⟨_, inner⟩ := List.cons.inj tail
              exact absurd (by rw [inner]; simp) noSlash
    · exact .inr ends
  rcases shorter with ⟨⟨rfl, rfl⟩, root⟩ | ends
  · cases walked
    exact .inl ⟨rfl, root⟩
  · obtain ⟨before, names⟩ := ends.names proper noSlash
    rw [names] at walked
    obtain ⟨between, _, _, stepped⟩ := walk_last walked
    rw [step, if_neg notHere, if_neg notAbove] at stepped
    split at stepped
    · cases stepped
    · exact .inr ⟨by omega, between, (Except.ok.inj stepped).symm⟩

theorem locate_join_last {site : Site} {tree : Tree} {path name : Text} {place : Place}
    (named : Path.Named name) (located : site.locate tree (Path.join path name) = .ok place) :
    place = [] ∨ ∃ before, place = before ++ [name] := by
  obtain ⟨known, _, _, accepted, _⟩ := locate_eq_ok_iff.mp located
  exact (locate_endsIn named.nonempty named.noSlash named.notHere named.notAbove accepted
    (Path.endsIn_of_accept_join named accepted) located).imp And.left And.right

end Site

/-- A tree as a file system can hold it: every entry has a proper name and lies in a directory. -/
structure Tree.Sound (tree : Tree) : Prop where
  named : ∀ place name, (tree.get? (place ++ [name])).isSome = true → Path.Named name
  parent : ∀ place name, (tree.get? (place ++ [name])).isSome = true → tree.get? place = some .directory

theorem Tree.Sound.above {tree : Tree} (sound : tree.Sound) {place rest : Place} (proper : rest ≠ [])
    (present : (tree.get? (place ++ rest)).isSome = true) : tree.get? place = some .directory := by
  induction rest using List.reverseRecOn with
  | nil => exact absurd rfl proper
  | append_singleton rest name ih =>
    rw [← List.append_assoc] at present
    have parent := sound.parent (place ++ rest) name present
    by_cases empty : rest = []
    · rwa [empty, List.append_nil] at parent
    · exact ih empty (by rw [parent]; rfl)

theorem Tree.Sound.named_of_mem {tree : Tree} (sound : tree.Sound) {place rest : Place}
    (present : (tree.get? (place ++ rest)).isSome = true) : ∀ name ∈ rest, Path.Named name := by
  intro name member
  obtain ⟨front, tail, rfl⟩ := List.append_of_mem member
  refine sound.named (place ++ front) name ?_
  by_cases last : tail = []
  · simpa [last] using present
  · rw [sound.above last (by simpa using present)]
    rfl

theorem Tree.sound_of_entries {tree : Tree}
    (entries : ∀ entry ∈ tree.entries, ∀ front name, entry.1 = front ++ [name] →
      Path.Named name ∧ tree.get? front = some .directory) : tree.Sound := by
  have listed : ∀ place name, (tree.get? (place ++ [name])).isSome = true →
      ∃ entry ∈ tree.entries, entry.1 = place ++ [name] := by
    intro place name present
    rw [Tree.get?_below, Table.isSome_get?] at present
    exact List.mem_map.mp present
  constructor
  · intro place name present
    obtain ⟨entry, member, eq⟩ := listed place name present
    exact (entries entry member place name eq).1
  · intro place name present
    obtain ⟨entry, member, eq⟩ := listed place name present
    exact (entries entry member place name eq).2

def Tree.isSound (tree : Tree) : Bool :=
  tree.entries.all fun entry => entry.1.all Path.isNamed && tree.get? entry.1.dropLast = some .directory

theorem Tree.sound_of_isSound {tree : Tree} (check : tree.isSound = true) : tree.Sound := by
  refine Tree.sound_of_entries fun entry member front name eq => ?_
  have checked := List.all_eq_true.mp check entry member
  rw [Bool.and_eq_true, decide_eq_true_eq, eq, List.dropLast_concat] at checked
  exact ⟨Path.named_of_all checked.1 name (by simp), checked.2⟩

namespace Script

theorem runOn_isDirectory (site : Site) (tree : Tree) (path : Text) :
    ∃ answer, (isDirectory path).runOn site tree = (.ok answer, tree) ∧
      (answer = true ↔ ∃ place, site.find tree path = .ok (place, .directory)) := by
  simp only [isDirectory, runOn_bind, runOn_read, andThen_ok, runOn_get]
  cases found : site.find tree path with
  | error refusal => exact ⟨false, rfl, by simp⟩
  | ok pair =>
    obtain ⟨place, entry⟩ := pair
    cases entry with
    | file bytes => exact ⟨false, rfl, by simp⟩
    | directory => exact ⟨true, rfl, by simp⟩

theorem runOn_isDirectory_join {site : Site} (sound : site.Sound) {tree : Tree} {path name : Text} {place : Place}
    (named : Path.Named name) (located : site.locate tree path = .ok place)
    (directory : tree.get? place = some .directory) :
    (isDirectory (Path.join path name)).runOn site tree =
      (.ok (decide (tree.get? (place ++ [name]) = some .directory ∧
        Path.size (Path.join path name) ≤ Path.pathLimit)), tree) := by
  obtain ⟨answer, run, seen⟩ := runOn_isDirectory site tree (Path.join path name)
  have same : answer = true ↔ tree.get? (place ++ [name]) = some .directory ∧
      Path.size (Path.join path name) ≤ Path.pathLimit := by
    rw [seen]
    constructor
    · rintro ⟨other, found⟩
      obtain ⟨further, held⟩ := Site.find_eq_ok_iff.mp found
      have short : Path.size (Path.join path name) ≤ Path.pathLimit := by
        obtain ⟨known, _, _, accepted, _⟩ := Site.locate_eq_ok_iff.mp further
        exact Path.size_le_of_accept accepted
      rw [Site.locate_join sound named located directory short] at further
      obtain rfl := Except.ok.inj further
      exact ⟨held, short⟩
    · rintro ⟨held, short⟩
      exact ⟨_, Site.find_eq_ok_iff.mpr ⟨Site.locate_join sound named located directory short, held⟩⟩
  rw [run, show answer = decide _ from Bool.eq_iff_iff.mpr (same.trans decide_eq_true_iff.symm)]

theorem runOn_names {site : Site} {tree : Tree} {path : Text} {place : Place}
    (located : site.locate tree path = .ok place) (directory : tree.get? place = some .directory) :
    (names path).runOn site tree = (.ok (site.arrange place (tree.names place)), tree) := by
  have placed : directoryPlace path site tree = .ok place := by
    simp [directoryPlace, Site.find_eq_ok_iff.mpr ⟨located, directory⟩, bind, Except.bind]
  simp only [names, runOn_bind, runOn_inspect, placed, Except.mapError, andThen_ok, runOn_read, runOn_get,
    runOn_pure]

theorem runOn_names_ok {site : Site} {path : Text} {tree after : Tree} {names : List Text}
    (run : (Script.names path).runOn site tree = (.ok names, after)) :
    after = tree ∧ ∃ place, site.locate tree path = .ok place ∧ tree.get? place = some .directory ∧
      names = site.arrange place (tree.names place) := by
  simp only [Script.names, runOn_bind, runOn_inspect] at run
  cases found : directoryPlace path site tree with
  | error refusal => rw [found] at run; cases run
  | ok place =>
    rw [found] at run
    obtain ⟨names, rfl⟩ := Prod.mk.inj run
    refine ⟨rfl, place, ?_⟩
    unfold directoryPlace at found
    cases seen : site.find tree path with
    | error refusal => rw [seen] at found; cases found
    | ok pair =>
      obtain ⟨other, entry⟩ := pair
      rw [seen] at found
      cases entry with
      | file bytes => cases found
      | directory =>
        obtain rfl : other = place := Except.ok.inj found
        obtain ⟨located, held⟩ := Site.find_eq_ok_iff.mp seen
        exact ⟨located, held, (Except.ok.inj names).symm⟩

end Script
end ApiDocs
