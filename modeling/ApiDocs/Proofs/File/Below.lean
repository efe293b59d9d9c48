import ApiDocs.Proofs.File.Change

/-! Paths below a directory. A name may be written with bytes that make up characters; what it is read as decides
where the path leads. -/

set_option autoImplicit false

namespace ApiDocs

namespace Utf8

theorem Spelled.low_cons {text : Text} {m : UInt8} {rest : Bytes} (low : m.toNat < 0x80)
    (spelled : Spelled text (m :: rest)) :
    ∃ more, text = .char (Char.ofNat m.toNat) :: more ∧ Spelled more rest := by
  generalize whole : m :: rest = bytes at spelled
  cases spelled with
  | nil => cases whole
  | @char c more bytes tail =>
    have first : m ∈ encodeChar c := by
      cases encoded : encodeChar c with
      | nil => exact absurd encoded (encodeChar_ne_nil c)
      | cons b others =>
        rw [encoded] at whole
        rw [(List.cons.inj whole).1]
        exact List.mem_cons_self
    have same : c = Char.ofNat m.toNat := by
      rw [← (ascii_mem_encodeChar low).mp first, Char.ofNat_toNat]
    rw [same, encodeChar_one low] at whole
    exact ⟨more, by rw [same], by rw [(List.cons.inj whole).2]; exact tail⟩
  | byte escaped tail =>
    have high := escapedByte?_high escaped
    rw [← (List.cons.inj whole).1] at high
    omega

theorem eq_dot {text : Text} (spelled : Spelled text (bytesOf ("." : Text))) : text = "." := by
  obtain ⟨more, rfl, rest⟩ := (show Spelled text (0x2E :: []) from spelled).low_cons (by decide)
  rw [rest.eq_nil]
  rfl

theorem eq_dots {text : Text} (spelled : Spelled text (bytesOf (".." : Text))) : text = ".." := by
  obtain ⟨more, rfl, rest⟩ := (show Spelled text (0x2E :: [0x2E]) from spelled).low_cons (by decide)
  rw [eq_dot rest]
  rfl

end Utf8

namespace Path

def Reads (text name : Text) : Prop := ∃ bytes, Utf8.Spelled text bytes ∧ Utf8.decodeName bytes = name

theorem Reads.unique {text first second : Text} (left : Reads text first) (right : Reads text second) :
    first = second := by
  obtain ⟨bytes, spelled, rfl⟩ := left
  obtain ⟨more, spelled', rfl⟩ := right
  rw [spelled.unique spelled']

theorem Reads.eq_of_plain {text name : Text} (reads : Reads text name) (plain : text.Plain) : name = text :=
  reads.unique ⟨_, Utf8.spelled_of_plain plain, Utf8.decodeName_bytesOf plain⟩

theorem Reads.suffix {lead ending name : Text} {m : UInt8} (low : m.toNat < 0x80) (plain : ending.Plain)
    (reads : Reads (lead ++ .char (Char.ofNat m.toNat) :: ending) name) :
    .char (Char.ofNat m.toNat) :: ending <:+ name := by
  obtain ⟨bytes, spelled, rfl⟩ := reads
  obtain ⟨front, back, rfl, _, tail⟩ := spelled.split
  have spelling : Utf8.Spelled (.char (Char.ofNat m.toNat) :: ending) (m :: Utf8.bytesOf ending) := by
    have first := Utf8.Spelled.char (Char.ofNat m.toNat) (Utf8.spelled_of_plain plain)
    rwa [Utf8.encodeChar_one low] at first
  rw [tail.unique spelling, Utf8.decodeName_low low, Utf8.decodeName_bytesOf plain]
  exact List.suffix_append _ _

theorem accept_congr {path other : Text} {bytes : Bytes} (spelled : Utf8.Spelled path bytes)
    (spelled' : Utf8.Spelled other bytes) {known : Text} : accept path = .ok known ↔ accept other = .ok known := by
  rw [accept_eq_ok_iff, accept_eq_ok_iff]
  constructor
  · rintro ⟨more, naming, sound, short, eq⟩
    rw [naming.unique spelled] at sound short eq
    exact ⟨bytes, spelled', sound, short, eq⟩
  · rintro ⟨more, naming, sound, short, eq⟩
    rw [naming.unique spelled'] at sound short eq
    exact ⟨bytes, spelled, sound, short, eq⟩

theorem join_lead {directory : Text} (proper : directory ≠ []) :
    ∃ lead, (∀ name : Text, name.head? ≠ some (.char '/') → join directory name = lead ++ .char '/' :: name) ∧
      (directory = lead ∨ directory = lead ++ [.char '/']) := by
  by_cases slash : directory.getLast? = some (.char '/')
  · obtain ⟨lead, rfl⟩ := List.getLast?_eq_some_iff.mp slash
    exact ⟨lead, fun name relative => by simp [join, relative], .inr rfl⟩
  · exact ⟨directory, fun name relative => by simp [join, relative, proper, slash, Text.ofChars], .inl rfl⟩

theorem base_join (directory : Text) {name : Text} (slashless : .char '/' ∉ name) :
    base (join directory name) = name := by
  have relative : name.head? ≠ some (.char '/') := fun first => slashless (List.mem_of_head? first)
  by_cases proper : directory = []
  · rw [proper, join_nil]
    exact Text.afterLast_free slashless
  · obtain ⟨lead, joined, _⟩ := join_lead proper
    rw [joined name relative]
    exact Text.afterLast_mark lead slashless

theorem join_ending (directory : Text) {name ending : Text} (relative : name.head? ≠ some (.char '/'))
    (bare : ending.head? ≠ some (.char '/')) : join directory name ++ ending = join directory (name ++ ending) := by
  have further : (name ++ ending).head? ≠ some (.char '/') := by
    cases name with
    | nil => exact bare
    | cons c name => exact relative
  rw [join, join, if_neg relative, if_neg further]
  split <;> simp only [List.append_assoc]

theorem endsIn_join (directory : Text) {name : Text} (slashless : .char '/' ∉ name) :
    EndsIn (join directory name) name := by
  by_cases proper : directory = []
  · rw [proper, join_nil]
    exact .inl rfl
  · obtain ⟨lead, below, _⟩ := join_lead proper
    exact .inr ⟨lead, below name fun slash => slashless (List.mem_of_head? slash)⟩

theorem base_walked (directory : Text) (front : Place) {name : Text} (slashless : .char '/' ∉ name) :
    base (walked directory (front ++ [name])) = name := by
  rw [walked_snoc, base_join _ slashless]

theorem Single.decoded {text : Text} (single : Single text) {bytes : Bytes} (naming : Utf8.Spelled text bytes) :
    Single (Utf8.decodeName bytes) := by
  obtain ⟨proper, slash, here, above⟩ := single
  have spelled := Utf8.spelled_decodeName bytes
  have same : ∀ {name : Text}, name.Plain → Utf8.decodeName bytes = name → Utf8.Spelled text (Utf8.bytesOf name) := by
    intro name plain eq
    rw [eq] at spelled
    rwa [← spelled.unique (Utf8.spelled_of_plain plain)]
  refine ⟨fun empty => proper (same Text.Plain.nil empty).eq_nil, ?_,
    fun eq => here (Utf8.eq_dot (same (Text.plain_ofChars _) eq)),
      fun eq => above (Utf8.eq_dots (same (Text.plain_ofChars _) eq))⟩
  rw [spelled.slash_iff, ← naming.slash_iff]
  exact slash

end Path

namespace Site

theorem locate_congr {site : Site} {tree : Tree} {path other : Text} {bytes : Bytes} (spelled : Utf8.Spelled path bytes)
    (spelled' : Utf8.Spelled other bytes) {place : Place} :
    site.locate tree path = .ok place ↔ site.locate tree other = .ok place := by
  rw [locate_eq_ok_iff, locate_eq_ok_iff]
  simp only [Path.accept_congr spelled spelled']

theorem origin_ne_root {site : Site} (placed : site.Sound) {lead path rest name : Text} {start : Place}
    (proper : name ≠ []) (kind : path = lead ∨ path = lead ++ [.char '/'])
    (origin : site.origin path = .ok (start, rest)) :
    lead ++ .char '/' :: name ≠ site.root := by
  intro root
  obtain ⟨nonempty, ⟨inside, _⟩ | ⟨_, relative, _⟩⟩ := origin_eq_ok_iff.mp origin
  · have long : site.root.length ≤ path.length := by
      rcases inside with rfl | ⟨more, rfl⟩ <;> simp
    have short : path.length ≤ lead.length + 1 := by
      rcases kind with rfl | rfl <;> simp
    have size := congrArg List.length root
    have positive := List.length_pos_iff.mpr proper
    simp only [List.length_append, List.length_cons] at size
    omega
  · rcases placed with free | ⟨absolute, _⟩
    · rw [← root] at free
      simp at free
    · rw [← root] at absolute
      cases lead with
      | nil => rcases kind with rfl | rfl
               · exact nonempty rfl
               · exact relative rfl
      | cons c lead => rcases kind with rfl | rfl <;> exact relative absolute

/-- What a path below a directory leads to. -/
theorem locate_join_iff {site : Site} (placed : site.Sound) {tree : Tree} {directory text : Text} {place other : Place}
    (single : Path.Single text) (located : site.locate tree directory = .ok place)
    (inside : tree.get? place = some .directory) :
    site.locate tree (Path.join directory text) = .ok other ↔
      ∃ name, Path.Named name ∧ Path.Reads text name ∧ Path.size (Path.join directory text) ≤ Path.pathLimit ∧
        other = place ++ [name] := by
  have slash := single.slashless
  obtain ⟨known, start, rest, accepted, origin, walked⟩ := locate_eq_ok_iff.mp located
  obtain ⟨bytes, spelling, sound, _, rfl⟩ := Path.accept_eq_ok_iff.mp accepted
  have nonempty : directory ≠ [] := by
    rintro rfl
    cases spelling
    exact (origin_eq_ok_iff.mp origin).1 rfl
  obtain ⟨lead, joined, kind⟩ := Path.join_lead nonempty
  have relative : ∀ {name : Text}, .char '/' ∉ name → name.head? ≠ some (.char '/') :=
    fun free first => free (List.mem_of_head? first)
  have spelledLead : ∃ front, Utf8.Spelled lead front ∧ 0 ∉ front ∧
      (bytes = front ∨ bytes = front ++ [0x2F]) := by
    rcases kind with rfl | rfl
    · exact ⟨bytes, spelling, sound, .inl rfl⟩
    · obtain ⟨front, back, rfl, begin, tail⟩ := spelling.split
      obtain rfl := tail.unique Utf8.spelled_slash
      exact ⟨front, begin, fun null => sound (List.mem_append_left _ null), .inr rfl⟩
  obtain ⟨front, begin, clean, cut⟩ := spelledLead
  -- the path with the name as it is read has the same bytes
  have spells : ∀ {name : Text} {more : Bytes}, .char '/' ∉ name → Utf8.Spelled name more →
      Utf8.Spelled (Path.join directory name) (front ++ 0x2F :: more) := by
    intro name more free spelled
    rw [joined name (relative free)]
    exact begin.append (Utf8.spelled_slash.append spelled)
  constructor
  · intro further
    obtain ⟨whole, _, _, accepted', _⟩ := locate_eq_ok_iff.mp further
    obtain ⟨all, spelled, sound', short, rfl⟩ := Path.accept_eq_ok_iff.mp accepted'
    obtain ⟨more, naming⟩ : ∃ more, Utf8.Spelled text more := by
      rw [joined text (relative slash)] at spelled
      obtain ⟨_, back, _, _, tail⟩ := spelled.split
      obtain ⟨_, more, _, _, naming⟩ := (show Utf8.Spelled ([.char '/'] ++ text) back from tail).split
      exact ⟨more, naming⟩
    obtain rfl := spelled.unique (spells slash naming)
    obtain ⟨nonempty', free, notHere, notAbove⟩ := single.decoded naming
    have again : site.locate tree (Path.join directory (Utf8.decodeName more)) = .ok other :=
      (locate_congr (spells slash naming) (spells free (Utf8.spelled_decodeName more))).mp further
    have ends : Path.EndsIn (Utf8.decodeName (front ++ 0x2F :: more)) (Utf8.decodeName more) :=
      .inr ⟨_, Utf8.decodeName_slash front more⟩
    have short' : Path.size (Utf8.decodeName more) ≤ Path.nameLimit := by
      rcases locate_endsIn nonempty' free notHere notAbove accepted' ends further with ⟨_, root⟩ | ⟨short', _⟩
      · rw [Utf8.decodeName_slash] at root
        refine absurd root (origin_ne_root placed nonempty' ?_ origin)
        rcases cut with rfl | rfl
        · exact .inl rfl
        · exact .inr (Utf8.decodeName_slash front [])
      · exact short'
    have named : Path.Named (Utf8.decodeName more) :=
      ⟨nonempty', free, notHere, notAbove, short', more, Utf8.spelled_decodeName more,
        fun null => sound' (by simp [null]), rfl⟩
    refine ⟨_, named, ⟨more, naming, rfl⟩, ?_, ?_⟩
    · rw [Path.size_of_spelled (spells slash naming)]
      exact short
    · exact locate_walked placed (fun _ member => List.mem_singleton.mp member ▸ named) located
        (show site.locate tree (Path.walked directory [Utf8.decodeName more]) = _ from again)
  · rintro ⟨name, named, ⟨more, spelled, rfl⟩, short, rfl⟩
    have naming := Utf8.spelled_decodeName more
    rw [locate_congr (spells slash spelled) (spells named.noSlash naming)]
    apply locate_join placed named located inside
    rw [Path.size_of_spelled (spells named.noSlash naming), ← Path.size_of_spelled (spells slash spelled)]
    exact short

theorem locate_join_plain {site : Site} (placed : site.Sound) {tree : Tree} {directory text : Text}
    {place other : Place} (single : Path.Single text) (plain : text.Plain)
    (located : site.locate tree directory = .ok place) (inside : tree.get? place = some .directory)
    (further : site.locate tree (Path.join directory text) = .ok other) :
    other = place ++ [text] := by
  obtain ⟨name, _, reads, _, rfl⟩ := (locate_join_iff placed single located inside).mp further
  rw [reads.eq_of_plain plain]

theorem locate_last {site : Site} {tree : Tree} {path name : Text} {place : Place} (single : Path.Single name)
    (plain : name.Plain) (ends : Path.EndsIn path name) (located : site.locate tree path = .ok place) :
    place = [] ∨ ∃ before, place = before ++ [name] := by
  obtain ⟨known, _, _, accepted, _⟩ := locate_eq_ok_iff.mp located
  obtain ⟨bytes, spelled, _, _, rfl⟩ := Path.accept_eq_ok_iff.mp accepted
  have kept : Path.EndsIn (Utf8.decodeName bytes) name := by
    rcases ends with rfl | ⟨lead, rfl⟩
    · exact .inl (Path.Reads.eq_of_plain ⟨bytes, spelled, rfl⟩ plain)
    · obtain ⟨front, same⟩ := Path.Reads.suffix (m := 0x2F) (by decide) plain ⟨bytes, spelled, rfl⟩
      exact .inr ⟨front, same.symm⟩
  exact (locate_endsIn single.proper single.slashless single.notHere single.notAbove accepted kept located).imp
    (fun root => root.1) fun here => here.2

theorem page_unique {site : Site} {tree : Tree} {first second name other : Text} {place : Place} (inner : place ≠ [])
    (free : .char '/' ∉ name ∧ name.Plain) (free' : .char '/' ∉ other ∧ other.Plain)
    (ends : Path.EndsIn first (name ++ (".rst" : Text))) (ends' : Path.EndsIn second (other ++ (".rst" : Text)))
    (located : site.locate tree first = .ok place) (located' : site.locate tree second = .ok place) : other = name := by
  have last : ∀ {path name : Text}, .char '/' ∉ name ∧ name.Plain → Path.EndsIn path (name ++ (".rst" : Text)) →
      site.locate tree path = .ok place → ∃ before, place = before ++ [name ++ (".rst" : Text)] := by
    rintro path name ⟨slashless, plain⟩ ending here
    have single : Path.Single (name ++ (".rst" : Text)) := Path.single_append slashless (by decide) (by decide)
    exact (locate_last single (Text.plain_append.mpr ⟨plain, Text.plain_ofChars _⟩) ending here).resolve_left inner
  obtain ⟨before, eq⟩ := last free ends located
  obtain ⟨before', eq'⟩ := last free' ends' located'
  obtain ⟨_, same⟩ := List.append_inj' (eq'.symm.trans eq) rfl
  exact List.append_cancel_right (List.cons.inj same).1

/-- What one step below a directory leads to does not depend on the rest of the tree. -/
theorem locate_join_below {site : Site} (placed : site.Sound) {tree after : Tree} {directory text : Text}
    {place other : Place} (single : Path.Single text) (located : site.locate tree directory = .ok place)
    (inside : tree.get? place = some .directory) (located' : site.locate after directory = .ok place)
    (inside' : after.get? place = some .directory) :
    site.locate tree (Path.join directory text) = .ok other ↔
      site.locate after (Path.join directory text) = .ok other :=
  (locate_join_iff placed single located inside).trans (locate_join_iff placed single located' inside').symm

end Site
end ApiDocs
