import ApiDocs.Proofs.File.Below
import ApiDocs.Proofs.File.Confined
import ApiDocs.Proofs.Text.Replace

/-! Paths that go down. A path whose first name is that of a folder, and that nowhere steps up, leads into the folder,
whatever bytes its names are written with. -/

set_option autoImplicit false

namespace ApiDocs

theorem Text.split_ending {mark : CodePoint} (text : Text) {ending : Text} (free : mark ∉ ending) :
    split [mark] (text ++ ending) = (split [mark] text).dropLast ++ [afterLast mark text ++ ending] := by
  obtain ⟨bare, alone | ⟨lead, whole⟩⟩ := afterLast_spec mark text
  · have clean : mark ∉ text := by rwa [alone]
    rw [split_free clean, ← alone, split_free fun member => (List.mem_append.mp member).elim clean free]
    rfl
  · have joined : mark ∉ afterLast mark text ++ ending := fun member => (List.mem_append.mp member).elim bare free
    have cut : split [mark] text = split [mark] lead ++ [afterLast mark text] := by
      conv_lhs => rw [whole, split_append, split_free bare]
    have whole' : text ++ ending = lead ++ mark :: (afterLast mark text ++ ending) := by
      conv_lhs => rw [whole, List.append_assoc, List.cons_append]
    rw [whole', split_append, split_free joined, cut, List.dropLast_concat]

theorem Utf8.Spelled.low_unique {text other : Text} {bytes : Bytes} (low : ∀ m ∈ bytes, m.toNat < 0x80)
    (spelled : Spelled text bytes) (spelled' : Spelled other bytes) : text = other := by
  induction bytes generalizing text other with
  | nil => rw [spelled.eq_nil, spelled'.eq_nil]
  | cons m bytes ih =>
    obtain ⟨more, rfl, rest⟩ := spelled.low_cons (low m List.mem_cons_self)
    obtain ⟨more', rfl, rest'⟩ := spelled'.low_cons (low m List.mem_cons_self)
    rw [ih (fun other member => low other (List.mem_cons_of_mem _ member)) rest rest']

namespace Path

theorem split_slash (first second : Text) :
    Text.split "/" (first ++ .char '/' :: second) = Text.split "/" first ++ Text.split "/" second :=
  Text.split_append _ first second

theorem split_slashless {name : Text} (slashless : .char '/' ∉ name) : Text.split "/" name = [name] :=
  Text.split_free slashless

theorem reads_of_accept {path known : Text} (accepted : accept path = .ok known) :
    List.Forall₂ Reads (Text.split "/" path) (Text.split "/" known) := by
  obtain ⟨bytes, spelled, limits, short, rfl⟩ := accept_eq_ok_iff.mp accepted
  clear accepted limits short
  induction size : path.length using Nat.strongRecOn generalizing path bytes with
  | _ length ih =>
    by_cases slash : .char '/' ∈ path
    · obtain ⟨first, second, rfl, bare⟩ := List.eq_append_cons_of_mem slash
      obtain ⟨left, more, rfl, begin, rest⟩ := spelled.split
      obtain ⟨mark, right, rfl, here, last⟩ := (show Utf8.Spelled ([.char '/'] ++ second) more from rest).split
      obtain rfl := here.unique Utf8.spelled_slash
      have free : .char '/' ∉ Utf8.decodeName left := by
        rwa [(Utf8.spelled_decodeName left).slash_iff, ← begin.slash_iff]
      have shorter : second.length < length := by
        rw [← size, List.length_append, List.length_cons]
        omega
      rw [List.singleton_append, Utf8.decodeName_slash, split_slash, split_slash, split_slashless bare,
        split_slashless free]
      exact .cons ⟨left, begin, rfl⟩ (ih _ shorter right last rfl)
    · have free : .char '/' ∉ Utf8.decodeName bytes := by
        rwa [(Utf8.spelled_decodeName bytes).slash_iff, ← spelled.slash_iff]
      rw [split_slashless slash, split_slashless free]
      exact .cons ⟨bytes, spelled, rfl⟩ .nil

theorem exists_reads {texts names : List Text} (reads : List.Forall₂ Reads texts names) {name : Text}
    (member : name ∈ names) :
    ∃ text ∈ texts, Reads text name := by
  induction reads with
  | nil => cases member
  | @cons text other texts names head tail ih =>
    rcases List.mem_cons.mp member with rfl | later
    · exact ⟨text, List.mem_cons_self, head⟩
    · obtain ⟨found, inside, reads⟩ := ih later
      exact ⟨found, List.mem_cons_of_mem _ inside, reads⟩

theorem Reads.eq_of_low {text name : Text} (reads : Reads text name) (plain : name.Plain)
    (low : ∀ m ∈ Utf8.bytesOf name, m.toNat < 0x80) : text = name := by
  obtain ⟨bytes, spelled, whole⟩ := reads
  have other := Utf8.spelled_decodeName bytes
  rw [whole] at other
  obtain rfl := other.unique (Utf8.spelled_of_plain plain)
  exact spelled.low_unique low other

theorem Reads.ne_above {text name : Text} (reads : Reads text name) (level : text ≠ "..") : name ≠ ".." := by
  rintro rfl
  exact level (reads.eq_of_low (Text.plain_ofChars _) (by decide +kernel))

/-- A text that is no step up with endings of modules put in: it has another character, or no two dots in a row. -/
def Steady (text : Text) : Prop := (".." : Text) <:+: text → ∃ c ∈ text, c ∉ (".py" : Text)

instance (text : Text) : Decidable (Steady text) := inferInstanceAs (Decidable (_ → _))

theorem Steady.ne_above {text : Text} (steady : Steady text) : text ≠ ".." := by
  rintro rfl
  exact absurd steady (by decide)

theorem steady_of_dotless {text : Text} (dotless : .char '.' ∉ text) : Steady text :=
  fun inside => absurd (inside.subset (by decide)) dotless

theorem Steady.read {text name : Text} (steady : Steady text) (reads : Reads text name) : Steady name := by
  intro dots
  by_contra none
  have each : ∀ c ∈ name, c ∈ (".py" : Text) := fun c member => by_contra fun other => none ⟨c, member, other⟩
  have low : ∀ c ∈ (".py" : Text), ∀ m ∈ Utf8.bytesOf [c], m.toNat < 0x80 := by decide +kernel
  have plain : name.Plain := fun c member => (show Text.Plain ".py" from Text.plain_ofChars _) c (each c member)
  have same : text = name := by
    refine reads.eq_of_low plain fun m member => ?_
    obtain ⟨c, inside, byte⟩ := List.mem_flatMap.mp member
    exact low c (each c inside) m (List.mem_flatMap.mpr ⟨c, List.mem_singleton_self c, byte⟩)
  obtain ⟨c, member, other⟩ := steady (same ▸ dots)
  exact other (each c (same ▸ member))

/-- Taking endings out of a text brings no dots together: what is taken out begins with a dot itself. -/
theorem dots_of_replace {text : Text} (dots : (".." : Text) <:+: Text.replace ".py" "" text) :
    (".." : Text) <:+: text := by
  have proper : (".py" : Text) ≠ [] := by decide
  -- a dot that comes to the front has been there, or an ending before it has
  have first : ∀ rest : Text, (Text.replace ".py" "" rest).head? = some (.char '.') →
      rest.head? = some (.char '.') := by
    intro rest starts
    cases rest with
    | nil => exact starts
    | cons c rest =>
      by_cases ending : (".py" : Text) <+: c :: rest
      · rw [show c = .char '.' from ((List.cons_prefix_cons.mp ending).1).symm]
        rfl
      · rwa [Text.replace_cons proper "" ending] at starts
  induction text using Text.replaced_induction proper with
  | nil => exact dots
  | start rest ih =>
    rw [Text.replace_start proper] at dots
    exact (ih dots).trans (List.suffix_append _ rest).isInfix
  | cons c rest absent ih =>
    rw [Text.replace_cons proper "" absent] at dots
    rcases List.infix_cons_iff.mp dots with starts | later
    · obtain ⟨rfl, more, whole⟩ := List.cons_prefix_cons.mp starts
      have second : rest.head? = some (.char '.') := first rest (by rw [← whole]; rfl)
      obtain ⟨tail, rfl⟩ := List.head?_eq_some_iff.mp second
      exact ⟨[], tail, rfl⟩
    · exact (ih later).trans (List.suffix_cons c rest).isInfix

theorem Steady.replace_module {text : Text} (steady : Steady text) : Steady (Text.replace ".py" "" text) := by
  intro dots
  obtain ⟨c, member, other⟩ := steady (dots_of_replace dots)
  exact ⟨c, (Text.mem_of_replace (show (".py" : Text) ≠ [] by decide) "" member).resolve_left other, other⟩

/-- A path whose names are this one and then others of a kind. Slashes may stand together and at the end. -/
def Downward (first : Text) (fits : Text → Prop) (path : Text) : Prop :=
  ∃ rest, Text.split "/" path = first :: rest ∧ ∀ piece ∈ rest, fits piece

namespace Downward
variable {first : Text} {fits : Text → Prop} {path : Text}

theorem start (slashless : .char '/' ∉ first) (fits : Text → Prop) : Downward first fits first :=
  ⟨[], split_slashless slashless, fun _ member => absurd member List.not_mem_nil⟩

theorem mono {more : Text → Prop} (down : Downward first fits path) (wider : ∀ text, fits text → more text) :
    Downward first more path :=
  down.imp fun _ ⟨cut, each⟩ => ⟨cut, fun piece member => wider piece (each piece member)⟩

theorem extend (down : Downward first fits path) {more : Text} (each : ∀ piece ∈ Text.split "/" more, fits piece) :
    Downward first fits (path ++ .char '/' :: more) := by
  obtain ⟨rest, cut, inner⟩ := down
  refine ⟨rest ++ Text.split "/" more, by rw [split_slash, cut, List.cons_append], fun piece member => ?_⟩
  exact (List.mem_append.mp member).elim (inner piece) (each piece)

theorem shorten {more : Text} (down : Downward first fits (path ++ .char '/' :: more)) : Downward first fits path := by
  obtain ⟨rest, cut, each⟩ := down
  rw [split_slash] at cut
  cases pieces : Text.split "/" path with
  | nil => exact absurd pieces (Text.splitSkipping_ne_nil _ _ _)
  | cons name names =>
    rw [pieces, List.cons_append, List.cons.injEq] at cut
    obtain ⟨rfl, rfl⟩ := cut
    exact ⟨names, pieces, fun piece member => each piece (List.mem_append_left _ member)⟩

theorem begins (down : Downward first fits path) : path = first ∨ ∃ rest, path = first ++ .char '/' :: rest := by
  obtain ⟨rest, cut, _⟩ := down
  have whole : Text.join "/" (first :: rest) = path := by rw [← cut, Text.join_split (by decide)]
  cases rest with
  | nil => exact .inl whole.symm
  | cons next rest =>
    refine .inr ⟨Text.join "/" (next :: rest), ?_⟩
    rw [← whole, Text.join_cons (List.cons_ne_nil _ _), List.append_assoc]
    rfl

end Downward

theorem dropSlashes_cases (path : Text) :
    dropSlashes path = path ∨ ∃ more, path = dropSlashes path ++ .char '/' :: more := by
  have whole : path = dropSlashes path ++ (path.reverse.takeWhile (· == .char '/')).reverse := by
    rw [dropSlashes, ← List.reverse_append, List.takeWhile_append_dropWhile, List.reverse_reverse]
  cases slashes : (path.reverse.takeWhile (· == CodePoint.char '/')).reverse with
  | nil => exact .inl (by rwa [slashes, List.append_nil, eq_comm] at whole)
  | cons c more =>
    have member : c ∈ path.reverse.takeWhile (· == CodePoint.char '/') := by
      rw [← List.mem_reverse, slashes]
      exact List.mem_cons_self
    have slash : c = .char '/' := by simpa using List.all_eq_true.mp List.all_takeWhile c member
    rw [slashes, slash] at whole
    exact .inr ⟨more, whole⟩

theorem directory_cases (path : Text) :
    directory path = [] ∨ path.head? = some (.char '/') ∨ ∃ more, path = directory path ++ .char '/' :: more := by
  obtain ⟨slashless, alone | ⟨lead, whole⟩⟩ := Text.afterLast_spec '/' path
  · exact .inl (directory_name (by rw [alone]; exact slashless))
  · have front : path.take (path.length - (base path).length) = lead ++ [.char '/'] := by
      rw [show base path = Text.afterLast '/' path from rfl]
      generalize Text.afterLast '/' path = last at whole
      rw [whole, List.length_append, List.length_cons,
        show lead.length + (last.length + 1) - last.length = lead.length + 1 by omega, List.take_length_add_append]
      rfl
    unfold directory
    rw [front]
    -- of slashes alone none is dropped, and such a path begins with one
    by_cases slashes : List.all (lead ++ [CodePoint.char '/']) (· == CodePoint.char '/') = true
    · rw [whole]
      cases lead with
      | nil => exact .inr (.inl rfl)
      | cons c lead =>
        rw [List.cons_append, List.all_cons, Bool.and_eq_true, beq_iff_eq] at slashes
        exact .inr (.inl (by rw [slashes.1]; rfl))
    · refine .inr (.inr ?_)
      have dropped : dropSlashes (lead ++ [.char '/']) = dropSlashes lead := by simp [dropSlashes]
      rw [if_neg slashes, dropped]
      rcases dropSlashes_cases lead with same | ⟨more, cut⟩
      · exact ⟨_, by rw [same]; exact whole⟩
      · refine ⟨more ++ .char '/' :: Text.afterLast '/' path, ?_⟩
        rw [← List.cons_append, ← List.append_assoc, ← cut]
        exact whole

namespace Downward
variable {first : Text} {fits : Text → Prop} {path : Text} (single : Single first) (down : Downward first fits path)
include down

theorem dropSlashes : Downward first fits (dropSlashes path) := by
  rcases dropSlashes_cases path with same | ⟨more, whole⟩
  · rwa [same]
  · rw [whole] at down
    exact down.shorten

section
include single

theorem relative : path.head? ≠ some (.char '/') := by
  have other : first.head? ≠ some (.char '/') := fun slash => single.slashless (List.mem_of_head? slash)
  cases first with
  | nil => exact absurd rfl single.proper
  | cons c first =>
    rcases down.begins with whole | ⟨rest, whole⟩ <;> rw [whole] <;> exact other

theorem directory : Path.directory path = [] ∨ Downward first fits (Path.directory path) := by
  rcases directory_cases path with alone | slash | ⟨more, whole⟩
  · exact .inl alone
  · exact absurd slash (down.relative single)
  · rw [whole] at down
    exact .inr down.shorten

end

theorem accept (plain : first.Plain) (closed : ∀ text name, fits text → Reads text name → fits name) {known : Text}
    (accepted : Path.accept path = .ok known) : Downward first fits known := by
  obtain ⟨rest, cut, each⟩ := down
  have reads := reads_of_accept accepted
  rw [cut] at reads
  cases pieces : Text.split "/" known with
  | nil => exact absurd pieces (Text.splitSkipping_ne_nil _ _ _)
  | cons name names =>
    rw [pieces, List.forall₂_cons] at reads
    obtain ⟨head, tail⟩ := reads
    refine ⟨names, by rw [pieces, head.eq_of_plain plain], fun piece member => ?_⟩
    obtain ⟨text, inside, reads⟩ := exists_reads tail member
    exact closed text piece (each text inside) reads

end Downward
end Path

namespace Site

theorem prefix_of_walk {tree : Tree} {start place : Place} {names : List Text} (level : ∀ name ∈ names, name ≠ "..")
    (walked : walk tree start names = .ok place) : start <+: place := by
  induction names generalizing start with
  | nil => exact Except.ok.inj walked ▸ List.prefix_rfl
  | cons name names ih =>
    simp only [walk] at walked
    split at walked
    · cases stepped : step start name with
      | error refusal => rw [stepped] at walked; cases walked
      | ok next =>
        rw [stepped] at walked
        have down : start <+: next := by
          unfold step at stepped
          rw [if_neg (level name List.mem_cons_self)] at stepped
          split at stepped
          · exact Except.ok.inj stepped ▸ List.prefix_rfl
          split at stepped
          · cases stepped
          · exact Except.ok.inj stepped ▸ List.prefix_append _ _
        exact down.trans (ih (fun other member => level other (List.mem_cons_of_mem _ member)) walked)
    · cases walked
    · cases walked

/-- A path that goes down leads into its first folder. -/
theorem prefix_of_locate {site : Site} (placed : site.Sound) {first : Text} (apart : site.root ≠ first)
    (literal : Path.Literal first) {path : Text} (down : Path.Downward first (· ≠ "..") path) {tree : Tree}
    {place : Place} (located : site.locate tree path = .ok place) : site.start ++ [first] <+: place := by
  obtain ⟨known, start, rest, accepted, origin, walked⟩ := locate_eq_ok_iff.mp located
  have inner := down.accept literal.plain (fun _ _ level reads => reads.ne_above level) accepted
  have relative := inner.relative literal.toSingle
  obtain ⟨_, ⟨fromRoot, _⟩ | ⟨_, _, rfl, rfl⟩⟩ := origin_eq_ok_iff.mp origin
  · exact absurd fromRoot (placed.not_fromRoot apart literal.slashless inner.begins relative)
  · -- the first name goes down from the start, and no later one goes above that
    obtain ⟨names, cut, each⟩ := inner
    have listed : Path.names rest = first :: (names.filter (!·.isEmpty) ++
        (if rest.getLast? = some (.char '/') then [("." : Text)] else [])) := by
      rw [Path.names_eq, Path.parts, cut, List.filter_cons_of_pos (by simpa using literal.proper), List.cons_append]
    rw [listed, walk] at walked
    split at walked
    · cases stepped : step site.start first with
      | error refusal => rw [stepped] at walked; cases walked
      | ok next =>
        rw [stepped] at walked
        rw [← step_single literal.toSingle stepped]
        refine prefix_of_walk (fun name member => ?_) walked
        rcases List.mem_append.mp member with inside | dot
        · exact each name (List.mem_of_mem_filter inside)
        · split at dot
          · rw [List.mem_singleton.mp dot]
            decide
          · cases dot
    · cases walked
    · cases walked

theorem steady_of_locate {site : Site} {tree : Tree} (sound : tree.Sound) {path : Text}
    (steady : ∀ piece ∈ Text.split "/" path, Path.Steady piece) {place : Place}
    (located : site.locate tree path = .ok place) (vacant : tree.get? place = none) :
    ∃ name, place.getLast? = some name ∧ Path.Steady name := by
  rcases locate_part sound located with directory | ⟨before, name, known, rfl, _, _, accepted, part⟩
  · rw [vacant] at directory
    cases directory
  · refine ⟨name, List.getLast?_concat .., ?_⟩
    obtain ⟨text, inside, reads⟩ := Path.exists_reads (Path.reads_of_accept accepted) (List.mem_of_mem_filter part)
    exact (steady text inside).read reads

end Site
end ApiDocs
