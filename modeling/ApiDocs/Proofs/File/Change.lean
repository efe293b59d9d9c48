import ApiDocs.Proofs.File.Directory

/-! What changes keep. A path leads into directories by proper names, so a file or directory that is made
where a path leads has a proper name and lies in a directory. -/

set_option autoImplicit false

namespace ApiDocs

namespace Utf8

/-- A name that is read off bytes is read off them part by part. -/
theorem decodeName_parts {first second : Text} {bytes : Bytes}
    (whole : decodeName bytes = first ++ .char '/' :: second) (free : .char '/' ∉ first) :
    ∃ left right, bytes = left ++ 0x2F :: right ∧ decodeName left = first ∧ decodeName right = second := by
  have spelled := spelled_decodeName bytes
  rw [whole] at spelled
  obtain ⟨left, more, rfl, begin, rest⟩ := spelled.split
  obtain ⟨slash, right, rfl, mark, _⟩ := (show Spelled ([.char '/'] ++ second) more from rest).split
  obtain rfl := mark.unique spelled_slash
  have bare : .char '/' ∉ decodeName left := by
    rw [(spelled_decodeName left).slash_iff, ← begin.slash_iff]
    exact free
  have cut : decodeName left ++ .char '/' :: decodeName right = first ++ .char '/' :: second :=
    (decodeName_slash left right).symm.trans whole
  obtain ⟨begin, rest⟩ := Text.append_mark_inj bare free cut
  exact ⟨left, right, rfl, begin, rest⟩

theorem decodeName_piece {known : Text} {bytes : Bytes} (whole : decodeName bytes = known) :
    ∀ piece ∈ Text.split "/" known, ∃ part, decodeName part = piece ∧ part ⊆ bytes := by
  induction size : known.length using Nat.strongRecOn generalizing known bytes with
  | _ size ih =>
    intro piece member
    by_cases free : .char '/' ∈ known
    · obtain ⟨first, second, rfl, bare⟩ := List.eq_append_cons_of_mem free
      obtain ⟨left, right, rfl, begin, rest⟩ := decodeName_parts whole bare
      rw [show Text.split "/" (first ++ .char '/' :: second) = Text.split "/" first ++ Text.split "/" second from
        Text.split_append _ first second, show Text.split "/" first = [first] from Text.split_free bare] at member
      rcases List.mem_append.mp member with here | later
      · rw [List.mem_singleton.mp here]
        exact ⟨left, begin, by simp⟩
      · obtain ⟨part, eq, inside⟩ := ih second.length (by simp [← size]; omega) rest rfl piece later
        exact ⟨part, eq, fun b mem => by simp [inside mem]⟩
    · rw [show Text.split "/" known = [known] from Text.split_free free] at member
      rw [List.mem_singleton.mp member]
      exact ⟨bytes, whole, fun b mem => mem⟩

end Utf8

namespace Path

theorem named_of_accept {path known name : Text} (accepted : accept path = .ok known)
    (part : name ∈ parts known) (here : name ≠ ".") (above : name ≠ "..") (short : size name ≤ nameLimit) :
    Named name := by
  obtain ⟨member, proper⟩ := List.mem_filter.mp part
  obtain ⟨bytes, _, clean, _, rfl⟩ := accept_eq_ok_iff.mp accepted
  obtain ⟨inner, eq, inside⟩ := Utf8.decodeName_piece rfl name member
  refine ⟨by simpa using proper, Text.split_noMark member, here, above, short, inner, ?_, ?_, eq⟩
  · rw [← eq]
    exact Utf8.spelled_decodeName inner
  · exact fun null => clean (inside null)

theorem suffix_join (directory name : Text) : name <:+ join directory name := by
  unfold join
  split
  · exact List.suffix_rfl
  split
  · exact List.suffix_append _ _
  · exact List.suffix_append _ _

theorem parts_of_names {path name : Text} {front : List Text} (named : Named name)
    (eq : names path = front ++ [name]) : parts path = front ++ [name] := by
  rw [names_eq] at eq
  split at eq
  · exact absurd (List.singleton_inj.mp (List.append_inj' eq rfl).2).symm named.notHere
  · simpa using eq

theorem accept_walked {path known : Text} {names : Place} (named : ∀ name ∈ names, Named name)
    (accepted : accept path = .ok known) (short : size (walked path names) ≤ pathLimit) :
    accept (walked path names) = .ok (walked known names) := by
  induction names generalizing path known with
  | nil => exact accepted
  | cons name names ih =>
    have later : ∀ other ∈ names, Named other := fun other member => named other (List.mem_cons_of_mem _ member)
    have fits : size (join path name) ≤ pathLimit := Nat.le_trans (size_le_walked _ later) short
    exact ih later (accept_join (named name List.mem_cons_self) accepted fits) short

theorem parts_ne_nil {path : Text} (proper : path ≠ []) (relative : path.head? ≠ some (.char '/')) :
    parts path ≠ [] := by
  cases path with
  | nil => exact absurd rfl proper
  | cons c rest =>
    have differs : c ≠ .char '/' := fun eq => relative (by rw [eq]; rfl)
    have cut : Text.split "/" (c :: rest) = Text.consFirst c (Text.split "/" rest) :=
      (Text.split_cons (.char '/') c rest).trans (if_neg differs)
    rw [parts, cut]
    cases Text.split "/" rest <;> simp [Text.consFirst]

end Path

namespace Site

theorem parts_origin {site : Site} {known rest : Text} {start : Place}
    (origin : site.origin known = .ok (start, rest)) : Path.parts rest ⊆ Path.parts known := by
  obtain ⟨_, ⟨inside, _, rfl⟩ | ⟨_, _, _, rfl⟩⟩ := origin_eq_ok_iff.mp origin
  · rcases inside with rfl | ⟨more, rfl⟩
    · simp [Path.parts_nil]
    · rw [List.drop_left, Path.parts_slash, show Path.parts (.char '/' :: more) = Path.parts more from
        Path.parts_slash [] more]
      exact List.subset_append_right _ _
  · exact fun name member => member

theorem locate_part {site : Site} {tree : Tree} (sound : tree.Sound) {path : Text} {place : Place}
    (located : site.locate tree path = .ok place) :
    tree.get? place = some .directory ∨ ∃ before name known, place = before ++ [name] ∧ Path.Named name ∧
      tree.get? before = some .directory ∧ Path.accept path = .ok known ∧ name ∈ Path.parts known := by
  obtain ⟨known, start, rest, accepted, origin, walked⟩ := locate_eq_ok_iff.mp located
  rcases List.eq_nil_or_concat (Path.names rest) with empty | ⟨front, name, eq⟩
  · rw [empty] at walked
    obtain rfl : start = place := Except.ok.inj walked
    obtain ⟨proper, ⟨_, rfl, _⟩ | ⟨_, relative, _, same⟩⟩ := origin_eq_ok_iff.mp origin
    · exact .inl rfl
    · rw [same, Path.names_eq] at empty
      exact absurd (List.append_eq_nil_iff.mp empty).1 (Path.parts_ne_nil proper relative)
  · rw [List.concat_eq_append] at eq
    rw [eq] at walked
    obtain ⟨between, _, directory, stepped⟩ := walk_last walked
    unfold step at stepped
    split at stepped
    · -- the last name stays, goes up or goes down; only the last way leaves a directory
      obtain rfl := Except.ok.inj stepped
      exact .inl directory
    split at stepped
    · split at stepped
      · cases stepped
      · rename_i inside
        obtain rfl := Except.ok.inj stepped
        have last := List.dropLast_append_getLast inside
        exact .inl (sound.parent _ _ (by rw [last, directory]; rfl))
    split at stepped
    · cases stepped
    · rename_i here above short
      have member : name ∈ Path.parts rest := by
        have listed : name ∈ Path.names rest := by rw [eq]; simp
        rw [Path.names_eq] at listed
        rcases List.mem_append.mp listed with part | dot
        · exact part
        · split at dot
          · exact absurd (List.mem_singleton.mp dot) here
          · cases dot
      have part := parts_origin origin member
      exact .inr ⟨between, name, known, (Except.ok.inj stepped).symm,
        Path.named_of_accept accepted part here above (by omega), directory, accepted, part⟩

theorem locate_cases {site : Site} {tree : Tree} (sound : tree.Sound) {path : Text} {place : Place}
    (located : site.locate tree path = .ok place) :
    tree.get? place = some .directory ∨
      ∃ before name, place = before ++ [name] ∧ Path.Named name ∧ tree.get? before = some .directory :=
  (locate_part sound located).imp_right fun ⟨before, name, _, here, named, directory, _⟩ =>
    ⟨before, name, here, named, directory⟩

theorem walk_names {tree : Tree} {place other : Place} {names : Place} (single : ∀ name ∈ names, Path.Single name)
    (walked : walk tree place names = .ok other) : other = place ++ names := by
  induction names generalizing place with
  | nil => simpa using (Except.ok.inj walked).symm
  | cons name names ih =>
    simp only [walk] at walked
    split at walked
    · cases stepped : step place name with
      | error refusal => rw [stepped] at walked; cases walked
      | ok next =>
        rw [stepped] at walked
        rw [ih (fun other member => single other (List.mem_cons_of_mem _ member)) walked,
          step_single (single name List.mem_cons_self) stepped]
        simp
    · cases walked
    · cases walked

theorem origin_walked {site : Site} (sound : site.Sound) {path rest : Text} {start names : Place}
    (named : ∀ name ∈ names, Path.Named name) (origin : site.origin path = .ok (start, rest)) :
    ∃ more, site.origin (Path.walked path names) = .ok (start, more) ∧
      Path.parts more = Path.parts rest ++ names := by
  induction names generalizing path rest with
  | nil => exact ⟨rest, origin, by simp⟩
  | cons name names ih =>
    have proper := named name List.mem_cons_self
    obtain ⟨between, further, eq⟩ := origin_join sound proper origin
    obtain ⟨more, last, parts⟩ := ih (fun other member => named other (List.mem_cons_of_mem _ member)) further
    refine ⟨more, last, ?_⟩
    rw [parts, Path.parts_of_names proper eq]
    simp

theorem locate_walked {site : Site} (sound : site.Sound) {tree : Tree} {path : Text} {place other names : Place}
    (named : ∀ name ∈ names, Path.Named name) (located : site.locate tree path = .ok place)
    (further : site.locate tree (Path.walked path names) = .ok other) : other = place ++ names := by
  obtain ⟨known, start, rest, accepted, origin, walked⟩ := locate_eq_ok_iff.mp located
  obtain ⟨known', start', rest', accepted', origin', walked'⟩ := locate_eq_ok_iff.mp further
  rw [Path.accept_walked named accepted (Path.size_le_of_accept accepted')] at accepted'
  obtain rfl := Except.ok.inj accepted'
  obtain ⟨more, again, parts⟩ := origin_walked sound named origin
  obtain ⟨rfl, rfl⟩ := Prod.mk.inj (Except.ok.inj (again.symm.trans origin'))
  have whole := walk_parts walked'
  rw [parts, walk_append, walk_parts walked] at whole
  exact walk_names (fun name member => (named name member).single) whole

end Site

namespace Tree

theorem Sound.put {tree : Tree} (sound : tree.Sound) {place : Place} {entry : Entry}
    (kept : tree.get? place = some .directory → entry = .directory)
    (proper : (tree.get? place).isSome = true ∨
      ∃ before name, place = before ++ [name] ∧ Path.Named name ∧ tree.get? before = some .directory) :
    (tree.put place entry).Sound := by
  -- an entry of the changed tree is an old one or the new one
  have old : ∀ front name, ((tree.put place entry).get? (front ++ [name])).isSome = true →
      Path.Named name ∧ tree.get? front = some .directory := by
    intro front name present
    rw [get?_put _ _ _ _ (by simp)] at present
    by_cases here : place = front ++ [name]
    · rcases proper with held | ⟨before, last, eq, named, above⟩
      · rw [here] at held
        exact ⟨sound.named _ _ held, sound.parent _ _ held⟩
      · obtain ⟨rfl, same⟩ := List.append_inj' (here.symm.trans eq) rfl
        obtain rfl := List.singleton_inj.mp same
        exact ⟨named, above⟩
    · rw [if_neg here] at present
      exact ⟨sound.named _ _ present, sound.parent _ _ present⟩
  refine ⟨fun front name present => (old front name present).1, fun front name present => ?_⟩
  have above := (old front name present).2
  by_cases root : front = []
  · rw [root]; rfl
  · rw [get?_put _ _ _ _ root]
    split
    · rename_i eq
      rw [kept (by rw [eq]; exact above)]
    · exact above

theorem Sound.erase {tree : Tree} (sound : tree.Sound) (place : Place) : (tree.erase place).Sound := by
  have stays : ∀ front name, ((tree.erase place).get? (front ++ [name])).isSome = true →
      place.isPrefixOf (front ++ [name]) = false ∧ (tree.get? (front ++ [name])).isSome = true := by
    intro front name present
    rw [get?_erase _ _ _ (by simp)] at present
    cases gone : place.isPrefixOf (front ++ [name]) with
    | true => rw [gone] at present; cases present
    | false => rw [gone] at present; exact ⟨rfl, present⟩
  refine ⟨fun front name present => sound.named _ _ (stays front name present).2, fun front name present => ?_⟩
  obtain ⟨kept, held⟩ := stays front name present
  by_cases root : front = []
  · rw [root]; rfl
  · rw [get?_erase _ _ _ root, if_neg, sound.parent _ _ held]
    intro gone
    have above := (List.isPrefixOf_iff_prefix.mp gone).trans (List.prefix_append front [name])
    rw [List.isPrefixOf_iff_prefix.mpr above] at kept
    cases kept

def Distinct (tree : Tree) : Prop := (tree.entries.map Prod.fst).Nodup

theorem Distinct.put {tree : Tree} (distinct : tree.Distinct) (place : Place) (entry : Entry) :
    (tree.put place entry).Distinct := by
  have keys : ∀ (table : Table Place Entry) (other : Place),
      other ∈ (table.put place entry).map Prod.fst ↔ other = place ∨ other ∈ table.map Prod.fst := by
    intro table other
    rw [← Table.isSome_get?, Table.get?_put, ← Table.isSome_get?]
    by_cases same : place = other
    · simp [same]
    · simp [same, Ne.symm same]
  obtain ⟨entries⟩ := tree
  simp only [Distinct, Tree.put] at distinct ⊢
  induction entries with
  | nil => simp [Table.put]
  | cons first entries ih =>
    obtain ⟨fresh, rest⟩ := List.nodup_cons.mp distinct
    by_cases same : first.1 = place
    · rw [Table.put, if_pos same, List.map_cons, List.nodup_cons]
      exact ⟨same ▸ fresh, rest⟩
    · rw [Table.put, if_neg same, List.map_cons, List.nodup_cons, keys]
      exact ⟨fun member => member.elim same fresh, ih rest⟩

theorem Distinct.erase {tree : Tree} (distinct : tree.Distinct) (place : Place) : (tree.erase place).Distinct :=
  distinct.sublist (List.filter_sublist.map Prod.fst)

theorem below_cons (source other : Place) (entry : Entry) (entries : Table Place Entry) :
    (Tree.mk ((other, entry) :: entries)).below source =
      if source.isPrefixOf other then (other.drop source.length, entry) :: (Tree.mk entries).below source
      else (Tree.mk entries).below source := by
  rw [below, List.filterMap_cons]
  dsimp only
  cases source.isPrefixOf other <;> rfl

theorem get?_below_names (tree : Tree) (source names : Place) :
    Table.get? names (tree.below source) = tree.entries.get? (source ++ names) := by
  obtain ⟨entries⟩ := tree
  induction entries with
  | nil => rfl
  | cons first entries ih =>
    obtain ⟨other, entry⟩ := first
    rw [below_cons]
    split
    · rename_i under
      obtain ⟨rest, rfl⟩ := List.isPrefixOf_iff_prefix.mp under
      simp only [Table.get?, List.drop_left, List.append_cancel_left_eq, ih]
    · rename_i outside
      rw [ih, Table.get?, if_neg]
      rintro rfl
      simp at outside

theorem nodup_below {tree : Tree} (distinct : tree.Distinct) (source : Place) :
    ((tree.below source).map Prod.fst).Nodup := by
  obtain ⟨entries⟩ := tree
  induction entries with
  | nil => simp [below]
  | cons first entries ih =>
    obtain ⟨other, entry⟩ := first
    obtain ⟨fresh, rest⟩ := List.nodup_cons.mp distinct
    rw [below_cons]
    split
    · rename_i under
      obtain ⟨names, rfl⟩ := List.isPrefixOf_iff_prefix.mp under
      rw [List.map_cons, List.nodup_cons, List.drop_left, ← Table.isSome_get?, get?_below_names,
        Table.isSome_get?]
      exact ⟨fresh, ih rest⟩
    · exact ih rest

theorem graft_eq (tree : Tree) (source target : Place) :
    tree.graft source target = (tree.below source).foldl (fun tree item => tree.put (target ++ item.1) item.2) tree :=
      rfl

/-- A copy holds what was copied, and elsewhere nothing changes. -/
theorem get?_graft {tree : Tree} (distinct : tree.Distinct) (source target : Place) {place : Place}
    (proper : place ≠ []) :
    (tree.graft source target).get? place =
      (if target.isPrefixOf place then tree.entries.get? (source ++ place.drop target.length) else none).or
        (tree.get? place) := by
  -- the entries are put one after the other, so the induction is on what is still to be put
  suffices general : ∀ (items : List (Place × Entry)) (start : Tree), (items.map Prod.fst).Nodup →
      (items.foldl (fun tree item => tree.put (target ++ item.1) item.2) start).get? place =
        (if target.isPrefixOf place then Table.get? (place.drop target.length) items else none).or
          (start.get? place) by
    rw [graft_eq, general _ _ (nodup_below distinct source), get?_below_names]
  intro items
  induction items with
  | nil => simp [Table.get?]
  | cons first items ih =>
    obtain ⟨names, entry⟩ := first
    intro start nodup
    obtain ⟨fresh, rest⟩ := List.nodup_cons.mp nodup
    rw [List.foldl_cons, ih _ rest, get?_put _ _ _ _ proper]
    by_cases here : target ++ names = place
    · subst here
      have none : Table.get? names items = none := by
        cases found : Table.get? names items with
        | none => rfl
        | some other => exact absurd (Table.isSome_get?.mp (by rw [found]; rfl)) fresh
      simp [Table.get?, none]
    · rw [if_neg here]
      by_cases under : target.isPrefixOf place = true
      · obtain ⟨more, rfl⟩ := List.isPrefixOf_iff_prefix.mp under
        have differs : ¬names = more := fun eq => here (by rw [eq])
        simp [Table.get?, differs]
      · simp [under]

theorem Distinct.graft {tree : Tree} (distinct : tree.Distinct) (source target : Place) :
    (tree.graft source target).Distinct := by
  suffices general : ∀ (items : List (Place × Entry)) (start : Tree), start.Distinct →
      (items.foldl (fun tree item => tree.put (target ++ item.1) item.2) start).Distinct from
    general _ _ distinct
  intro items
  induction items with
  | nil => exact fun _ kept => kept
  | cons first items ih => exact fun start kept => ih _ (kept.put _ _)

theorem get?_graft_below {tree : Tree} (distinct : tree.Distinct) {source : Place} (inner : source ≠ [])
    (target rest : Place) (proper : target ++ rest ≠ []) :
    (tree.graft source target).get? (target ++ rest) =
      (tree.get? (source ++ rest)).or (tree.get? (target ++ rest)) := by
  rw [get?_graft distinct source target proper, if_pos (by simp), List.drop_left]
  have below : source ++ rest ≠ [] := by simp [inner]
  rw [show tree.entries.get? (source ++ rest) = tree.get? (source ++ rest) by rw [get?, if_neg below]]

theorem get?_graft_apart {tree : Tree} (distinct : tree.Distinct) (source : Place) {target place : Place}
    (apart : ¬target <+: place) : (tree.graft source target).get? place = tree.get? place := by
  by_cases root : place = []
  · rw [root]; rfl
  · rw [get?_graft distinct source target root, if_neg, Option.none_or]
    rwa [List.isPrefixOf_iff_prefix]

theorem Sound.graft {tree : Tree} (sound : tree.Sound) (distinct : tree.Distinct) {source target : Place}
    (inner : source ≠ []) (vacant : ∀ rest ≠ [], tree.get? (target ++ rest) = none)
    (proper : (tree.get? target).isSome = true ∨
      ∃ before name, target = before ++ [name] ∧ Path.Named name ∧ tree.get? before = some .directory) :
    (tree.graft source target).Sound := by
  have outer : ∀ front name, target = front ++ [name] → Path.Named name ∧ tree.get? front = some .directory := by
    intro front name eq
    rcases proper with held | ⟨before, last, same, named, above⟩
    · rw [eq] at held
      exact ⟨sound.named _ _ held, sound.parent _ _ held⟩
    · obtain ⟨rfl, single⟩ := List.append_inj' (eq.symm.trans same) rfl
      obtain rfl := List.singleton_inj.mp single
      exact ⟨named, above⟩
  have both : ∀ front name, ((tree.graft source target).get? (front ++ [name])).isSome = true →
      Path.Named name ∧ (tree.graft source target).get? front = some .directory := by
    intro front name present
    by_cases under : target <+: front
    · obtain ⟨rest, rfl⟩ := under
      rw [List.append_assoc, get?_graft_below distinct inner _ _ (by simp), vacant _ (by simp),
        Option.or_none, ← List.append_assoc] at present
      refine ⟨sound.named _ _ present, ?_⟩
      by_cases root : target ++ rest = []
      · rw [root]; rfl
      · rw [get?_graft_below distinct inner _ _ root, sound.parent _ _ present, Option.some_or]
    · rw [get?_graft_apart distinct source under]
      by_cases here : target = front ++ [name]
      · exact outer front name here
      · have apart : ¬target <+: front ++ [name] := by
          rw [List.prefix_concat_iff]
          exact fun either => either.elim here under
        rw [get?_graft_apart distinct source apart] at present
        exact ⟨sound.named _ _ present, sound.parent _ _ present⟩
  exact ⟨fun front name present => (both front name present).1, fun front name present => (both front name present).2⟩

theorem SameShape.put {tree other : Tree} (same : tree.SameShape other) (place : Place) {entry counterpart : Entry}
    (kind : entry = .directory ↔ counterpart = .directory) :
    (tree.put place entry).SameShape (other.put place counterpart) := by
  constructor
  · intro at_
    by_cases root : at_ = []
    · simp [root]
    · rw [get?_put _ _ _ _ root, get?_put _ _ _ _ root]
      split
      · simpa using kind
      · exact same.directory at_
  · intro at_
    by_cases root : at_ = []
    · simp [root]
    · rw [get?_put _ _ _ _ root, get?_put _ _ _ _ root]
      split
      · rfl
      · exact same.present at_

theorem SameShape.sound {tree other : Tree} (same : tree.SameShape other) (sound : tree.Sound) : other.Sound := by
  constructor
  · intro place name present
    exact sound.named place name ((same.present _).trans present)
  · intro place name present
    exact (same.directory place).mp (sound.parent place name ((same.present _).trans present))

end Tree

namespace Site

theorem mem_listed {site : Site} {tree : Tree} {place : Place} {name : Text} :
    name ∈ site.arrange place (tree.names place) ↔ (tree.get? (place ++ [name])).isSome = true :=
  (site.arrange_perm _ _).mem_iff.trans Tree.mem_names

theorem nodup_listed {site : Site} {tree : Tree} {place : Place} : (site.arrange place (tree.names place)).Nodup :=
  (site.arrange_perm _ _).nodup_iff.mpr (tree.names_nodup place)

end Site

namespace Script

/-- A path can be written if it does not end with a slash and leads to a file or to nothing. -/
theorem writable_eq_ok_iff {path : Text} {site : Site} {tree : Tree} {place : Place} {bytes : Bytes} :
    writable path site tree = .ok (place, bytes) ↔
      (∃ known, Path.accept path = .ok known ∧ known.getLast? ≠ some (.char '/')) ∧
        site.locate tree path = .ok place ∧
          (tree.get? place = some (.file bytes) ∨ tree.get? place = none ∧ bytes = []) := by
  unfold writable
  cases accepted : Path.accept path with
  | error refusal =>
    simp only [bind, Except.bind, reduceCtorEq, false_iff, not_and, forall_exists_index, and_imp]
    intro known eq
    cases eq
  | ok known =>
    -- the path is looked up as it has been read
    have again : site.locate tree known = site.locate tree path := by
      unfold Site.locate
      rw [accepted, Path.accept_accepted accepted]
    simp only [bind, Except.bind, again]
    by_cases slash : known.getLast? = some (.char '/')
    · rw [if_pos slash]
      constructor
      · intro found
        split at found <;> cases found
      · rintro ⟨⟨other, eq, bare⟩, _⟩
        exact absurd slash (Except.ok.inj eq ▸ bare)
    · rw [if_neg slash]
      cases located : site.locate tree path with
      | error refusal => simp
      | ok spot =>
        simp only [Except.ok.injEq]
        constructor
        · intro found
          split at found
          · cases found
          · rename_i held
            cases found
            exact ⟨⟨known, rfl, slash⟩, rfl, .inl held⟩
          · rename_i vacant
            cases found
            exact ⟨⟨known, rfl, slash⟩, rfl, .inr ⟨vacant, rfl⟩⟩
        · rintro ⟨_, rfl, held | ⟨vacant, rfl⟩⟩
          · simp only [held]
          · simp only [vacant]

theorem locate_of_writable {path : Text} {site : Site} {tree : Tree} {place : Place} {bytes : Bytes}
    (found : writable path site tree = .ok (place, bytes)) : site.locate tree path = .ok place :=
  (writable_eq_ok_iff.mp found).2.1

theorem writable_shape {path : Text} {site : Site} {tree other : Tree} (same : tree.SameShape other)
    {place : Place} {bytes : Bytes} (found : writable path site tree = .ok (place, bytes)) :
    ∃ more, writable path site other = .ok (place, more) ∧
      (tree.get? place = some (.file bytes) ∧ other.get? place = some (.file more) ∨
        tree.get? place = none ∧ other.get? place = none ∧ bytes = [] ∧ more = []) := by
  obtain ⟨bare, located, held | ⟨vacant, rfl⟩⟩ := writable_eq_ok_iff.mp found
  · obtain ⟨more, there⟩ := same.file held
    refine ⟨more, writable_eq_ok_iff.mpr ⟨bare, ?_, .inl there⟩, .inl ⟨held, there⟩⟩
    rwa [← site.locate_shape same]
  · have gone := same.absent vacant
    refine ⟨[], writable_eq_ok_iff.mpr ⟨bare, ?_, .inr ⟨gone, rfl⟩⟩, .inr ⟨vacant, gone, rfl, rfl⟩⟩
    rwa [← site.locate_shape same]

theorem writable_put_apart {path : Text} {site : Site} {tree : Tree} {place other : Place} {bytes : Bytes}
    (found : writable path site tree = .ok (place, bytes)) (vacant : tree.get? other ≠ some .directory)
    (apart : other ≠ place) (entry : Entry) : writable path site (tree.put other entry) = .ok (place, bytes) := by
  obtain ⟨bare, located, held⟩ := writable_eq_ok_iff.mp found
  refine writable_eq_ok_iff.mpr ⟨bare, ?_, ?_⟩
  · exact Site.locate_keeps (Tree.keepsDirectories_put entry vacant) located
  · rwa [Tree.get?_put_apart _ _ apart]

theorem not_directory_of_writable {path : Text} {site : Site} {tree : Tree} {place : Place} {bytes : Bytes}
    (found : writable path site tree = .ok (place, bytes)) : tree.get? place ≠ some .directory := by
  rcases writable_spec found with held | ⟨absent, _⟩
  · rw [held]; intro eq; cases eq
  · rw [absent]; intro eq; cases eq

theorem find_put_writable {site : Site} {tree : Tree} {path : Text} {place : Place} {bytes : Bytes}
    (found : writable path site tree = .ok (place, bytes)) (after : Bytes) :
    site.find (tree.put place (.file after)) path = .ok (place, .file after) := by
  obtain ⟨_, located, _⟩ := writable_eq_ok_iff.mp found
  exact Site.find_put located (not_directory_of_writable found) _

end Script

def Place.IsPage (place : Place) : Prop := ∃ before name, place = before ++ [name] ∧ (".rst" : Text) <:+ name

/-- A path with an ending leads to a name with the same ending, or to a directory. -/
theorem Site.ends_of_locate {site : Site} {tree : Tree} {path ending : Text} {place : Place} (plain : ending.Plain)
    (slashless : .char '/' ∉ ending) (long : 2 ≤ ending.length) (ends : .char '.' :: ending <:+ path)
    (located : site.locate tree path = .ok place) :
    place = [] ∨ ∃ before name, place = before ++ [name] ∧ .char '.' :: ending <:+ name := by
  obtain ⟨known, _, _, accepted, _⟩ := locate_eq_ok_iff.mp located
  -- the ending is plain, so reading the path anew leaves it alone
  have kept : .char '.' :: ending <:+ known := by
    obtain ⟨lead, rfl⟩ := ends
    obtain ⟨bytes, spelled, _, _, rfl⟩ := Path.accept_eq_ok_iff.mp accepted
    obtain ⟨front, back, rfl, _, tail⟩ := spelled.split
    have whole : Text.Plain (.char '.' :: ending) := Text.plain_cons.mpr ⟨rfl, plain⟩
    rw [tail.unique (Utf8.spelled_of_plain whole)]
    refine ⟨Utf8.decodeName front, ?_⟩
    exact ((Utf8.decodeName_low (m := 0x2E) (by decide) front (Utf8.bytesOf ending)).trans
      (by rw [Utf8.decodeName_bytesOf plain]; rfl)).symm
  obtain ⟨noSlash, last⟩ := Text.afterLast_spec '/' known
  have free : .char '/' ∉ CodePoint.char '.' :: ending := by
    rw [List.mem_cons]
    exact fun member => member.elim (by decide) slashless
  have short := Text.suffix_afterLast free kept
  have length := short.length_le
  -- neither the start nor the names for it and for the directory above are as long
  have others : ∀ name : Text, name.length < 3 → Text.afterLast '/' known ≠ name := by
    rintro name small rfl
    rw [List.length_cons] at length
    omega
  rcases locate_endsIn (others [] (by decide)) noSlash (others "." (by decide)) (others ".." (by decide))
    accepted last located with ⟨root, _⟩ | ⟨_, before, eq⟩
  · exact .inl root
  · exact .inr ⟨before, _, eq, short⟩

theorem Site.isPage_of_locate {site : Site} {tree : Tree} {path : Text} {place : Place}
    (ends : (".rst" : Text) <:+ path) (located : site.locate tree path = .ok place) :
    place = [] ∨ place.IsPage :=
  ends_of_locate (Text.plain_ofChars _) (by decide) (by decide) (show .char '.' :: ("rst" : Text) <:+ path from ends)
    located

end ApiDocs
