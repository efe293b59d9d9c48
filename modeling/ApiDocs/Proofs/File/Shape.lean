import ApiDocs.Proofs.File.Resolution
import ApiDocs.Proofs.Text.Order

/-! What does not depend on the bytes in files. Two trees of the same shape have the same directories and
the same files: paths lead to the same places in them, and directories list the same names. -/

set_option autoImplicit false

namespace ApiDocs

theorem Table.isSome_get? {κ α : Type} [DecidableEq κ] {key : κ} {table : Table κ α} :
    (table.get? key).isSome = true ↔ key ∈ table.map Prod.fst := by
  induction table with
  | nil => simp [Table.get?]
  | cons entry entries ih =>
    by_cases same : entry.1 = key
    · simp [Table.get?, same]
    · have apart : key ≠ entry.1 := fun eq => same eq.symm
      rw [Table.get?, if_neg same, ih, List.map_cons, List.mem_cons]
      simp [apart]

theorem Table.mem_of_get? {κ α : Type} [DecidableEq κ] {key : κ} {value : α} {table : Table κ α}
    (held : table.get? key = some value) : (key, value) ∈ table := by
  induction table with
  | nil => cases held
  | cons entry entries ih =>
    rw [Table.get?] at held
    split at held
    · rename_i same
      cases held
      rw [← same]
      exact List.mem_cons_self
    · exact List.mem_cons_of_mem _ (ih held)

namespace Tree

theorem get?_below (tree : Tree) (place : Place) (name : Text) :
    tree.get? (place ++ [name]) = tree.entries.get? (place ++ [name]) := by
  simp [get?]

theorem mem_names {tree : Tree} {place : Place} {name : Text} :
    name ∈ tree.names place ↔ (tree.get? (place ++ [name])).isSome = true := by
  rw [get?_below, Table.isSome_get?, names, Text.mem_sortDistinct]
  simp only [below, List.mem_filterMap, List.mem_map, Prod.exists]
  constructor
  · rintro ⟨names, entry, ⟨other, held, mem, cut⟩, single⟩
    split at cut
    · rename_i under
      obtain ⟨rest, rfl⟩ := List.isPrefixOf_iff_prefix.mp under
      cases cut
      rw [List.drop_left] at single
      split at single
      · cases single
        exact ⟨_, _, mem, rfl⟩
      · cases single
    · cases cut
  · rintro ⟨other, held, mem, rfl⟩
    refine ⟨[name], held, ⟨_, held, mem, ?_⟩, rfl⟩
    simp

theorem names_congr {tree other : Tree} {place : Place}
    (same : ∀ name, (tree.get? (place ++ [name])).isSome = (other.get? (place ++ [name])).isSome) :
    tree.names place = other.names place := by
  refine Text.sortDistinct_congr fun name => ?_
  have listed : name ∈ tree.names place ↔ name ∈ other.names place := by
    rw [mem_names, mem_names, same]
  rwa [Tree.names, Tree.names, Text.mem_sortDistinct, Text.mem_sortDistinct] at listed

theorem names_nodup (tree : Tree) (place : Place) : (tree.names place).Nodup := Text.nodup_sortDistinct _

theorem length_le_height {tree : Tree} {place : Place} (present : (tree.get? place).isSome = true) :
    place.length ≤ tree.height := by
  have most : ∀ (entries : List (Place × Entry)) (start : Nat),
      start ≤ entries.foldl (fun height entry => max height entry.1.length) start ∧
        ∀ entry ∈ entries, entry.1.length ≤ entries.foldl (fun height entry => max height entry.1.length) start := by
    intro entries
    induction entries with
    | nil => simp
    | cons entry entries ih =>
      intro start
      obtain ⟨above, rest⟩ := ih (max start entry.1.length)
      rw [List.foldl_cons]
      refine ⟨Nat.le_trans (Nat.le_max_left _ _) above, fun other member => ?_⟩
      rcases List.mem_cons.mp member with rfl | member
      · exact Nat.le_trans (Nat.le_max_right _ _) above
      · exact rest other member
  by_cases root : place = []
  · simp [root]
  · rw [get?, if_neg root, Table.isSome_get?] at present
    obtain ⟨entry, member, rfl⟩ := List.mem_map.mp present
    exact (most tree.entries 0).2 entry member

theorem height_le {tree : Tree} {limit : Nat}
    (below : ∀ place, (tree.get? place).isSome = true → place.length ≤ limit) : tree.height ≤ limit := by
  have most : ∀ (entries : List (Place × Entry)) (start : Nat), start ≤ limit →
      (∀ entry ∈ entries, entry.1.length ≤ limit) →
        entries.foldl (fun height entry => max height entry.1.length) start ≤ limit := by
    intro entries
    induction entries with
    | nil => exact fun _ small _ => small
    | cons entry entries ih =>
      intro start small all
      have here := all entry List.mem_cons_self
      exact ih _ (Nat.max_le.mpr ⟨small, here⟩) fun other member => all other (List.mem_cons_of_mem _ member)
  refine most tree.entries 0 (Nat.zero_le _) fun entry member => ?_
  by_cases root : entry.1 = []
  · simp [root]
  · apply below
    rw [get?, if_neg root, Table.isSome_get?]
    exact List.mem_map.mpr ⟨entry, member, rfl⟩

structure SameShape (tree other : Tree) : Prop where
  directory : ∀ place, tree.get? place = some .directory ↔ other.get? place = some .directory
  present : ∀ place, (tree.get? place).isSome = (other.get? place).isSome

namespace SameShape

theorem refl (tree : Tree) : tree.SameShape tree := ⟨fun _ => .rfl, fun _ => rfl⟩

theorem symm {tree other : Tree} (same : tree.SameShape other) : other.SameShape tree :=
  ⟨fun place => (same.directory place).symm, fun place => (same.present place).symm⟩

theorem trans {tree other third : Tree} (first : tree.SameShape other) (second : other.SameShape third) :
    tree.SameShape third :=
  ⟨fun place => (first.directory place).trans (second.directory place),
    fun place => (first.present place).trans (second.present place)⟩

theorem file {tree other : Tree} (same : tree.SameShape other) {place : Place} {bytes : Bytes}
    (held : tree.get? place = some (.file bytes)) : ∃ more, other.get? place = some (.file more) := by
  have present := same.present place
  have directory := same.directory place
  rw [held] at present directory
  cases found : other.get? place with
  | none => rw [found] at present; cases present
  | some entry =>
    cases entry with
    | file more => exact ⟨more, rfl⟩
    | directory => rw [found] at directory; cases directory.mpr rfl

theorem absent {tree other : Tree} (same : tree.SameShape other) {place : Place}
    (vacant : tree.get? place = none) : other.get? place = none := by
  have present := same.present place
  rw [vacant] at present
  exact Option.isNone_iff_eq_none.mp (by simpa using present.symm)

theorem names {tree other : Tree} (same : tree.SameShape other) (place : Place) :
    tree.names place = other.names place :=
  names_congr fun name => same.present (place ++ [name])

theorem height {tree other : Tree} (same : tree.SameShape other) : tree.height = other.height := by
  apply Nat.le_antisymm
  · exact height_le fun place present => length_le_height (same.present place ▸ present)
  · exact height_le fun place present => length_le_height ((same.present place).symm ▸ present)

end SameShape

theorem sameShape_put {tree : Tree} {place : Place} {bytes : Bytes} (held : tree.get? place = some (.file bytes))
    (after : Bytes) : tree.SameShape (tree.put place (.file after)) := by
  have proper : place ≠ [] := by rintro rfl; cases held
  constructor
  · intro other
    by_cases root : other = []
    · simp [root]
    rw [get?_put _ _ _ _ root]
    split
    · rename_i eq
      rw [← eq, held]
      simp
    · rfl
  · intro other
    by_cases root : other = []
    · simp [root]
    rw [get?_put _ _ _ _ root]
    split
    · rename_i eq
      rw [← eq, held]
      rfl
    · rfl

end Tree

namespace Site

theorem walk_shape {tree other : Tree} (same : tree.SameShape other) (start : Place) (names : List Text) :
    walk tree start names = walk other start names := by
  induction names generalizing start with
  | nil => rfl
  | cons name names ih =>
    simp only [walk]
    cases held : tree.get? start with
    | none => rw [same.absent held]
    | some entry =>
      cases entry with
      | directory =>
        rw [(same.directory start).mp held]
        exact bind_congr fun next => ih next
      | file bytes =>
        obtain ⟨more, there⟩ := same.file held
        rw [there]

theorem locate_shape (site : Site) {tree other : Tree} (same : tree.SameShape other) (path : Text) :
    site.locate tree path = site.locate other path := by
  unfold locate
  exact bind_congr fun known => bind_congr fun pair => walk_shape same pair.1 (Path.names pair.2)

end Site

namespace Script

theorem directoryPlace_shape (site : Site) {tree other : Tree} (same : tree.SameShape other) (path : Text) :
    directoryPlace path site tree = directoryPlace path site other := by
  unfold directoryPlace Site.find
  rw [site.locate_shape same]
  cases site.locate other path with
  | error refusal => rfl
  | ok place =>
    simp only [bind, Except.bind]
    cases held : tree.get? place with
    | none => rw [same.absent held]
    | some entry =>
      cases entry with
      | directory => rw [(same.directory place).mp held]
      | file bytes =>
        obtain ⟨more, there⟩ := same.file held
        rw [there]

theorem bytesAt_congr {site : Site} {tree other : Tree} {path : Text} (same : tree.SameShape other)
    (agree : ∀ place, site.locate tree path = .ok place → tree.get? place = other.get? place) :
    bytesAt site tree path = bytesAt site other path := by
  unfold bytesAt Site.find
  rw [← site.locate_shape same]
  cases located : site.locate tree path with
  | error refusal => rfl
  | ok place => simp only [bind, Except.bind, agree place located]

end Script
end ApiDocs
