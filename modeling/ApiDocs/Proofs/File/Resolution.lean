import ApiDocs.Proofs.File.Run

/-! What a written name stands for. A walk meets directories only, so it leads to the same place in every
tree that has these directories. -/

set_option autoImplicit false

namespace ApiDocs

namespace Tree

def KeepsDirectories (tree after : Tree) : Prop :=
  ∀ place, tree.get? place = some .directory → after.get? place = some .directory

theorem KeepsDirectories.trans {tree between after : Tree} (first : tree.KeepsDirectories between)
    (second : between.KeepsDirectories after) : tree.KeepsDirectories after :=
  fun place held => second place (first place held)

theorem keepsDirectories_put {tree : Tree} {place : Place} (entry : Entry)
    (vacant : tree.get? place ≠ some .directory) : tree.KeepsDirectories (tree.put place entry) := by
  intro other directory
  by_cases root : other = []
  · rw [root]; rfl
  · rw [get?_put _ _ _ _ root, if_neg, directory]
    rintro rfl
    exact vacant directory

theorem get?_put_self {tree : Tree} {place : Place} (entry : Entry)
    (vacant : tree.get? place ≠ some .directory) : (tree.put place entry).get? place = some entry := by
  rw [get?_put _ _ _ _ (by rintro rfl; exact vacant rfl), if_pos rfl]

theorem get?_put_file {tree : Tree} {place : Place} {bytes : Bytes} (entry : Entry)
    (held : tree.get? place = some (.file bytes)) : (tree.put place entry).get? place = some entry :=
  get?_put_self entry (by rw [held]; intro same; cases same)

theorem get?_put_apart (tree : Tree) (entry : Entry) {place other : Place} (apart : place ≠ other) :
    (tree.put place entry).get? other = tree.get? other := by
  by_cases root : other = []
  · rw [root]; rfl
  · rw [get?_put _ _ _ _ root, if_neg apart]

end Tree

namespace Site

theorem walk_keeps {tree after : Tree} (keeps : tree.KeepsDirectories after) {names : List Text}
    {start place : Place} (walked : walk tree start names = .ok place) : walk after start names = .ok place := by
  induction names generalizing start with
  | nil => exact walked
  | cons name names ih =>
    simp only [walk] at walked ⊢
    split at walked
    · rename_i directory
      rw [keeps start directory]
      cases stepped : step start name with
      | error refusal => rw [stepped] at walked; cases walked
      | ok next => rw [stepped] at walked; exact ih walked
    · cases walked
    · cases walked

theorem locate_keeps {site : Site} {tree after : Tree} (keeps : tree.KeepsDirectories after) {path : Text}
    {place : Place} (located : site.locate tree path = .ok place) : site.locate after path = .ok place := by
  unfold locate at located ⊢
  cases accepted : Path.accept path with
  | error refusal => rw [accepted] at located; cases located
  | ok known =>
    rw [accepted] at located
    simp only [bind, Except.bind] at located ⊢
    cases start : site.origin known with
    | error refusal => rw [start] at located; cases located
    | ok origin =>
      rw [start] at located
      exact walk_keeps keeps located

end Site

namespace Script

theorem writable_spec {path : Text} {site : Site} {tree : Tree} {place : Place} {bytes : Bytes}
    (found : writable path site tree = .ok (place, bytes)) :
    tree.get? place = some (.file bytes) ∨ tree.get? place = none ∧ bytes = [] := by
  unfold writable at found
  cases accepted : Path.accept path with
  | error refusal => rw [accepted] at found; cases found
  | ok known =>
    rw [accepted] at found
    simp only [bind, Except.bind] at found
    split at found
    · split at found <;> cases found
    · split at found
      · cases found
      · split at found
        · cases found
        · rename_i held
          cases found
          exact .inl held
        · rename_i vacant
          cases found
          exact .inr ⟨vacant, rfl⟩

/-- After something has been written to a path, the path stands for the same place. -/
theorem writable_put {path : Text} {site : Site} {tree : Tree} {place : Place} {bytes : Bytes}
    (found : writable path site tree = .ok (place, bytes)) (after : Bytes) :
    writable path site (tree.put place (.file after)) = .ok (place, after) := by
  have vacant : tree.get? place ≠ some .directory := by
    rcases writable_spec found with held | ⟨none, _⟩
    · rw [held]; intro same; cases same
    · rw [none]; intro same; cases same
  have keeps := Tree.keepsDirectories_put (.file after) vacant
  unfold writable at found ⊢
  cases accepted : Path.accept path with
  | error refusal => rw [accepted] at found; cases found
  | ok known =>
    rw [accepted] at found
    simp only [bind, Except.bind] at found ⊢
    split at found
    · split at found <;> cases found
    · rename_i last
      rw [if_neg last]
      cases located : site.locate tree known with
      | error refusal => rw [located] at found; cases found
      | ok other =>
        rw [located] at found
        have same : other = place := by
          simp only at found
          split at found <;> cases found <;> rfl
        subst same
        simp [Site.locate_keeps keeps located, Tree.get?_put_self _ vacant]

end Script
end ApiDocs
