import ApiDocs.Proofs.File.Maintained

/-! What every file is like. A kind of files for each place is kept by making directories, by removing entries, and by
writing a file of the kind of its place. -/

set_option autoImplicit false

namespace ApiDocs

namespace Tree

/-- Every file is of the kind of its place. -/
def Every (fits : Place → Bytes → Prop) (tree : Tree) : Prop :=
  ∀ place bytes, tree.get? place = some (.file bytes) → fits place bytes

variable {fits more : Place → Bytes → Prop} {tree after : Tree}

theorem Every.mono (every : tree.Every fits) (wider : ∀ place bytes, fits place bytes → more place bytes) :
    tree.Every more :=
  fun place bytes held => wider place bytes (every place bytes held)

theorem Every.of_held (every : tree.Every fits)
    (held : ∀ place bytes, after.get? place = some (.file bytes) → tree.get? place = some (.file bytes)) :
    after.Every fits :=
  fun place bytes there => every place bytes (held place bytes there)

theorem Every.widened (every : tree.Every fits) (widened : Widened tree after) : after.Every fits := by
  refine every.of_held fun place bytes there => ?_
  cases before : tree.get? place with
  | some entry => rw [← widened.kept place entry before, there]
  | none =>
    rcases widened.new place before with none | directory
    · rw [none] at there
      cases there
    · rw [directory] at there
      cases there

theorem Every.erase (every : tree.Every fits) (place : Place) : (tree.erase place).Every fits := by
  refine every.of_held fun other bytes there => ?_
  have proper : other ≠ [] := by
    rintro rfl
    cases there
  rw [get?_erase _ _ _ proper] at there
  split at there
  · cases there
  · exact there

theorem Every.written (every : tree.Every fits) {place : Place} {bytes : Bytes}
    (written : Written place bytes tree after) (kind : fits place bytes) : after.Every fits := by
  intro other content there
  by_cases same : other = place
  · subst same
    rw [written.here] at there
    cases there
    exact kind
  · rw [written.others other same] at there
    exact every other content there

theorem Every.changed {touched made : Place → Prop} (every : tree.Every fits)
    (changed : Changed touched made tree after) (free : ∀ place bytes, touched place → fits place bytes) :
    after.Every fits := by
  intro place bytes there
  rcases changed.each place with same | ⟨here, _⟩ | ⟨_, directory, _⟩
  · rw [same] at there
    exact every place bytes there
  · exact free place bytes here
  · rw [directory] at there
    cases there

/-- A sound tree in which every file is of the kind of its place. -/
structure Holds (fits : Place → Bytes → Prop) (tree : Tree) : Prop where
  sound : tree.Sound
  every : tree.Every fits

theorem Holds.written (holds : tree.Holds fits) {place : Place} {bytes : Bytes}
    (written : Written place bytes tree after) (kind : fits place bytes) : after.Holds fits :=
  ⟨written.sound holds.sound, holds.every.written written kind⟩

theorem Holds.widened (holds : tree.Holds fits) (widened : Widened tree after) : after.Holds fits :=
  ⟨widened.sound holds.sound, holds.every.widened widened⟩

theorem Holds.erase (holds : tree.Holds fits) (place : Place) : (tree.erase place).Holds fits :=
  ⟨holds.sound.erase place, holds.every.erase place⟩

end Tree

namespace Script
variable {site : Site} {fits : Place → Bytes → Prop} {path : Text}

theorem preserves_writeText_holds {text : Text} (fit : ∀ tree place bytes, tree.Holds fits →
      writable path site tree = .ok (place, bytes) → fits place [] ∧ (text.Plain → fits place (Utf8.bytesOf text))) :
    Preserves site (Tree.Holds fits) (writeText path text) :=
  .writeText fun tree place bytes holds found =>
    have ⟨empty, whole⟩ := fit tree place bytes holds found
    ⟨holds.written (written_put found _) empty, fun plain => holds.written (written_put found _) (whole plain)⟩

theorem preserves_appendText_holds {text : Text} (empty : ∀ place, fits place [])
    (fit : ∀ tree place bytes, writable path site tree = .ok (place, bytes) → text.Plain → fits place bytes →
      fits place (bytes ++ Utf8.bytesOf text)) : Preserves site (Tree.Holds fits) (appendText path text) := by
  refine .appendText fun tree place bytes holds found => ?_
  have kind : fits place bytes := by
    rcases writable_spec found with held | ⟨_, none⟩
    · exact holds.every place bytes held
    · rw [none]
      exact empty place
  exact ⟨holds.written (written_put found _) kind,
    fun plain => holds.written (written_put found _) (fit tree place bytes found plain kind)⟩

theorem preserves_erase (look : Site → Tree → Except Refusal Place) :
    Preserves site (Tree.Holds fits) (inspect path look >>= fun place => modify (·.erase place)) :=
  Preserves.then (.look fun tree => runOn_inspect site tree) fun place _ holds =>
    ⟨holds.erase place, fun _ _ => trivial⟩

end Script
end ApiDocs
