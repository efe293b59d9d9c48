import ApiDocs.Proofs.Text.Search

/-! Edits of a text. Parts of a text that lie apart are replaced one after the other, each at its place in the text as
it stands by then: its place in the text before any edit, moved by what the edits before it have added. Together they
make a patch of the text, with the parts replaced and all else as it was. -/

set_option autoImplicit false

namespace ApiDocs.Text

theorem since_ofNat (text : Text) (place : Nat) : since text place = text.drop place := by
  rw [since, bound_ofNat]
  rcases Nat.le_total place text.length with inside | outside
  · rw [Nat.min_eq_left inside]
  · rw [Nat.min_eq_right outside, List.drop_length, List.drop_eq_nil_of_le outside]

theorem upTo_ofNat (text : Text) (place : Nat) : upTo text place = text.take place := by
  rw [upTo, bound_ofNat, ← List.take_eq_take_min]

theorem slice_ofNat (text : Text) (start stop : Nat) : slice text start stop = (text.take stop).drop start := by
  rw [slice, bound_ofNat, bound_ofNat, ← List.take_eq_take_min]
  rcases Nat.le_total start text.length with inside | outside
  · rw [Nat.min_eq_left inside]
  · rw [Nat.min_eq_right outside, List.drop_eq_nil_of_le (List.length_take_le' _ _),
      List.drop_eq_nil_of_le (Nat.le_trans (List.length_take_le' _ _) outside)]

structure Edit where
  start : Nat
  stop : Nat
  new : Text
  deriving DecidableEq, Repr

def Edit.growth (edit : Edit) : Int := edit.new.length - (edit.stop - edit.start : Int)

/-- Edits in the order of their places, from a place of the text on, that do not overlap. -/
def Apart (text : Text) (place : Nat) : List Edit → Prop
  | [] => place ≤ text.length
  | edit :: edits => place ≤ edit.start ∧ edit.start ≤ edit.stop ∧ Apart text edit.stop edits

def patchFrom (text : Text) (place : Nat) : List Edit → Text
  | [] => text.drop place
  | edit :: edits => (text.take edit.start).drop place ++ edit.new ++ patchFrom text edit.stop edits

def patch (text : Text) (edits : List Edit) : Text := patchFrom text 0 edits

instance (text : Text) : (place : Nat) → (edits : List Edit) → Decidable (Apart text place edits)
  | place, [] => inferInstanceAs (Decidable (place ≤ text.length))
  | place, edit :: edits =>
    have := instDecidableApart text edit.stop edits
    inferInstanceAs (Decidable (place ≤ edit.start ∧ edit.start ≤ edit.stop ∧ Apart text edit.stop edits))

/-- A place of a text up to which all edits are made has moved by a shift: the text as it stands begins with `front` and
goes on as the text did from that place. -/
structure Reached (text front : Text) (place : Nat) (shift : Int) : Prop where
  inside : place ≤ text.length
  moved : (front.length : Int) = place + shift

theorem reached_start (text : Text) : Reached text [] 0 0 := ⟨Nat.zero_le _, rfl⟩

namespace Reached

variable {text front : Text} {place later : Nat} {shift : Int} (reached : Reached text front place shift)
  (after : place ≤ later)
include reached after

theorem later_place : (later : Int) + shift = ((front.length + (later - place) : Nat) : Int) := by
  have moved := reached.moved
  omega

theorem since_later : since (front ++ text.drop place) (later + shift) = text.drop later := by
  rw [reached.later_place after, since_ofNat, List.drop_length_add_append, List.drop_drop, Nat.add_sub_cancel' after]

theorem upTo_later : upTo (front ++ text.drop place) (later + shift) = front ++ (text.take later).drop place := by
  rw [reached.later_place after, upTo_ofNat, List.take_length_add_append, List.drop_take]

theorem slice_later {stop : Nat} (ordered : later ≤ stop) :
    slice (front ++ text.drop place) (later + shift) (stop + shift) = (text.take stop).drop later := by
  rw [reached.later_place after, reached.later_place (Nat.le_trans after ordered), slice_ofNat,
    List.take_length_add_append, List.drop_length_add_append, ← List.drop_take, List.drop_drop,
      Nat.add_sub_cancel' after]

end Reached

/-- One edit after others, at its place in the text as it stands. -/
theorem Reached.edit {text front : Text} {place : Nat} {shift : Int} (reached : Reached text front place shift)
    {edit : Edit} (after : place ≤ edit.start) (ordered : edit.start ≤ edit.stop) (inside : edit.stop ≤ text.length) :
    upTo (front ++ text.drop place) (edit.start + shift) ++ edit.new ++
          since (front ++ text.drop place) (edit.stop + shift) =
        (front ++ ((text.take edit.start).drop place ++ edit.new)) ++ text.drop edit.stop ∧
      Reached text (front ++ ((text.take edit.start).drop place ++ edit.new)) edit.stop (shift + edit.growth) := by
  refine ⟨?_, inside, ?_⟩
  · rw [reached.upTo_later after, reached.since_later (Nat.le_trans after ordered), List.append_assoc front]
  · have moved := reached.moved
    simp only [List.length_append, List.length_drop, List.length_take, Edit.growth]
    omega

section Series
variable {α : Type} {text : Text} {step : Text × Int → α → Text × Int} {edit : α → Edit} {base : α → Nat}

/-- A step makes an edit at its place in the text as it stands, whenever the edits so far end before a certain place. -/
def Makes (text : Text) (step : Text × Int → α → Text × Int) (edit : α → Edit) (base : α → Nat) (item : α) : Prop :=
  base item ≤ (edit item).start ∧ (edit item).start ≤ (edit item).stop ∧ (edit item).stop ≤ text.length ∧
    ∀ {front : Text} {place : Nat} {shift : Int}, Reached text front place shift → place ≤ base item →
      step (front ++ text.drop place, shift) item =
        (upTo (front ++ text.drop place) ((edit item).start + shift) ++ (edit item).new ++
          since (front ++ text.drop place) ((edit item).stop + shift), shift + (edit item).growth)

theorem apart_map {items : List α} (makes : ∀ item ∈ items, Makes text step edit base item)
    (ordered : items.Pairwise fun item next => (edit item).stop ≤ base next) {place : Nat}
    (inside : place ≤ text.length) (before : ∀ item ∈ items, place ≤ base item) :
    Apart text place (items.map edit) := by
  induction items generalizing place with
  | nil => exact inside
  | cons item items ih =>
    obtain ⟨first, later⟩ := List.pairwise_cons.mp ordered
    obtain ⟨start, stop, within, _⟩ := makes item List.mem_cons_self
    refine ⟨Nat.le_trans (before item List.mem_cons_self) start, stop, ?_⟩
    exact ih (fun other member => makes other (List.mem_cons_of_mem _ member)) later within first

/-- A series of steps with a running shift, from a place up to which all edits are made. -/
theorem foldl_patchFrom {items : List α} (makes : ∀ item ∈ items, Makes text step edit base item)
    (ordered : items.Pairwise fun item next => (edit item).stop ≤ base next) {front : Text} {place : Nat} {shift : Int}
    (reached : Reached text front place shift) (before : ∀ item ∈ items, place ≤ base item) :
    (items.foldl step (front ++ text.drop place, shift)).1 = front ++ patchFrom text place (items.map edit) := by
  induction items generalizing front place shift with
  | nil => rfl
  | cons item items ih =>
    obtain ⟨first, later⟩ := List.pairwise_cons.mp ordered
    obtain ⟨start, stop, within, made⟩ := makes item List.mem_cons_self
    have after := before item List.mem_cons_self
    obtain ⟨edited, next⟩ := reached.edit (Nat.le_trans after start) stop within
    rw [List.foldl_cons, made reached after, edited,
      ih (fun other member => makes other (List.mem_cons_of_mem _ member)) later next first]
    simp only [List.map_cons, patchFrom, List.append_assoc]

theorem foldl_patch {items : List α} (makes : ∀ item ∈ items, Makes text step edit base item)
    (ordered : items.Pairwise fun item next => (edit item).stop ≤ base next) :
    (items.foldl step (text, 0)).1 = patch text (items.map edit) :=
  foldl_patchFrom makes ordered (reached_start text) fun _ _ => Nat.zero_le _

end Series

theorem Apart.le_length {text : Text} {place : Nat} {edits : List Edit} (apart : Apart text place edits) :
    place ≤ text.length := by
  induction edits generalizing place with
  | nil => exact apart
  | cons edit edits ih =>
    obtain ⟨after, ordered, later⟩ := apart
    exact Nat.le_trans after (Nat.le_trans ordered (ih later))

theorem Apart.earlier {text : Text} {start place : Nat} {edits : List Edit} (apart : Apart text place edits)
    (after : start ≤ place) : Apart text start edits := by
  cases edits with
  | nil => exact Nat.le_trans after apart
  | cons edit edits => exact ⟨Nat.le_trans after apart.1, apart.2⟩

theorem patchFrom_earlier {text : Text} {start place : Nat} {edits : List Edit} (apart : Apart text place edits)
    (after : start ≤ place) : patchFrom text start edits = (text.take place).drop start ++
      patchFrom text place edits := by
  have cut : ∀ {part : Text}, place ≤ part.length →
      part.drop start = (part.take place).drop start ++ part.drop place := by
    intro part inside
    have long : start ≤ (part.take place).length := by
      rw [List.length_take]
      omega
    rw [← List.drop_append_of_le_length long, List.take_append_drop]
  have inside := apart.le_length
  cases edits with
  | nil => exact cut inside
  | cons edit edits =>
    obtain ⟨first, ordered, later⟩ := apart
    have within := later.le_length
    have long : place ≤ (text.take edit.start).length := by
      rw [List.length_take]
      omega
    rw [patchFrom, patchFrom, cut long, List.take_take, Nat.min_eq_left first]
    simp only [List.append_assoc]

def growth : List Edit → Int
  | [] => 0
  | edit :: edits => edit.growth + growth edits

theorem growth_append (first second : List Edit) : growth (first ++ second) = growth first + growth second := by
  induction first with
  | nil => exact (Int.zero_add _).symm
  | cons edit first ih => rw [List.cons_append, growth, ih, growth, Int.add_assoc]

theorem patchFrom_drop {text : Text} {start place : Nat} {edits : List Edit} (after : start ≤ place)
    (inside : place ≤ text.length) (before : ∀ edit ∈ edits, place ≤ edit.start) :
    (patchFrom text start edits).drop (place - start) = patchFrom text place edits := by
  cases edits with
  | nil => rw [patchFrom, patchFrom, List.drop_drop, Nat.add_sub_cancel' after]
  | cons edit edits =>
    have early := before edit List.mem_cons_self
    have size : place - start ≤ ((text.take edit.start).drop start).length := by
      rw [List.length_drop, List.length_take]
      omega
    rw [patchFrom, patchFrom, List.append_assoc, List.drop_append_of_le_length size, List.drop_drop,
      Nat.add_sub_cancel' after, List.append_assoc]

/-- Between edits a patch goes on as the text does, moved by what the edits before have added. -/
theorem drop_patchFrom {text : Text} {start place : Nat} {edits later : List Edit}
    (apart : Apart text start (edits ++ later)) (after : ∀ edit ∈ edits, edit.stop ≤ place) (first : start ≤ place)
    (inside : place ≤ text.length) (before : ∀ edit ∈ later, place ≤ edit.start) :
    ∃ moved : Nat, (moved : Int) = place - start + growth edits ∧
      (patchFrom text start (edits ++ later)).drop moved = patchFrom text place later := by
  induction edits generalizing start with
  | nil =>
    refine ⟨place - start, ?_, patchFrom_drop first inside before⟩
    rw [growth]
    omega
  | cons edit edits ih =>
    obtain ⟨_, ordered, rest⟩ := apart
    have passed := after edit List.mem_cons_self
    obtain ⟨moved, shifted, goes⟩ := ih rest (fun other member => after other (List.mem_cons_of_mem _ member)) passed
    refine ⟨((text.take edit.start).drop start ++ edit.new).length + moved, ?_, ?_⟩
    · rw [growth, Edit.growth, Int.natCast_add, shifted, List.length_append, List.length_drop, List.length_take]
      omega
    · rw [List.cons_append, patchFrom, List.drop_length_add_append, goes]

end ApiDocs.Text
