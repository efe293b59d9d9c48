import ApiDocs.Proofs.Text.Patch
import ApiDocs.Proofs.Text.Substitute

/-! Rules that have nothing to do with each other. If nothing that a rule looks for overlaps what another looks for or
puts in, the rules can be applied one after the other in any order: all their occurrences in the text are replaced, and
no others. -/

set_option autoImplicit false

namespace ApiDocs.Text

namespace Avoids

variable {part text : Text}

theorem longer (avoids : Avoids part text) (rest : Text) : Avoids part (text ++ rest) := by
  intro tail member proper
  obtain ⟨inner, outer⟩ := avoids tail member proper
  have apart : ¬(tail <+: text ∨ text <+: tail) := fun either => either.elim inner outer
  refine ⟨fun starts => apart ?_, fun starts => outer ((List.prefix_append text rest).trans starts)⟩
  exact List.prefix_or_prefix_of_prefix starts (List.prefix_append text rest)

theorem append {first second : Text} (left : Avoids first text) (right : Avoids second text) :
    Avoids (first ++ second) text := by
  induction first with
  | nil => exact right
  | cons c first ih =>
    intro tail member proper
    rcases List.suffix_cons_iff.mp ((List.mem_tails _ _).mp member) with rfl | later
    · have whole := left.not_starting (List.cons_ne_nil c first) second
      have front := (left (c :: first) ((List.mem_tails _ _).mpr List.suffix_rfl) (List.cons_ne_nil c first)).1
      exact ⟨fun starts => front ((List.prefix_append (c :: first) second).trans starts), whole⟩
    · exact ih left.tail tail ((List.mem_tails _ _).mpr later) proper

theorem of_not_mem {c : CodePoint} (free : c ∉ part) (rest : Text) : Avoids part (c :: rest) := by
  intro tail member proper
  obtain ⟨d, tail, rfl⟩ := List.exists_cons_of_ne_nil proper
  have inside : d ∈ part := ((List.mem_tails _ _).mp member).subset List.mem_cons_self
  have differs : d ≠ c := fun same => free (same ▸ inside)
  exact ⟨fun starts => differs (List.cons_prefix_cons.mp starts).1,
    fun starts => differs (List.cons_prefix_cons.mp starts).1.symm⟩

theorem of_ending {c : CodePoint} (mark : CodePoint) (inside : mark ∈ text) (free : mark ∉ part ++ [c])
    (ends : c ∉ text) :
    Avoids (part ++ [c]) text := by
  intro tail member proper
  have suffix := (List.mem_tails _ _).mp member
  refine ⟨fun starts => ends (starts.subset ?_), fun starts => free (suffix.subset (starts.subset inside))⟩
  obtain ⟨lead, whole⟩ := suffix
  obtain ⟨front, d, rfl⟩ : ∃ front d, tail = front ++ [d] := ⟨_, _, (List.dropLast_append_getLast proper).symm⟩
  rw [← List.append_assoc] at whole
  rw [List.singleton_inj.mp (List.append_inj_right' whole rfl)]
  exact List.mem_append_right front List.mem_cons_self

end Avoids

/-- Rules that do not get in each other's way. -/
structure Independent (rules : List Rule) : Prop where
  /-- Different rules do not fit at one place. -/
  single : ∀ rule ∈ rules, ∀ other ∈ rules, rule.old <+: other.old → rule = other
  /-- No occurrence begins within another. -/
  apart : ∀ rule ∈ rules, ∀ other ∈ rules, Avoids rule.old.tail other.old
  /-- No occurrence begins in what is put in. -/
  passed : ∀ rule ∈ rules, ∀ other ∈ rules, Avoids rule.new other.old
  /-- Nothing that is put in makes up the end of an occurrence. -/
  fresh : ∀ rule ∈ rules, ∀ other ∈ rules, Avoids rule.old.tail other.new

/-- What is replaced where rules fit, overlapping occurrences too; `start` is the place of the text's head. -/
def occurrencesFrom (rules : List Rule) (start : Nat) : Text → List Edit
  | [] => []
  | c :: rest =>
    match fitting rules (c :: rest) with
    | some rule => ⟨start, start + rule.old.length, rule.new⟩ :: occurrencesFrom rules (start + 1) rest
    | none => occurrencesFrom rules (start + 1) rest

def occurrences (rules : List Rule) (text : Text) : List Edit := occurrencesFrom rules 0 text

theorem substitute_congr {rules others : List Rule} (same : ∀ text, fitting others text = fitting rules text)
    (text : Text) :
    substitute others text = substitute rules text := by
  induction text using substituted_induction rules with
  | nil => rfl
  | rule rule rest fits ih =>
    rw [substitute_rule fits, substitute_rule ((same _).trans fits), ih rest List.suffix_rfl]
  | cons c rest unfit ih => rw [substitute_cons unfit, substitute_cons ((same _).trans unfit), ih]

theorem occurrencesFrom_lead {rules : List Rule} {lead : Text} (avoids : ∀ rule ∈ rules, Avoids lead rule.old)
    (rest : Text) (start : Nat) : occurrencesFrom rules start (lead ++ rest) =
      occurrencesFrom rules (start + lead.length) rest := by
  induction lead generalizing start with
  | nil => rfl
  | cons c lead ih =>
    have unfit : fitting rules (c :: (lead ++ rest)) = none :=
      fitting_eq_none_iff.mpr fun rule member => (avoids rule member).not_starting (List.cons_ne_nil c lead) rest
    rw [List.cons_append, occurrencesFrom, unfit]
    dsimp only
    rw [ih fun rule member => (avoids rule member).tail, List.length_cons, Nat.add_assoc, Nat.add_comm 1]

theorem mem_occurrencesFrom {rules : List Rule} {start : Nat} {text : Text} {edit : Edit} :
    edit ∈ occurrencesFrom rules start text ↔ ∃ offset rule, fitting rules (text.drop offset) = some rule ∧
      edit = ⟨start + offset, start + offset + rule.old.length, rule.new⟩ := by
  induction text generalizing start with
  | nil =>
    refine ⟨fun member => absurd member List.not_mem_nil, ?_⟩
    rintro ⟨offset, rule, fits, _⟩
    rw [List.drop_nil] at fits
    exact absurd (List.prefix_nil.mp (fitting_eq_some fits).2) rule.proper
  | cons c rest ih =>
    have later : edit ∈ occurrencesFrom rules (start + 1) rest ↔
        ∃ offset rule, fitting rules ((c :: rest).drop (offset + 1)) = some rule ∧
          edit = ⟨start + (offset + 1), start + (offset + 1) + rule.old.length, rule.new⟩ := by
      simp only [ih, List.drop_succ_cons, Nat.add_assoc, Nat.add_comm 1]
    rw [occurrencesFrom]
    cases fits : fitting rules (c :: rest) with
    | none =>
      dsimp only
      rw [later]
      constructor
      · rintro ⟨offset, rule, found⟩
        exact ⟨offset + 1, rule, found⟩
      · rintro ⟨offset, rule, found, eq⟩
        cases offset with
        | zero => rw [List.drop_zero, fits] at found; cases found
        | succ offset => exact ⟨offset, rule, found, eq⟩
    | some first =>
      dsimp only
      rw [List.mem_cons, later]
      constructor
      · rintro (rfl | ⟨offset, rule, found⟩)
        · exact ⟨0, first, fits, rfl⟩
        · exact ⟨offset + 1, rule, found⟩
      · rintro ⟨offset, rule, found, eq⟩
        cases offset with
        | zero =>
          rw [List.drop_zero, fits] at found
          cases found
          exact .inl eq
        | succ offset => exact .inr ⟨offset, rule, found, eq⟩

namespace Independent

variable {rules : List Rule} (independent : Independent rules)
include independent

theorem of_subset {others : List Rule} (among : ∀ rule ∈ others, rule ∈ rules) : Independent others where
  single rule member other known := independent.single rule (among rule member) other (among other known)
  apart rule member other known := independent.apart rule (among rule member) other (among other known)
  passed rule member other known := independent.passed rule (among rule member) other (among other known)
  fresh rule member other known := independent.fresh rule (among rule member) other (among other known)

theorem fitting_iff {rule : Rule} {text : Text} :
    fitting rules text = some rule ↔ rule ∈ rules ∧ rule.old <+: text := by
  refine ⟨fitting_eq_some, fun ⟨member, starts⟩ => ?_⟩
  cases fits : fitting rules text with
  | none => exact absurd starts (fitting_eq_none_iff.mp fits rule member)
  | some other =>
    obtain ⟨known, also⟩ := fitting_eq_some fits
    rcases List.prefix_or_prefix_of_prefix starts also with inside | inside
    · rw [independent.single rule member other known inside]
    · rw [independent.single other known rule member inside]

theorem substitute_perm {others : List Rule} (perm : others.Perm rules) (text : Text) :
    substitute others text = substitute rules text := by
  have members : ∀ rule, rule ∈ others ↔ rule ∈ rules := fun rule => perm.mem_iff
  have same := independent.of_subset fun rule member => (members rule).mp member
  refine substitute_congr (fun rest => Option.ext fun rule => ?_) text
  rw [same.fitting_iff, independent.fitting_iff, members]

theorem mem_occurrences {text : Text} {edit : Edit} : edit ∈ occurrences rules text ↔
    ∃ rule ∈ rules, StandsAt rule.old text edit.start ∧ edit.stop = edit.start + rule.old.length ∧
      edit.new = rule.new := by
  obtain ⟨start, stop, new⟩ := edit
  rw [occurrences, mem_occurrencesFrom]
  simp only [independent.fitting_iff, Nat.zero_add]
  constructor
  · rintro ⟨offset, rule, ⟨member, stands⟩, eq⟩
    cases eq
    exact ⟨rule, member, stands, rfl, rfl⟩
  · rintro ⟨rule, member, stands, rfl, rfl⟩
    exact ⟨start, rule, ⟨member, stands⟩, rfl⟩

/-- A pass replaces all occurrences, and these lie apart. -/
theorem substitute_eq_patch (text : Text) :
    Apart text 0 (occurrences rules text) ∧ substitute rules text = patch text (occurrences rules text) := by
  suffices general : ∀ front : Text, Apart (front ++ text) front.length (occurrencesFrom rules front.length text) ∧
      substitute rules text = patchFrom (front ++ text) front.length (occurrencesFrom rules front.length text) from
    general []
  induction text using substituted_induction rules with
  | nil =>
    intro front
    rw [List.append_nil]
    exact ⟨Nat.le_refl _, List.drop_length.symm⟩
  | rule rule rest fits ih =>
    intro front
    have member := (fitting_eq_some fits).1
    obtain ⟨apart, whole⟩ := ih rest List.suffix_rfl (front ++ rule.old)
    rw [List.append_assoc, List.length_append] at apart whole
    have listed : occurrencesFrom rules front.length (rule.old ++ rest) =
        ⟨front.length, front.length + rule.old.length, rule.new⟩ ::
          occurrencesFrom rules (front.length + rule.old.length) rest := by
      -- no old text begins inside another, so the rest of this one has no occurrence
      obtain ⟨c, tail, spelled⟩ := List.exists_cons_of_ne_nil rule.proper
      have clear : ∀ other ∈ rules, Avoids tail other.old := by
        intro other known
        simpa [spelled] using independent.apart rule member other known
      rw [spelled, List.cons_append] at fits
      rw [spelled, List.cons_append, occurrencesFrom, fits]
      dsimp only
      rw [occurrencesFrom_lead clear, spelled, List.length_cons, Nat.add_assoc, Nat.add_comm 1]
    rw [listed, substitute_rule fits]
    refine ⟨⟨Nat.le_refl _, Nat.le_add_right _ _, apart⟩, ?_⟩
    rw [patchFrom, whole, List.take_left, List.drop_length, List.nil_append]
  | cons c rest unfit ih =>
    intro front
    obtain ⟨apart, whole⟩ := ih (front ++ [c])
    rw [List.append_assoc, List.singleton_append, List.length_append, List.length_singleton] at apart whole
    rw [occurrencesFrom, unfit]
    dsimp only
    refine ⟨apart.earlier (Nat.le_succ _), ?_⟩
    rw [patchFrom_earlier apart (Nat.le_succ _), ← whole, substitute_cons unfit, List.take_length_add_append,
      List.drop_left]
    rfl

theorem not_infix_substitute {rule : Rule} (member : rule ∈ rules) (text : Text) :
    ¬rule.old <:+: substitute rules text :=
  Text.not_infix_substitute member (fun other known => independent.passed other known rule member)
    (fun other known => independent.fresh rule member other known) text

end Independent

/-- Applying one rule first makes no difference to a pass. -/
theorem Independent.substitute_replace {rule : Rule} {rules : List Rule} (independent : Independent (rule :: rules))
    (text : Text) : substitute rules (replace rule.old rule.new text) = substitute (rule :: rules) text := by
  have others : Independent rules := independent.of_subset fun other member => List.mem_cons_of_mem rule member
  have own : rule ∈ rule :: rules := List.mem_cons_self
  induction text using substituted_induction (rule :: rules) with
  | nil => rw [replace_nil rule.proper]; rfl
  | rule first rest fits ih =>
    rw [substitute_rule fits, ← ih rest List.suffix_rfl]
    obtain ⟨member, _⟩ := fitting_eq_some fits
    by_cases same : first = rule
    · subst same
      rw [replace_start first.proper]
      exact substitute_append (fun other inside => independent.passed first own other (List.mem_cons_of_mem _ inside)) _
    · -- another rule's occurrence is passed over, and is replaced afterwards
      have known := (List.mem_cons.mp member).resolve_left same
      have clear : Avoids first.old rule.old := by
        obtain ⟨c, tail, spelled⟩ := List.exists_cons_of_ne_nil first.proper
        have later := independent.apart first member rule own
        intro ending inside proper
        rw [spelled, List.mem_tails, List.suffix_cons_iff, ← spelled] at inside
        rcases inside with rfl | inside
        · exact ⟨fun starts => same (independent.single first member rule own starts),
            fun starts => same (independent.single rule own first member starts).symm⟩
        · rw [spelled, List.tail_cons] at later
          exact later ending ((List.mem_tails _ _).mpr inside) proper
      rw [replace_append rule.proper rule.new clear]
      exact substitute_rule (others.fitting_iff.mpr ⟨known, List.prefix_append _ _⟩)
  | cons c rest unfit ih =>
    have absent := fitting_eq_none_iff.mp unfit
    have still : fitting rules (c :: replace rule.old rule.new rest) = none := by
      refine fitting_eq_none_iff.mpr fun other member starts => absent other (List.mem_cons_of_mem rule member) ?_
      obtain ⟨d, tail, spelled⟩ := List.exists_cons_of_ne_nil other.proper
      have fresh := independent.fresh other (List.mem_cons_of_mem rule member) rule own
      rw [spelled, List.tail_cons] at fresh
      rw [spelled, List.cons_prefix_cons, replace_eq_substitute] at starts
      rw [spelled, List.cons_prefix_cons]
      exact ⟨starts.1, prefix_of_substitute (by simpa using fresh) starts.2⟩
    rw [replace_cons rule.proper rule.new (absent rule own), substitute_cons still, substitute_cons unfit, ih]

/-- Independent rules applied one after the other are one pass. -/
theorem Independent.replaceEach_eq {rules : List Rule} (independent : Independent rules) (text : Text) :
    replaceEach rules text = substitute rules text := by
  induction rules generalizing text with
  | nil =>
    have unfit : ∀ rest, fitting [] rest = none := fun _ => rfl
    induction text with
    | nil => rfl
    | cons c rest ih => rw [substitute_cons (unfit _), ← ih]; rfl
  | cons rule rules ih =>
    rw [replaceEach, ih (independent.of_subset fun other member => List.mem_cons_of_mem rule member),
      independent.substitute_replace]

end ApiDocs.Text
