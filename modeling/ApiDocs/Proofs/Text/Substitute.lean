import ApiDocs.Proofs.Text.Replace
import Mathlib.Data.List.Infix

/-! Replacing by several rules in one pass. At each place the first rule that fits is applied, and the pass goes on
after what it has replaced; replacing one text by another is the pass with one rule. A replacement that follows a pass
can be made in the pass itself, if what it looks for begins nowhere but where the last rule has put its beginning. -/

set_option autoImplicit false

namespace ApiDocs.Text

structure Rule where
  old : Text
  new : Text
  proper : old ≠ [] := by decide

def fitting (rules : List Rule) (text : Text) : Option Rule := rules.find? fun rule => rule.old.isPrefixOf text

/-- A text with rules applied, after `skip` more characters of what has been replaced have gone by. -/
def substituteSkipping (rules : List Rule) : Nat → Text → Text
  | _, [] => []
  | skip + 1, _ :: rest => substituteSkipping rules skip rest
  | 0, c :: rest =>
    match fitting rules (c :: rest) with
    | some rule => rule.new ++ substituteSkipping rules (rule.old.length - 1) rest
    | none => c :: substituteSkipping rules 0 rest

def substitute (rules : List Rule) (text : Text) : Text := substituteSkipping rules 0 text

/-- No occurrence of a text begins in a part, whatever comes after the part. -/
def Avoids (part text : Text) : Prop := ∀ tail ∈ part.tails, tail ≠ [] → ¬tail <+: text ∧ ¬text <+: tail

instance (part text : Text) : Decidable (Avoids part text) :=
  inferInstanceAs (Decidable (∀ tail ∈ part.tails, tail ≠ [] → ¬tail <+: text ∧ ¬text <+: tail))

theorem fitting_eq_some {rules : List Rule} {rule : Rule} {text : Text} (fits : fitting rules text = some rule) :
    rule ∈ rules ∧ rule.old <+: text := by
  unfold fitting at fits
  have starts := List.find?_some fits
  exact ⟨List.mem_of_find?_eq_some fits, List.isPrefixOf_iff_prefix.mp starts⟩

theorem fitting_eq_none_iff {rules : List Rule} {text : Text} :
    fitting rules text = none ↔ ∀ rule ∈ rules, ¬rule.old <+: text := by
  simp [fitting, List.find?_eq_none, List.isPrefixOf_iff_prefix]

theorem fitting_append (front later : List Rule) (text : Text) :
    fitting (front ++ later) text = (fitting front text).or (fitting later text) := List.find?_append

theorem fitting_cons_of_prefix {rule : Rule} {text : Text} (fits : rule.old <+: text) (later : List Rule) :
    fitting (rule :: later) text = some rule :=
  List.find?_cons_of_pos (List.isPrefixOf_iff_prefix.mpr fits)

theorem fitting_cons_of_unfit {rule : Rule} {text : Text} (unfit : ¬rule.old <+: text) (later : List Rule) :
    fitting (rule :: later) text = fitting later text :=
  List.find?_cons_of_neg fun starts => unfit (List.isPrefixOf_iff_prefix.mp starts)

section
variable {rules : List Rule}

theorem substituteSkipping_eq (rules : List Rule) (skip : Nat) (text : Text) :
    substituteSkipping rules skip text = substitute rules (text.drop skip) := by
  induction text generalizing skip with
  | nil => cases skip <;> rfl
  | cons c rest ih =>
    cases skip with
    | zero => rfl
    | succ skip => exact ih skip

theorem substitute_rule {rule : Rule} {rest : Text} (fits : fitting rules (rule.old ++ rest) = some rule) :
    substitute rules (rule.old ++ rest) = rule.new ++ substitute rules rest := by
  obtain ⟨c, tail, whole⟩ := List.exists_cons_of_ne_nil rule.proper
  rw [whole, List.cons_append] at fits ⊢
  rw [substitute, substituteSkipping, fits]
  simp [whole, substituteSkipping_eq]

theorem substitute_cons {c : CodePoint} {rest : Text} (unfit : fitting rules (c :: rest) = none) :
    substitute rules (c :: rest) = c :: substitute rules rest := by
  rw [substitute, substituteSkipping, unfit]
  rfl

/-- A text is gone through as it is in a pass: over what a rule replaces, or over one character. -/
theorem substituted_induction (rules : List Rule) {motive : Text → Prop} (nil : motive [])
    (rule : ∀ rule rest, fitting rules (rule.old ++ rest) = some rule → (∀ later, later <:+ rest → motive later) →
      motive (rule.old ++ rest))
    (cons : ∀ c rest, fitting rules (c :: rest) = none → motive rest → motive (c :: rest)) (text : Text) :
    motive text := by
  induction size : text.length using Nat.strongRecOn generalizing text with
  | _ length ih =>
    cases text with
    | nil => exact nil
    | cons c rest =>
      cases fits : fitting rules (c :: rest) with
      | none => exact cons c rest fits (ih _ (by rw [← size]; exact Nat.lt_succ_self _) rest rfl)
      | some first =>
        obtain ⟨more, whole⟩ := (fitting_eq_some fits).2
        have sizes := congrArg List.length whole
        have positive := List.length_pos_iff.mpr first.proper
        rw [List.length_append, size] at sizes
        rw [← whole] at fits ⊢
        refine rule first more fits fun later ends => ih _ ?_ later rfl
        have shorter := ends.length_le
        omega

theorem replace_eq_substitute (rule : Rule) (text : Text) :
    replace rule.old rule.new text = substitute [rule] text := by
  induction text using replaced_induction rule.proper with
  | nil => exact replace_nil rule.proper rule.new
  | start rest ih =>
    have fits : fitting [rule] (rule.old ++ rest) = some rule := by simp [fitting]
    rw [replace_start rule.proper, substitute_rule fits, ih]
  | cons c rest absent ih =>
    have unfit : fitting [rule] (c :: rest) = none := fitting_eq_none_iff.mpr (by simpa using absent)
    rw [replace_cons rule.proper rule.new absent, substitute_cons unfit, ih]

end

namespace Avoids

variable {part text rest : Text}

theorem not_starting (avoids : Avoids part text) (proper : part ≠ []) (rest : Text) : ¬text <+: part ++ rest := by
  intro starts
  have apart := avoids part ((List.mem_tails _ _).mpr List.suffix_rfl) proper
  exact (List.prefix_or_prefix_of_prefix (List.prefix_append part rest) starts).elim apart.1 apart.2

theorem tail {c : CodePoint} (avoids : Avoids (c :: part) text) : Avoids part text := by
  intro tail member
  exact avoids tail ((List.mem_tails _ _).mpr (((List.mem_tails _ _).mp member).trans (List.suffix_cons c part)))

theorem infix_after (avoids : Avoids part text) (found : text <:+: part ++ rest) : text <:+: rest := by
  induction part with
  | nil => exact found
  | cons c part ih =>
    rcases List.infix_cons_iff.mp found with starts | later
    · exact absurd starts (avoids.not_starting (List.cons_ne_nil c part) rest)
    · exact ih avoids.tail later

end Avoids

section
variable {rules : List Rule}

theorem substitute_append {lead : Text} (avoids : ∀ rule ∈ rules, Avoids lead rule.old) (rest : Text) :
    substitute rules (lead ++ rest) = lead ++ substitute rules rest := by
  induction lead with
  | nil => rfl
  | cons c lead ih =>
    have unfit : fitting rules (c :: (lead ++ rest)) = none :=
      fitting_eq_none_iff.mpr fun rule member => (avoids rule member).not_starting (List.cons_ne_nil c lead) rest
    rw [List.cons_append, substitute_cons unfit, ih fun rule member => (avoids rule member).tail, List.cons_append]

theorem replace_append {old lead : Text} (proper : old ≠ []) (new : Text) (avoids : Avoids lead old) (rest : Text) :
    replace old new (lead ++ rest) = lead ++ replace old new rest := by
  have one := replace_eq_substitute ⟨old, new, proper⟩
  rw [one, one, substitute_append (by simpa using avoids)]

theorem prefix_of_substitute {part text : Text} (avoids : ∀ rule ∈ rules, Avoids part rule.new)
    (starts : part <+: substitute rules text) : part <+: text := by
  induction part generalizing text with
  | nil => exact List.nil_prefix
  | cons d part ih =>
    cases text with
    | nil => exact absurd (List.prefix_nil.mp starts) (List.cons_ne_nil d part)
    | cons c rest =>
      cases fits : fitting rules (c :: rest) with
      | none =>
        rw [substitute_cons fits, List.cons_prefix_cons] at starts
        exact List.cons_prefix_cons.mpr ⟨starts.1, ih (fun rule member => (avoids rule member).tail) starts.2⟩
      | some rule =>
        obtain ⟨member, more, whole⟩ := fitting_eq_some fits
        rw [← whole] at fits starts
        rw [substitute_rule fits] at starts
        have apart := avoids rule member (d :: part) ((List.mem_tails _ _).mpr List.suffix_rfl)
          (List.cons_ne_nil d part)
        exact ((List.prefix_or_prefix_of_prefix starts (List.prefix_append rule.new _)).elim apart.1 apart.2).elim

theorem infix_of_substitute {part text : Text} (before : ∀ rule ∈ rules, Avoids rule.new part)
    (inside : ∀ rule ∈ rules, Avoids part rule.new) (found : part <:+: substitute rules text) : part <:+: text := by
  induction text using substituted_induction rules with
  | nil => exact found
  | rule rule rest fits ih =>
    rw [substitute_rule fits] at found
    have later := ih rest List.suffix_rfl ((before rule (fitting_eq_some fits).1).infix_after found)
    exact later.trans (List.suffix_append rule.old rest).isInfix
  | cons c rest unfit ih =>
    rcases List.infix_cons_iff.mp (substitute_cons unfit ▸ found) with starts | later
    · exact (prefix_of_substitute inside (substitute_cons unfit ▸ starts)).isInfix
    · exact (ih later).trans (List.suffix_cons c rest).isInfix

theorem not_infix_substitute {rule : Rule} (member : rule ∈ rules) (before : ∀ other ∈ rules, Avoids other.new rule.old)
    (inside : ∀ other ∈ rules, Avoids rule.old.tail other.new) (text : Text) :
    ¬rule.old <:+: substitute rules text := by
  obtain ⟨d, part, whole⟩ := List.exists_cons_of_ne_nil rule.proper
  induction text using substituted_induction rules with
  | nil => exact fun found => rule.proper (List.eq_nil_of_infix_nil found)
  | rule other rest fits ih =>
    rw [substitute_rule fits]
    exact fun found => ih rest List.suffix_rfl ((before other (fitting_eq_some fits).1).infix_after found)
  | cons c rest unfit ih =>
    rw [substitute_cons unfit, List.infix_cons_iff, not_or]
    refine ⟨fun starts => ?_, ih⟩
    rw [whole, List.cons_prefix_cons] at starts
    have further : part <+: rest := by
      refine prefix_of_substitute (fun other known => ?_) starts.2
      simpa [whole] using inside other known
    refine fitting_eq_none_iff.mp unfit rule member ?_
    rw [whole]
    exact List.cons_prefix_cons.mpr ⟨starts.1, further⟩

end

def replaceEach : List Rule → Text → Text
  | [], text => text
  | rule :: rules, text => replaceEach rules (replace rule.old rule.new text)

theorem not_infix_replaceEach {rules : List Rule} {part text : Text}
    (clear : ∀ rule ∈ rules, Avoids rule.new part ∧ Avoids part rule.new) (absent : ¬part <:+: text) :
    ¬part <:+: replaceEach rules text := by
  induction rules generalizing text with
  | nil => exact absent
  | cons rule rules ih =>
    obtain ⟨before, inside⟩ := clear rule List.mem_cons_self
    rw [replaceEach]
    refine ih (fun other member => clear other (List.mem_cons_of_mem rule member)) fun found => absent ?_
    rw [replace_eq_substitute] at found
    exact infix_of_substitute (by simpa using before) (by simpa using inside) found

/-- Nothing that rules look for is left, if what they put in is neither a part of it nor of what rules before have
looked for. -/
theorem replaceEach_leaves_none {rules : List Rule}
    (own : ∀ rule ∈ rules, Avoids rule.new rule.old ∧ Avoids rule.old.tail rule.new)
    (apart : rules.Pairwise fun rule later => Avoids later.new rule.old ∧ Avoids rule.old later.new) (text : Text) :
    ∀ rule ∈ rules, ¬rule.old <:+: replaceEach rules text := by
  induction rules generalizing text with
  | nil => exact fun _ member => absurd member List.not_mem_nil
  | cons rule rules ih =>
    obtain ⟨later, apart⟩ := List.pairwise_cons.mp apart
    intro other member
    rw [replaceEach]
    rcases List.mem_cons.mp member with rfl | member
    · obtain ⟨before, inside⟩ := own other List.mem_cons_self
      refine not_infix_replaceEach later ?_
      rw [replace_eq_substitute]
      exact not_infix_substitute List.mem_cons_self (by simpa using before) (by simpa using inside) text
    · exact ih (fun rule member => own rule (List.mem_cons_of_mem _ member)) apart _ other member

/-- A replacement of what the last rule of a pass puts in, together with a word after it, can be made in the pass. -/
structure Fusible (front : List Rule) (last : Rule) (word : Text) : Prop where
  /-- What the other rules put in is passed over. -/
  passed : ∀ rule ∈ front, Avoids rule.new (last.new ++ word)
  /-- Nothing in the word is replaced. -/
  kept : ∀ rule ∈ front ++ [last], Avoids word rule.old
  /-- Nothing that is put in makes up a part of the word. -/
  fresh : ∀ rule ∈ front ++ [last], Avoids word rule.new
  /-- Nothing that is put in makes up a later part of what the last rule puts in. -/
  whole : ∀ rule ∈ front ++ [last], Avoids last.new.tail rule.new
  /-- What is looked for begins with what the last rule puts in, and not within it. -/
  once : Avoids last.new.tail (last.new ++ word)
  filled : last.new ≠ []

section
variable {front : List Rule} {last : Rule} {word : Text} (fusible : Fusible front last word)
include fusible

theorem Fusible.not_starting {c : CodePoint} {rest : Text} (absent : ¬last.new <:+: c :: rest) :
    ¬last.new ++ word <+: c :: substitute (front ++ [last]) rest := by
  obtain ⟨d, tail, mark⟩ := List.exists_cons_of_ne_nil fusible.filled
  intro starts
  have lead := (List.prefix_append last.new word).trans starts
  rw [mark, List.cons_prefix_cons] at lead
  have further : tail <+: rest := prefix_of_substitute (by simpa [mark] using fusible.whole) lead.2
  refine absent ?_
  rw [mark, lead.1]
  exact (List.cons_prefix_cons.mpr ⟨rfl, further⟩).isInfix

theorem Fusible.replace_last {rest : Text} (unfollowed : ¬word <+: rest) (new : Text) :
    replace (last.new ++ word) new (last.new ++ substitute (front ++ [last]) rest) =
      last.new ++ replace (last.new ++ word) new (substitute (front ++ [last]) rest) := by
  obtain ⟨d, tail, mark⟩ := List.exists_cons_of_ne_nil fusible.filled
  have proper : last.new ++ word ≠ [] := List.append_ne_nil_of_left_ne_nil fusible.filled word
  have clear : Avoids tail (last.new ++ word) := by simpa [mark] using fusible.once
  have start : ¬last.new ++ word <+: last.new ++ substitute (front ++ [last]) rest := by
    rw [List.prefix_append_right_inj]
    exact fun starts => unfollowed (prefix_of_substitute fusible.fresh starts)
  have cut : ∀ text : Text, last.new ++ text = d :: (tail ++ text) := fun text => congrArg (· ++ text) mark
  rw [cut (substitute _ _)] at start ⊢
  rw [replace_cons proper new start, replace_append proper new clear, cut (replace _ _ _)]

end

theorem fitting_longer {front : List Rule} {last rule : Rule} {word text : Text} (longer : rule.old = last.old ++ word)
    (unfit : fitting (front ++ [last]) text = none) : fitting (front ++ rule :: [last]) text = none := by
  have known := fitting_eq_none_iff.mp unfit
  refine fitting_eq_none_iff.mpr fun other member => ?_
  rcases List.mem_append.mp member with inside | inside
  · exact known other (List.mem_append_left _ inside)
  · rcases List.mem_cons.mp inside with rfl | inside
    · rw [longer]
      exact fun starts => known last (by simp) ((List.prefix_append _ _).trans starts)
    · exact known other (List.mem_append_right _ inside)

/-- Two passes in one: a text in which the last rule puts in something new, and then this with a word after it is
replaced. -/
theorem replace_substitute {front : List Rule} {last : Rule} {word : Text} (fusible : Fusible front last word)
    (rule : Rule) (longer : rule.old = last.old ++ word) {sought : Text} (begins : sought = last.new ++ word)
    {text : Text} (absent : ¬last.new <:+: text) :
    replace sought rule.new (substitute (front ++ [last]) text) = substitute (front ++ rule :: [last]) text := by
  subst begins
  have proper : last.new ++ word ≠ [] := List.append_ne_nil_of_left_ne_nil fusible.filled word
  induction text using substituted_induction (front ++ [last]) with
  | nil => exact replace_nil proper rule.new
  | rule first rest fits ih =>
    have later : ∀ {more : Text}, more <:+ rest →
      replace (last.new ++ word) rule.new (substitute (front ++ [last]) more) =
        substitute (front ++ rule :: [last]) more := by
      intro more ends
      exact ih more ends fun found => absent (found.trans (ends.trans (List.suffix_append first.old rest)).isInfix)
    rw [substitute_rule fits]
    rw [fitting_append] at fits
    cases early : fitting front (first.old ++ rest) with
    | some other =>
      -- a rule before the last one has been applied, and is applied in the pass with the new rule too
      obtain rfl : other = first := by simpa [early] using fits
      have still : fitting (front ++ rule :: [last]) (other.old ++ rest) = some other := by simp [fitting_append, early]
      rw [replace_append proper _ (fusible.passed other (fitting_eq_some early).1), later List.suffix_rfl,
        substitute_rule still]
    | none =>
      rw [early, Option.none_or] at fits
      obtain rfl : first = last := List.mem_singleton.mp (fitting_eq_some fits).1
      by_cases follows : word <+: rest
      · -- the new rule takes the word along
        obtain ⟨more, rfl⟩ := follows
        have together : first.old ++ (word ++ more) = rule.old ++ more := by rw [longer, List.append_assoc]
        have fits' : fitting (front ++ rule :: [first]) (rule.old ++ more) = some rule := by
          rw [← together, fitting_append, early, Option.none_or, together]
          exact fitting_cons_of_prefix (List.prefix_append _ _) _
        rw [substitute_append fusible.kept, ← List.append_assoc, replace_start proper,
          later (List.suffix_append word more), together, substitute_rule fits']
      · have unfit : ¬rule.old <+: first.old ++ rest := by
          rwa [longer, List.prefix_append_right_inj]
        have still : fitting (front ++ rule :: [first]) (first.old ++ rest) = some first := by
          rw [fitting_append, early, Option.none_or, fitting_cons_of_unfit unfit, fits]
        rw [fusible.replace_last follows, later List.suffix_rfl, substitute_rule still]
  | cons c rest unfit ih =>
    rw [substitute_cons unfit, substitute_cons (fitting_longer longer unfit),
      replace_cons proper rule.new (fusible.not_starting absent)]
    rw [ih fun found => absent (found.trans (List.suffix_cons c rest).isInfix)]

end ApiDocs.Text
