import SettingsSweep.Proofs.Axis.RangeText
import SettingsSweep.Proofs.Axis.Values

/-!
No row is lost without a word: a row without values has a warning, unless there is nothing in it but commas and blanks or
it asks for a count of zero. A warning tells the row and comes without values, except that a step of zero leaves the
start.
-/

set_option autoImplicit false

namespace SettingsSweep

namespace Text

theorem eq_sep_or_of_mem_joinWith {sep c : Char} {pieces : List (List Char)} (h : c ∈ joinWith sep pieces) :
    c = sep ∨ ∃ piece ∈ pieces, c ∈ piece := by
  induction pieces with
  | nil => cases h
  | cons first pieces ih =>
    cases pieces with
    | nil => exact .inr ⟨first, List.mem_singleton_self first, h⟩
    | cons next pieces =>
      rw [joinWith_cons _ _ (List.cons_ne_nil _ _), List.mem_append, List.mem_cons] at h
      rcases h with h | rfl | h
      · exact .inr ⟨first, List.mem_cons_self, h⟩
      · exact .inl rfl
      · rcases ih h with rfl | ⟨piece, known, h⟩
        · exact .inl rfl
        · exact .inr ⟨piece, List.mem_cons_of_mem _ known, h⟩

theorem mem_of_mem_trimChars {c : Char} {text : List Char} (h : c ∈ trimChars text) : c ∈ text := by
  obtain ⟨before, after, -, -, parts⟩ := exists_trim text
  rw [parts]
  exact List.mem_append_right _ (List.mem_append_left _ h)

theorem mem_trimChars {c : Char} {text : List Char} (h : c ∈ text) (solid : isBlank c = false) :
    c ∈ trimChars text := by
  obtain ⟨before, after, hb, ha, parts⟩ := exists_trim text
  have outer {run : List Char} (blank : run.all isBlank = true) : c ∉ run := by
    intro hc
    rw [List.all_eq_true.1 blank c hc] at solid
    cases solid
  rw [parts, List.mem_append, List.mem_append] at h
  rcases h with h | h | h
  · exact absurd h (outer hb)
  · exact h
  · exact absurd h (outer ha)

/-- What splits the tokens of a list, or stands around them. -/
def IsSeparator (c : Char) : Prop := c = ',' ∨ isBlank c = true

instance (c : Char) : Decidable (IsSeparator c) := inferInstanceAs (Decidable (c = ',' ∨ isBlank c = true))

theorem forall_isSeparator_trimChars {text : List Char} :
    (∀ c ∈ trimChars text, IsSeparator c) ↔ ∀ c ∈ text, IsSeparator c := by
  constructor
  · intro inner c hc
    cases blank : isBlank c with
    | true => exact .inr blank
    | false => exact inner c (mem_trimChars hc blank)
  · exact fun all c hc => all c (mem_of_mem_trimChars hc)

end Text

open Text (IsSeparator)

theorem Decimal.natOfDigits_eq_zero_iff {digits : List Char} (h : digits.all Char.isDigit = true) :
    natOfDigits digits = 0 ↔ ∀ c ∈ digits, c = '0' := by
  induction digits with
  | nil => simp [natOfDigits]
  | cons c cs ih =>
    rw [List.all_cons, Bool.and_eq_true] at h
    have first : c.toNat - '0'.toNat = 0 ↔ c = '0' := by
      constructor
      · intro le
        have digit := Char.isDigit_iff_toNat.1 h.1
        apply Char.toNat_inj.1
        have zero : '0'.toNat = 48 := rfl
        omega
      · rintro rfl
        rfl
    have rest := ih h.2
    unfold natOfDigits at rest ⊢
    rw [Nat.ofDigitChars_cons, Nat.ofDigitChars_eq_ofDigitChars_zero, Nat.add_eq_zero_iff, List.forall_mem_cons, rest,
      ← first]
    simp

theorem Numeral.count?_eq_zero_iff {count : Numeral} : count.count? = some 0 ↔ ∀ c ∈ count, c = '0' := by
  rw [count?_eq_some_iff]
  constructor
  · rintro ⟨digits, zero, -⟩
    exact (Decimal.natOfDigits_eq_zero_iff digits).1 zero
  · intro zeros
    have digits : count.all Char.isDigit = true := by
      refine List.all_eq_true.2 fun c hc => ?_
      rw [zeros c hc]
      rfl
    exact ⟨digits, (Decimal.natOfDigits_eq_zero_iff digits).2 zeros, by decide⟩

theorem Numeral.Signed.exists_cons {n : Numeral} (h : n.Signed) :
    ∃ c cs, n = c :: cs ∧ (Text.isDigit c = true ∨ c = '.' ∨ c = '-') := by
  cases h with
  | plain h =>
    obtain ⟨c, cs, rfl, first⟩ := h.exists_cons
    exact ⟨c, cs, rfl, by tauto⟩
  | minus h => exact ⟨'-', _, rfl, .inr (.inr rfl)⟩

namespace RangeParts

variable {p q : RangeParts} {text : List Char}

theorem form_inj (ranged : p.tail ≠ .bare) (h : p.form = q.form) : p = q := by
  obtain ⟨s, e, tail⟩ := p
  obtain ⟨s', e', tail'⟩ := q
  cases tail with
  | bare => exact absurd rfl ranged
  | stepped down step =>
    cases tail' with
    | stepped => cases h; rfl
    | counted => cases h
    | bare => unfold form at h; dsimp only at h; split at h <;> cases h
  | counted count =>
    cases tail' with
    | stepped => cases h
    | counted => cases h; rfl
    | bare => unfold form at h; dsimp only at h; split at h <;> cases h

theorem spells_iff (ranged : p.tail ≠ .bare) (sound : p.form ≠ .badStep) :
    p.Spells text ↔ RangeForm.ofText? text = some p.form := by
  constructor
  · exact Spells.form_eq
  · intro read
    obtain ⟨q, spelt, same⟩ := exists_spells read sound
    rwa [form_inj ranged same.symm]

theorem spells_stepped_iff {start stop step : Numeral} {down : Bool} :
    (⟨start, stop, .stepped down step⟩ : RangeParts).Spells text ↔
      RangeForm.ofText? text = some (.stepped start stop down step) :=
  spells_iff RangeTail.noConfusion RangeForm.noConfusion

theorem spells_counted_iff {start stop count : Numeral} :
    (⟨start, stop, .counted count⟩ : RangeParts).Spells text ↔
      RangeForm.ofText? text = some (.counted start stop count) :=
  spells_iff RangeTail.noConfusion RangeForm.noConfusion

end RangeParts

namespace Expansion

variable {form : RangeForm} {start stop : Binary64} {first last step count : Numeral}

/-- All that can become of a range. -/
inductive Outcome : RangeForm → Expansion → Prop
  | refused {form : RangeForm} {problem : RangeProblem} (other : problem ≠ .zeroStep) : Outcome form (refuse problem)
  | standsStill {first last step : Numeral} {down : Bool} (still : step.value.isZero = true) :
      Outcome (.stepped first last down step) ⟨[point first.value], some .zeroStep⟩
  | spread {form : RangeForm} {values : List Scalar} (some : values ≠ []) : Outcome form ⟨values, none⟩
  | countOfZero {first last count : Numeral} (zero : count.count? = some 0) :
      Outcome (.counted first last count) ⟨[], none⟩

theorem Outcome.tooMany : Outcome form tooMany := .refused (by simp)

theorem progression_ne_nil {n : Nat} (pos : 0 < n) : progression start stop n ≠ [] := by
  obtain ⟨m, rfl⟩ := Nat.exists_eq_succ_of_ne_zero pos.ne'
  simp [progression]

theorem isZero_neg (x : Binary64) : (-x).isZero = x.isZero := by
  cases x <;> rfl

theorem outcome_stepped (first last : Numeral) (down : Bool) (step : Numeral) :
    Outcome (.stepped first last down step) (ofForm (.stepped first last down step)) := by
  have still : (if down then -step.value else step.value).isZero = step.value.isZero := by
    split
    · exact isZero_neg step.value
    · rfl
  unfold ofForm
  dsimp only
  generalize (if down then -step.value else step.value) = signed at still
  unfold stepped
  split
  · next zero => exact .standsStill (still ▸ zero)
  · split
    · exact .spread (List.cons_ne_nil _ _)
    · split
      · exact .refused (by simp)
      · dsimp only
        split
        · exact .tooMany
        · exact .spread (progression_ne_nil (Nat.succ_pos _))

theorem outcome_counted (first last count : Numeral) :
    Outcome (.counted first last count) (ofForm (.counted first last count)) := by
  unfold ofForm counted
  dsimp only
  split
  · next n read =>
    split
    · next zero => exact .countOfZero (zero ▸ read)
    · next some =>
      split
      · exact .spread (List.cons_ne_nil _ _)
      · split
        · exact .tooMany
        · exact .spread (progression_ne_nil (Nat.pos_of_ne_zero some))
  · exact .tooMany

theorem outcome_integers (first last : Numeral) :
    Outcome (.integers first last) (ofForm (.integers first last)) := by
  unfold ofForm integers
  dsimp only
  split
  · split
    · exact .refused (by simp)
    · split
      · exact .tooMany
      · exact .spread (by simp)
  · exact .tooMany

theorem outcome_ofForm (form : RangeForm) : Outcome form (ofForm form) := by
  cases form with
  | stepped first last down step => exact outcome_stepped first last down step
  | counted first last count => exact outcome_counted first last count
  | integers first last => exact outcome_integers first last
  | badStep => exact .refused (by simp)
  | decimals => exact .refused (by simp)

theorem silent_iff : (ofForm form).values = [] ∧ (ofForm form).problem = none ↔
    ∃ first last count, form = .counted first last count ∧ count.count? = some 0 := by
  constructor
  · rintro ⟨empty, quiet⟩
    have outcome := outcome_ofForm form
    generalize ofForm form = expansion at outcome empty quiet
    cases outcome with
    | refused other => cases quiet
    | standsStill still => cases quiet
    | spread some => exact absurd empty some
    | countOfZero zero => exact ⟨_, _, _, rfl, zero⟩
  · rintro ⟨first, last, count, rfl, zero⟩
    unfold ofForm
    dsimp only
    rw [zero]
    exact ⟨rfl, rfl⟩

theorem of_problem {problem : RangeProblem} (h : (ofForm form).problem = some problem) :
    (problem ≠ .zeroStep → (ofForm form).values = []) ∧
      (problem = .zeroStep → ∃ first last down step, form = .stepped first last down step ∧
        step.value.isZero = true ∧ (ofForm form).values = [.number (tenPlaces first.value)]) := by
  have outcome := outcome_ofForm form
  generalize ofForm form = expansion at outcome h
  cases outcome with
  | refused other =>
    cases h
    exact ⟨fun _ => rfl, fun same => absurd same other⟩
  | standsStill still =>
    cases h
    exact ⟨fun other => absurd rfl other, fun _ => ⟨_, _, _, _, rfl, still, rfl⟩⟩
  | spread some => cases h
  | countOfZero zero => cases h

end Expansion

theorem RangeForm.mem_minus {form : RangeForm} {text : List Char} (h : ofText? text = some form) : '-' ∈ text := by
  unfold RangeForm.ofText? at h
  obtain ⟨⟨start, stop, rest⟩, bounds, -⟩ := Option.bind_eq_some_iff.1 h
  obtain ⟨-, -, a, b, -, -, rfl⟩ := RangeForm.of_bounds? bounds
  simp

theorem Expansion.listTokens_eq_nil_iff {text : List Char} :
    listTokens text = [] ↔ ∀ c ∈ text, IsSeparator c := by
  have blank : listTokens text = [] ↔ ∀ piece ∈ Text.splitOn ',' text, ∀ c ∈ piece, Text.isBlank c = true := by
    simp [listTokens, List.filter_eq_nil_iff, Text.trimChars_eq_nil_iff]
  rw [blank]
  constructor
  · intro pieces c hc
    rw [← Text.joinWith_splitOn ',' text] at hc
    rcases Text.eq_sep_or_of_mem_joinWith hc with comma | ⟨piece, known, hc⟩
    · exact .inl comma
    · exact .inr (pieces piece known c hc)
  · intro all piece known c hc
    rcases all c (Text.mem_of_mem_splitOn known hc) with rfl | blank
    · exact absurd hc (Text.not_mem_of_mem_splitOn known)
    · exact blank

namespace Row

variable {text : String}

/-- The rows that stand for nothing and are no mistake: nothing but commas and blanks, or a range of which no number is
    wanted. -/
inductive SaysNothing (text : String) : Prop
  | separators (only : ∀ c ∈ text.toList, IsSeparator c)
  | countOfZero {start stop count : Numeral}
      (spelt : (⟨start, stop, .counted count⟩ : RangeParts).Spells (Text.trimChars text.toList))
      (zero : ∀ c ∈ count, c = '0')

theorem ofText_of_separators (only : ∀ c ∈ text.toList, IsSeparator c) : ofText text = ⟨[], none⟩ := by
  have inner := Text.forall_isSeparator_trimChars.2 only
  unfold ofText
  dsimp only
  split
  · rfl
  · next visible =>
    split
    · next form read => exact absurd (inner '-' (RangeForm.mem_minus read)) (by decide)
    · have comma : ',' ∈ Text.trimChars text.toList := by
        by_contra none
        refine visible (Text.trimChars_eq_nil_iff.2 fun c hc => ?_)
        rcases only c hc with rfl | blank
        · exact absurd (Text.mem_trimChars hc (by decide)) none
        · exact blank
      rw [if_pos comma, Expansion.listTokens_eq_nil_iff.2 inner]
      rfl

theorem SaysNothing.ofText_eq (h : SaysNothing text) : ofText text = ⟨[], none⟩ := by
  cases h with
  | separators only => exact ofText_of_separators only
  | countOfZero spelt zero =>
    obtain ⟨empty, quiet⟩ := Expansion.silent_iff.2 ⟨_, _, _, rfl, Numeral.count?_eq_zero_iff.2 zero⟩
    rw [ofText_of_form spelt.form_eq]
    exact congr (congrArg Row.mk empty) (congrArg (Option.map _) quiet)

theorem ofText_of_no_form (other : RangeForm.ofText? (Text.trimChars text.toList) = none) :
    (ofText text).warning = none ∧ ((ofText text).values = [] → ∀ c ∈ text.toList, IsSeparator c) := by
  unfold ofText
  simp only [other]
  split
  · next blank => exact ⟨rfl, fun _ c hc => .inr (Text.trimChars_eq_nil_iff.1 blank c hc)⟩
  · split
    · refine ⟨rfl, fun empty => ?_⟩
      rw [List.map_eq_nil_iff, Expansion.listTokens_eq_nil_iff] at empty
      exact Text.forall_isSeparator_trimChars.1 empty
    · exact ⟨rfl, fun empty => absurd empty (List.cons_ne_nil _ _)⟩

theorem silent_iff_saysNothing :
    (ofText text).values = [] ∧ (ofText text).warning = none ↔ SaysNothing text := by
  constructor
  · rintro ⟨empty, quiet⟩
    cases read : RangeForm.ofText? (Text.trimChars text.toList) with
    | none => exact .separators ((ofText_of_no_form read).2 empty)
    | some form =>
      rw [ofText_of_form read] at empty quiet
      obtain ⟨start, stop, count, rfl, zero⟩ := Expansion.silent_iff.1 ⟨empty, Option.map_eq_none_iff.1 quiet⟩
      exact .countOfZero (RangeParts.spells_counted_iff.2 read) (Numeral.count?_eq_zero_iff.1 zero)
  · intro nothing
    rw [nothing.ofText_eq]
    exact ⟨rfl, rfl⟩

theorem of_warning {warning : RangeWarning} (h : (ofText text).warning = some warning) :
    warning.expression = Text.trim text ∧ (warning.problem ≠ .zeroStep → (ofText text).values = []) ∧
      (warning.problem = .zeroStep → ∃ start stop down step,
        (⟨start, stop, .stepped down step⟩ : RangeParts).Spells (Text.trimChars text.toList) ∧
          step.value.isZero = true ∧ (ofText text).values = [.number (Expansion.tenPlaces start.value)]) := by
  cases read : RangeForm.ofText? (Text.trimChars text.toList) with
  | none =>
    rw [(ofText_of_no_form read).1] at h
    cases h
  | some form =>
    rw [ofText_of_form read] at h ⊢
    obtain ⟨problem, known, rfl⟩ := Option.map_eq_some_iff.1 h
    obtain ⟨others, still⟩ := Expansion.of_problem known
    refine ⟨rfl, others, fun same => ?_⟩
    obtain ⟨start, stop, down, step, rfl, zero, values⟩ := still same
    exact ⟨start, stop, down, step, RangeParts.spells_stepped_iff.2 read, zero, values⟩

theorem SaysNothing.not_opensWith (h : SaysNothing text) : Text.opensWith ['\x7b'] text.toList = false := by
  cases h with
  | separators only =>
    by_contra opens
    rw [Bool.not_eq_false, Text.opensWith_iff (by rintro _ ⟨⟩; rfl)] at opens
    obtain ⟨blank, body, -, parts⟩ := opens
    refine absurd (only '\x7b' ?_) (by decide)
    rw [parts]
    simp
  | countOfZero spelt zero =>
    obtain ⟨before, after, hb, -, whole⟩ := Text.exists_trim text.toList
    obtain ⟨signed, -, a, b, rest, -, -, -, inner⟩ := spelt
    obtain ⟨c, cs, start, first⟩ := signed.exists_cons
    rw [inner, List.append_assoc] at whole
    rw [Text.opensWith, whole, Text.skipBlank_append hb, Text.skipBlank_of_not_blank signed.ne_nil signed.not_blank,
      start, List.cons_append, List.isPrefixOf_cons_cons, Bool.and_eq_false_iff]
    refine .inl (beq_eq_false_iff_ne.2 ?_)
    rintro rfl
    exact absurd first (by decide)

end Row

namespace Contribution

variable {name : AxisName} {row : String}

theorem ofExpression_silent_iff :
    (ofExpression name row).values = [] ∧ (ofExpression name row).warnings = [] ↔ Row.SaysNothing row := by
  rw [← Row.silent_iff_saysNothing]
  simp [ofExpression]

theorem ofPromptRow_silent_iff :
    (ofPromptRow name row).values = [] ∧ (ofPromptRow name row).warnings = [] ↔ Row.SaysNothing row := by
  unfold ofPromptRow
  split
  · next opens =>
    refine ⟨fun silent => absurd silent.1 (List.cons_ne_nil _ _), fun nothing => ?_⟩
    rw [nothing.not_opensWith] at opens
    cases opens
  · exact ofExpression_silent_iff

end Contribution

namespace Axis

variable {axis : Axis} {catalog : Catalog}

theorem silent_iff (field : axis.hasField = true) (kind : catalog.classify axis.path ≠ .choice) :
    (axis.resolve catalog).values = [] ∧ (axis.resolve catalog).warnings = [] ↔
      ∀ row ∈ axis.expressions, Row.SaysNothing row := by
  rw [resolve_eq field]
  dsimp only
  rw [Scalar.distinct_eq_nil_iff, contributed, List.flatMap_eq_nil_iff, List.flatMap_eq_nil_iff, ← forall₂_and]
  unfold contributions
  split
  · next choice => exact absurd choice kind
  · rw [List.forall_mem_map]
    exact forall₂_congr fun row _ => Contribution.ofPromptRow_silent_iff
  · rw [List.forall_mem_map]
    exact forall₂_congr fun row _ => Contribution.ofExpression_silent_iff

/-- No row is lost: it has no values and no warning just if it says nothing. A warning tells the trimmed row and comes
    without values, except that a step of zero leaves the start alone, at ten places. So an axis whose values are not
    picked comes to nothing without a warning just if all its rows say nothing. -/
theorem rows_lost_iff :
    (∀ text : String, (Row.ofText text).values = [] ∧ (Row.ofText text).warning = none ↔ Row.SaysNothing text) ∧
      (∀ (text : String) (warning : RangeWarning), (Row.ofText text).warning = some warning →
        warning.expression = Text.trim text ∧ (warning.problem ≠ .zeroStep → (Row.ofText text).values = []) ∧
          (warning.problem = .zeroStep → ∃ start stop down step,
            (⟨start, stop, .stepped down step⟩ : RangeParts).Spells (Text.trimChars text.toList) ∧
              step.value.isZero = true ∧
                (Row.ofText text).values = [.number (Expansion.tenPlaces start.value)])) ∧
      ∀ (axis : Axis) (catalog : Catalog), axis.hasField = true → catalog.classify axis.path ≠ .choice →
        ((axis.resolve catalog).values = [] ∧ (axis.resolve catalog).warnings = [] ↔
          ∀ row ∈ axis.expressions, Row.SaysNothing row) :=
  ⟨fun _ => Row.silent_iff_saysNothing, fun _ _ => Row.of_warning, fun _ _ => silent_iff⟩

theorem rows_lost_iff_seed :
    (Row.ofText " 0.5-2 (+0) ").warning = some ⟨.zeroStep, "0.5-2 (+0)"⟩ ∧
      (∃ start : Numeral, (Row.ofText " 0.5-2 (+0) ").values = [.number (Expansion.tenPlaces start.value)]) ∧
      (∀ row ∈ [" , ,", "1 - 5 [00]"], Row.SaysNothing row) ∧
      (({ name := .x, field := "seed", expressions := [" , ,", "1 - 5 [00]"] } : Axis).resolve {}).values = [] := by
  have warned : (Row.ofText " 0.5-2 (+0) ").warning = some ⟨.zeroStep, "0.5-2 (+0)"⟩ := by decide
  obtain ⟨start, -, -, -, -, -, values⟩ := (rows_lost_iff.2.1 _ _ warned).2.2 rfl
  have nothing : ∀ row ∈ [" , ,", "1 - 5 [00]"], Row.SaysNothing row := by
    rw [List.forall_mem_cons, List.forall_mem_singleton]
    exact ⟨.separators (by simp [Text.IsSeparator, Text.isBlank]), (rows_lost_iff.1 _).1 (by decide)⟩
  refine ⟨warned, ⟨start, values⟩, nothing, ?_⟩
  exact ((rows_lost_iff.2.2 { name := .x, field := "seed", expressions := [" , ,", "1 - 5 [00]"] } {} (by decide)
    (by decide)).2 nothing).1

end Axis

end SettingsSweep
