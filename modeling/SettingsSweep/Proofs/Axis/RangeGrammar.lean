import SettingsSweep.Axis.Expression
import SettingsSweep.Proofs.Axis.NumeralGrammar

/-!
The grammar of ranges, apart from the reader: two bounds with a minus between them, then a step, a count or nothing, and
blanks wherever parts meet. A text spells the parts of one range at most, the reader finds just these, and what a range
stands for depends on its parts alone.
-/

set_option autoImplicit false

namespace SettingsSweep

def Text.mark (c : Char) (there : Bool) : List Char := if there then [c] else []

inductive RangeTail
  | stepped (down : Bool) (step : Numeral)
  | counted (count : Numeral)
  | bare

/-- A range as the grammar takes it apart. -/
structure RangeParts where
  start : Numeral
  stop : Numeral
  tail : RangeTail

namespace RangeTail

open Text (mark)

/-- The spellings of a tail: blanks at every seam, and a plus or none before the sign of a step. -/
inductive Spells : RangeTail → List Char → Prop
  | bare : Spells .bare []
  | stepped (plus : Bool) {down : Bool} {step a b c d e : List Char} (numeral : Numeral.Unsigned step)
      (ha : a.all Text.isBlank = true) (hb : b.all Text.isBlank = true)
      (hc : c.all Text.isBlank = true) (hd : d.all Text.isBlank = true)
      (he : e.all Text.isBlank = true) :
      Spells (.stepped down step) (a ++ '(' :: (b ++ (mark '+' plus ++ (c ++ (mark '-' down ++
        (d ++ (step ++ (e ++ [')']))))))))
  | counted {count a b c : List Char} (some : count ≠ []) (digits : count.all Text.isDigit = true)
      (ha : a.all Text.isBlank = true) (hb : b.all Text.isBlank = true)
      (hc : c.all Text.isBlank = true) :
      Spells (.counted count) (a ++ '[' :: (b ++ (count ++ (c ++ [']']))))

theorem Spells.ends {tail : RangeTail} {text : List Char} (h : tail.Spells text) : Numeral.Ends text := by
  cases h with
  | bare => exact fun c hc => by cases hc
  | stepped plus numeral ha => exact .blank_append ha (.of_char (by decide))
  | counted some digits ha => exact .blank_append ha (.of_char (by decide))

theorem Spells.last {tail : RangeTail} {text : List Char} (h : tail.Spells text) :
    ∀ c ∈ text.getLast?, Text.isBlank c = false := by
  have closed : ∀ (front : List Char) (c : Char), Text.isBlank c = false →
      ∀ d ∈ (front ++ [c]).getLast?, Text.isBlank d = false := by
    intro front c hc d hd
    rw [List.getLast?_concat, Option.mem_some_iff] at hd
    exact hd ▸ hc
  cases h with
  | bare => exact fun c hc => by cases hc
  | @stepped plus down step a b c d e =>
    have split := closed (a ++ '(' :: (b ++ (mark '+' plus ++ (c ++ (mark '-' down ++
      (d ++ (step ++ e))))))) ')' (by decide)
    simpa only [List.append_assoc, List.cons_append] using split
  | @counted count a b c =>
    have split := closed (a ++ '[' :: (b ++ (count ++ c))) ']' (by decide)
    simpa only [List.append_assoc, List.cons_append] using split

def plain : RangeTail → List Char
  | .stepped down step => ' ' :: '(' :: (mark '-' down ++ (step ++ [')']))
  | .counted count => ' ' :: '[' :: (count ++ [']'])
  | .bare => []

theorem Spells.plain {tail : RangeTail} {text : List Char} (h : tail.Spells text) : tail.Spells tail.plain := by
  have one : [' '].all Text.isBlank = true := by decide
  cases h with
  | bare => exact .bare
  | stepped plus numeral =>
    exact .stepped false (b := []) (c := []) (d := []) (e := []) numeral one rfl rfl rfl rfl
  | counted some digits => exact .counted (b := []) (c := []) some digits one rfl rfl

end RangeTail

namespace RangeForm

open Text (mark)

/-! ### Reading the bounds -/

theorem bounds?_append {start stop rest a b : List Char} (hs : Numeral.Signed start) (he : Numeral.Signed stop)
    (ha : a.all Text.isBlank = true) (hb : b.all Text.isBlank = true) (ends : Numeral.Ends rest) :
    bounds? (start ++ (a ++ '-' :: (b ++ (stop ++ rest)))) = some (start, stop, rest) := by
  have gap : Numeral.Ends (a ++ '-' :: (b ++ (stop ++ rest))) := .blank_append ha (.of_char (by decide))
  have minus : Text.skipBlank (a ++ '-' :: (b ++ (stop ++ rest))) = '-' :: (b ++ (stop ++ rest)) :=
    Text.skipBlank_append ha _
  have onward : Text.skipBlank (b ++ (stop ++ rest)) = stop ++ rest := by
    rw [Text.skipBlank_append hb, Text.skipBlank_of_not_blank he.ne_nil he.not_blank]
  unfold bounds?
  simp only [Numeral.signed?_append hs gap, Option.bind_eq_bind, Option.bind_some, minus, onward,
    Numeral.signed?_append he ends]

theorem of_bounds? {text start stop rest : List Char} (h : bounds? text = some (start, stop, rest)) :
    Numeral.Signed start ∧ Numeral.Signed stop ∧ ∃ a b : List Char, a.all Text.isBlank = true ∧
      b.all Text.isBlank = true ∧ text = start ++ (a ++ '-' :: (b ++ (stop ++ rest))) := by
  unfold bounds? at h
  obtain ⟨⟨s, left⟩, first, h⟩ := Option.bind_eq_some_iff.1 h
  dsimp only at h
  split at h
  · next after minus =>
    obtain ⟨⟨e, left'⟩, second, h⟩ := Option.bind_eq_some_iff.1 h
    cases h
    obtain ⟨hs, rfl⟩ := Numeral.of_signed? first
    obtain ⟨he, onward⟩ := Numeral.of_signed? second
    obtain ⟨a, ha, gap⟩ := Text.exists_blank_append left
    obtain ⟨b, hb, gap'⟩ := Text.exists_blank_append after
    refine ⟨hs, he, a, b, ha, hb, ?_⟩
    rw [← onward, ← gap', ← minus, ← gap]
  · cases h

/-! ### Reading a step -/

/-- Whether a sign comes first, and what follows it or the blanks after it. -/
def afterSign (sign : Char) (text : List Char) : Bool × List Char :=
  if text.head? = some sign then (true, Text.skipBlank text.tail) else (false, text)

theorem afterSign_cases (sign : Char) (text : List Char) :
    (∃ rest, text = sign :: rest ∧ afterSign sign text = (true, Text.skipBlank rest)) ∨
      (∀ rest, text = sign :: rest → False) ∧ afterSign sign text = (false, text) := by
  by_cases first : text.head? = some sign
  · obtain ⟨rest, rfl⟩ := List.head?_eq_some_iff.1 first
    exact .inl ⟨rest, rfl, if_pos first⟩
  · exact .inr ⟨fun rest same => first (by rw [same]; rfl), if_neg first⟩

theorem step?_eq (text : List Char) : step? text =
    (Numeral.unsigned? (afterSign '-' (afterSign '+' (Text.skipBlank text)).2).2).bind fun read =>
      if Text.skipBlank read.2 = [')'] then
        some ((afterSign '-' (afterSign '+' (Text.skipBlank text)).2).1, read.1)
      else none := by
  rcases afterSign_cases '+' (Text.skipBlank text) with ⟨rest, plus, after⟩ | ⟨noPlus, after⟩
  · rcases afterSign_cases '-' (Text.skipBlank rest) with ⟨rest', minus, after'⟩ | ⟨noMinus, after'⟩
    · rw [after, after']
      simp only [step?, plus, minus]
      cases Numeral.unsigned? _ <;> rfl
    · rw [after, after']
      simp only [step?, plus]
      cases Numeral.unsigned? _ <;> rfl
  · rcases afterSign_cases '-' (Text.skipBlank text) with ⟨rest', minus, after'⟩ | ⟨noMinus, after'⟩
    · rw [after, after']
      simp only [step?]
      simp only [minus]
      cases Numeral.unsigned? _ <;> rfl
    · rw [after, after']
      simp only [step?]
      cases Numeral.unsigned? _ <;> rfl

theorem afterSign_mark (sign : Char) {there : Bool} {a b rest : List Char} (solid : Text.isBlank sign = false)
    (ha : a.all Text.isBlank = true) (hb : b.all Text.isBlank = true)
    (first : (Text.skipBlank rest).head? ≠ some sign) :
    afterSign sign (Text.skipBlank (a ++ (mark sign there ++ (b ++ rest)))) = (there, Text.skipBlank rest) := by
  rw [Text.skipBlank_append ha]
  cases there with
  | false =>
    rw [mark, if_neg Bool.false_ne_true, List.nil_append, Text.skipBlank_append hb]
    exact if_neg first
  | true =>
    have here : Text.skipBlank ([sign] ++ (b ++ rest)) = [sign] ++ (b ++ rest) :=
      Text.skipBlank_of_not_blank (List.cons_ne_nil _ _) (List.forall_mem_singleton.2 solid) _
    rw [mark, if_pos rfl, here, ← Text.skipBlank_append hb rest]
    exact if_pos rfl

theorem exists_mark (sign : Char) (text : List Char) : ∃ gap : List Char, gap.all Text.isBlank = true ∧
    text = mark sign (afterSign sign text).1 ++ (gap ++ (afterSign sign text).2) := by
  rcases afterSign_cases sign text with ⟨rest, rfl, after⟩ | ⟨-, after⟩
  · obtain ⟨gap, blank, parts⟩ := Text.exists_blank_append rest
    refine ⟨gap, blank, ?_⟩
    rw [after, ← parts]
    rfl
  · exact ⟨[], rfl, by rw [after]; rfl⟩

theorem step?_append {down plus : Bool} {step b c d e : List Char} (numeral : Numeral.Unsigned step)
    (hb : b.all Text.isBlank = true) (hc : c.all Text.isBlank = true) (hd : d.all Text.isBlank = true)
    (he : e.all Text.isBlank = true) :
    step? (b ++ (mark '+' plus ++ (c ++ (mark '-' down ++ (d ++ (step ++ (e ++ [')']))))))) =
      some (down, step) := by
  have here : Text.skipBlank (step ++ (e ++ [')'])) = step ++ (e ++ [')']) :=
    Text.skipBlank_of_not_blank numeral.ne_nil numeral.not_blank _
  have close : Text.skipBlank (e ++ [')']) = [')'] := Text.skipBlank_append he _
  have read : Numeral.unsigned? (step ++ (e ++ [')'])) = some (step, e ++ [')']) :=
    Numeral.unsigned?_append numeral (.blank_append he (.of_char (by decide)))
  have first : ∀ sign : Char, Text.isDigit sign = false → sign ≠ '.' →
      (step ++ (e ++ [')'])).head? ≠ some sign := by
    obtain ⟨y, ys, rfl, start⟩ := numeral.exists_cons
    rintro sign digit point same
    obtain rfl : y = sign := Option.some.inj same
    rcases start with start | start
    · rw [digit] at start
      cases start
    · exact point start
  have minus : afterSign '-' (Text.skipBlank (mark '-' down ++ (d ++ (step ++ (e ++ [')']))))) =
      (down, step ++ (e ++ [')'])) := by
    have sign : afterSign '-' (Text.skipBlank ([] ++ (mark '-' down ++ (d ++ (step ++ (e ++ [')'])))))) = _ :=
      afterSign_mark '-' (by decide) rfl hd (here.symm ▸ first '-' (by decide) (by decide))
    rwa [here] at sign
  -- What follows the plus starts with a minus or with the step.
  have noPlus : (Text.skipBlank (mark '-' down ++ (d ++ (step ++ (e ++ [')']))))).head? ≠ some '+' := by
    cases down with
    | true => exact fun h => by cases h
    | false =>
      rw [mark, if_neg Bool.false_ne_true, List.nil_append, Text.skipBlank_append hd, here]
      exact first '+' (by decide) (by decide)
  rw [step?_eq, afterSign_mark '+' (by decide) hb hc noPlus, minus, read, Option.bind_some, if_pos close]

theorem of_step? {text step : List Char} {down : Bool} (h : step? text = some (down, step)) :
    Numeral.Unsigned step ∧ ∃ (plus : Bool) (b c d e : List Char), b.all Text.isBlank = true ∧
      c.all Text.isBlank = true ∧ d.all Text.isBlank = true ∧ e.all Text.isBlank = true ∧
      text = b ++ (mark '+' plus ++ (c ++ (mark '-' down ++ (d ++ (step ++ (e ++ [')'])))))) := by
  rw [step?_eq] at h
  obtain ⟨⟨n, left⟩, read, h⟩ := Option.bind_eq_some_iff.1 h
  obtain ⟨b, hb, start⟩ := Text.exists_blank_append text
  obtain ⟨c, hc, plus⟩ := exists_mark '+' (Text.skipBlank text)
  obtain ⟨d, hd, minus⟩ := exists_mark '-' (afterSign '+' (Text.skipBlank text)).2
  split at h
  · next close =>
    cases h
    obtain ⟨numeral, parts⟩ := Numeral.of_unsigned? read
    obtain ⟨e, he, bracket⟩ := Text.exists_blank_append left
    rw [close] at bracket
    refine ⟨numeral, (afterSign '+' (Text.skipBlank text)).1, b, c, d, e, hb, hc, hd, he, ?_⟩
    rw [← bracket, ← parts, ← minus, ← plus, ← start]
  · cases h

/-! ### Reading a count -/

theorem count?_append {count b c : List Char} (some : count ≠ []) (digits : count.all Text.isDigit = true)
    (hb : b.all Text.isBlank = true) (hc : c.all Text.isBlank = true) :
    count? (b ++ (count ++ (c ++ [']']))) = .some count := by
  have numeral : Numeral.Unsigned count := .whole some digits
  have here : Text.skipBlank (b ++ (count ++ (c ++ [']']))) = count ++ (c ++ [']']) := by
    rw [Text.skipBlank_append hb, Text.skipBlank_of_not_blank numeral.ne_nil numeral.not_blank]
  have stop : Numeral.Ends (c ++ [']']) := .blank_append hc (.of_char (by decide))
  obtain ⟨taken, left⟩ := Text.span_append (List.all_eq_true.1 digits) fun d hd => (stop d hd).1
  have close : Text.skipBlank (c ++ [']']) = [']'] := Text.skipBlank_append hc _
  unfold count?
  simp only [here, taken, left]
  exact if_pos ⟨some, close⟩

theorem of_count? {text count : List Char} (h : count? text = some count) :
    count ≠ [] ∧ count.all Text.isDigit = true ∧ ∃ b c : List Char, b.all Text.isBlank = true ∧
      c.all Text.isBlank = true ∧ text = b ++ (count ++ (c ++ [']'])) := by
  unfold count? at h
  dsimp only at h
  split at h
  · next parts =>
    obtain ⟨some, close⟩ := parts
    cases h
    obtain ⟨b, hb, start⟩ := Text.exists_blank_append text
    obtain ⟨c, hc, bracket⟩ := Text.exists_blank_append ((Text.skipBlank text).dropWhile Text.isDigit)
    rw [close] at bracket
    refine ⟨some, List.all_takeWhile, b, c, hb, hc, ?_⟩
    rw [← bracket, List.takeWhile_append_dropWhile, ← start]
  · cases h

end RangeForm

namespace RangeTail

/-! ### Reading a tail -/

def ofText? (text : List Char) : Option RangeTail :=
  if text = [] then some .bare
  else match Text.skipBlank text with
    | '(' :: inner => (RangeForm.step? inner).map fun read => .stepped read.1 read.2
    | '[' :: inner => (RangeForm.count? inner).map .counted
    | _ => none

theorem ofText?_of_bracket {text inner : List Char} {bracket : Char}
    (h : Text.skipBlank text = bracket :: inner) : text ≠ [] := by
  rintro rfl
  cases h

theorem Spells.read {tail : RangeTail} {text : List Char} (h : tail.Spells text) : ofText? text = some tail := by
  cases h with
  | bare => rfl
  | @stepped plus down step a b c d e numeral ha hb hc hd he =>
    have opened : Text.skipBlank (a ++ '(' :: (b ++ (Text.mark '+' plus ++ (c ++ (Text.mark '-' down ++
        (d ++ (step ++ (e ++ [')']))))))))  = '(' :: _ := Text.skipBlank_append ha _
    rw [ofText?, if_neg (ofText?_of_bracket opened), opened]
    exact congrArg (Option.map _) (RangeForm.step?_append numeral hb hc hd he)
  | @counted count a b c some digits ha hb hc =>
    have opened : Text.skipBlank (a ++ '[' :: (b ++ (count ++ (c ++ [']'])))) = '[' :: _ :=
      Text.skipBlank_append ha _
    rw [ofText?, if_neg (ofText?_of_bracket opened), opened]
    exact congrArg (Option.map _) (RangeForm.count?_append some digits hb hc)

theorem spells_of_read {tail : RangeTail} {text : List Char} (h : ofText? text = some tail) :
    tail.Spells text := by
  obtain ⟨a, ha, parts⟩ := Text.exists_blank_append text
  unfold ofText? at h
  split at h
  · next empty =>
    cases h
    exact empty ▸ .bare
  · split at h
    · next inner opened =>
      obtain ⟨⟨down, step⟩, read, rfl⟩ := Option.map_eq_some_iff.1 h
      obtain ⟨numeral, plus, b, c, d, e, hb, hc, hd, he, rfl⟩ := RangeForm.of_step? read
      rw [parts, opened]
      exact .stepped plus numeral ha hb hc hd he
    · next inner opened =>
      obtain ⟨count, read, rfl⟩ := Option.map_eq_some_iff.1 h
      obtain ⟨some, digits, b, c, hb, hc, rfl⟩ := RangeForm.of_count? read
      rw [parts, opened]
      exact .counted some digits ha hb hc
    · cases h

end RangeTail

namespace RangeParts

/-- A text that has just these parts, with blanks around the minus between the bounds. -/
def Spells (parts : RangeParts) (text : List Char) : Prop :=
  Numeral.Signed parts.start ∧ Numeral.Signed parts.stop ∧
    ∃ a b rest : List Char, a.all Text.isBlank = true ∧ b.all Text.isBlank = true ∧ parts.tail.Spells rest ∧
      text = parts.start ++ (a ++ '-' :: (b ++ (parts.stop ++ rest)))

/-- The form that the parts make up. Bounds alone are a range only if neither has a point. -/
def form : RangeParts → RangeForm
  | ⟨start, stop, .stepped down step⟩ => .stepped start stop down step
  | ⟨start, stop, .counted count⟩ => .counted start stop count
  | ⟨start, stop, .bare⟩ => if start.isInteger && stop.isInteger then .integers start stop else .decimals

def plain (parts : RangeParts) : List Char := parts.start ++ '-' :: (parts.stop ++ parts.tail.plain)

variable {p q : RangeParts} {text : List Char}

/-! ### The reader and the grammar -/

theorem Spells.bounds (h : p.Spells text) :
    ∃ rest, RangeForm.bounds? text = some (p.start, p.stop, rest) ∧ RangeTail.ofText? rest = some p.tail := by
  obtain ⟨hs, he, a, b, rest, ha, hb, tail, rfl⟩ := h
  exact ⟨rest, RangeForm.bounds?_append hs he ha hb tail.ends, tail.read⟩

theorem Spells.unique (hp : p.Spells text) (hq : q.Spells text) : p = q := by
  obtain ⟨rest, bounds, tail⟩ := hp.bounds
  obtain ⟨rest', bounds', tail'⟩ := hq.bounds
  obtain ⟨start, stop, tail⟩ := p
  obtain ⟨start', stop', tail'⟩ := q
  cases bounds.symm.trans bounds'
  congr 1
  exact Option.some.inj (tail.symm.trans tail')

theorem Spells.form_eq (h : p.Spells text) : RangeForm.ofText? text = some p.form := by
  obtain ⟨rest, bounds, tail⟩ := h.bounds
  obtain ⟨start, stop, parts⟩ := p
  rw [RangeForm.ofText?, bounds]
  unfold RangeTail.ofText? at tail
  dsimp only [Option.bind_eq_bind, Option.bind_some] at tail ⊢
  split at tail
  · next empty =>
    cases tail
    rw [if_pos empty]
    rfl
  · next more =>
    rw [if_neg more]
    split at tail
    · obtain ⟨⟨down, step⟩, read, rfl⟩ := Option.map_eq_some_iff.1 tail
      simp only [*]
      rfl
    · obtain ⟨count, read, rfl⟩ := Option.map_eq_some_iff.1 tail
      simp only [*]
      rfl
    · cases tail

theorem exists_spells {form : RangeForm} (h : RangeForm.ofText? text = some form)
    (sound : form ≠ .badStep) : ∃ parts : RangeParts, parts.Spells text ∧ parts.form = form := by
  unfold RangeForm.ofText? at h
  obtain ⟨⟨start, stop, rest⟩, bounds, after⟩ := Option.bind_eq_some_iff.1 h
  obtain ⟨hs, he, a, b, ha, hb, rfl⟩ := RangeForm.of_bounds? bounds
  -- It remains to name the tail that was read.
  suffices ∃ tail, RangeTail.ofText? rest = some tail ∧ RangeParts.form ⟨start, stop, tail⟩ = form by
    obtain ⟨tail, read, same⟩ := this
    exact ⟨⟨start, stop, tail⟩, ⟨hs, he, a, b, rest, ha, hb, RangeTail.spells_of_read read, rfl⟩, same⟩
  unfold RangeTail.ofText?
  dsimp only at after
  split at after
  · next empty =>
    cases after
    exact ⟨.bare, if_pos empty, rfl⟩
  · next more =>
    rw [if_neg more]
    split at after
    · split at after
      · next down step read =>
        cases after
        exact ⟨.stepped down step, by simp only [*, Option.map_some], rfl⟩
      · split at after
        · cases after
          exact absurd rfl sound
        · cases after
    · obtain ⟨count, read, rfl⟩ := Option.map_eq_some_iff.1 after
      exact ⟨.counted count, by simp only [*, Option.map_some], rfl⟩
    · cases after

/-! ### Blanks and the plainest spelling -/

theorem Spells.plain (h : p.Spells text) : p.Spells p.plain := by
  obtain ⟨hs, he, a, b, rest, -, -, tail, -⟩ := h
  exact ⟨hs, he, [], [], p.tail.plain, rfl, rfl, tail.plain, rfl⟩

theorem Spells.trim (h : p.Spells text) {before after : List Char} (hb : before.all Text.isBlank = true)
    (ha : after.all Text.isBlank = true) : Text.trimChars (before ++ (text ++ after)) = text := by
  obtain ⟨hs, he, a, b, rest, -, -, tail, rfl⟩ := h
  refine Text.trimChars_append hb ha (fun c hc => ?_) (fun c hc => ?_) (by simp)
  · rw [List.head?_append_of_ne_nil _ hs.ne_nil] at hc
    exact hs.not_blank c (List.mem_of_mem_head? hc)
  · have parts : p.start ++ (a ++ '-' :: (b ++ (p.stop ++ rest))) =
        (p.start ++ (a ++ '-' :: b)) ++ (p.stop ++ rest) := by simp
    rw [parts, List.getLast?_append_of_ne_nil _ (List.append_ne_nil_of_left_ne_nil he.ne_nil _),
      List.getLast?_append, Option.mem_def, Option.or_eq_some_iff] at hc
    rcases hc with hc | ⟨-, hc⟩
    · exact tail.last c hc
    · exact he.not_blank c (List.mem_of_getLast? hc)

end RangeParts

namespace Row

theorem ofText_of_form {text : String} {form : RangeForm}
    (read : RangeForm.ofText? (Text.trimChars text.toList) = some form) :
    ofText text = ⟨(Expansion.ofForm form).values,
      (Expansion.ofForm form).problem.map fun p => ⟨p, String.ofList (Text.trimChars text.toList)⟩⟩ := by
  have visible : Text.trimChars text.toList ≠ [] := by
    intro empty
    rw [empty] at read
    cases read
  unfold ofText
  simp only [if_neg visible, read]

/-- The same values, and the same kind of warning or none. -/
def Alike (row other : Row) : Prop :=
  row.values = other.values ∧ row.warning.map (·.problem) = other.warning.map (·.problem)

theorem ofText_of_spells {parts : RangeParts} {text before after : List Char} (spelt : parts.Spells text)
    (hb : before.all Text.isBlank = true) (ha : after.all Text.isBlank = true) :
    ofText (String.ofList (before ++ (text ++ after))) = ⟨(Expansion.ofForm parts.form).values,
      (Expansion.ofForm parts.form).problem.map fun p => ⟨p, String.ofList text⟩⟩ := by
  have trimmed : Text.trimChars (String.ofList (before ++ (text ++ after))).toList = text := by
    rw [String.toList_ofList, spelt.trim hb ha]
  rw [ofText_of_form (trimmed.symm ▸ spelt.form_eq), trimmed]

theorem alike_plain {parts : RangeParts} {text before after : List Char} (spelt : parts.Spells text)
    (hb : before.all Text.isBlank = true) (ha : after.all Text.isBlank = true) :
    Alike (ofText (String.ofList (before ++ (text ++ after)))) (ofText (String.ofList parts.plain)) := by
  have plain := ofText_of_spells spelt.plain (List.all_nil (f := Text.isBlank)) (List.all_nil (f := Text.isBlank))
  rw [List.nil_append, List.append_nil] at plain
  rw [ofText_of_spells spelt hb ha, plain]
  refine ⟨rfl, ?_⟩
  simp only [Option.map_map]
  rfl

/-- The range grammar: a text spells the parts of at most one range, the reader finds a range just where there are such
    parts, blanks and a plus change neither the values nor the kind of warning, a minus that comes directly before the
    second bound is its own, and a plus before the minus of a step does not matter. -/
theorem range_spellings_agree :
    (∀ {p q : RangeParts} {text : List Char}, p.Spells text → q.Spells text → p = q) ∧
      (∀ {form : RangeForm} {text : List Char}, form ≠ .badStep →
        (RangeForm.ofText? text = some form ↔ ∃ p : RangeParts, p.Spells text ∧ p.form = form)) ∧
      (∀ {p : RangeParts} {text before after : List Char}, p.Spells text → before.all Text.isBlank = true →
        after.all Text.isBlank = true →
          Alike (ofText (String.ofList (before ++ (text ++ after)))) (ofText (String.ofList p.plain))) ∧
      (∀ {p : RangeParts} {s e a b rest : List Char}, Numeral.Signed s → Numeral.Unsigned e →
        a.all Text.isBlank = true → b.all Text.isBlank = true → Numeral.Ends rest →
          p.Spells (s ++ (a ++ '-' :: (b ++ ('-' :: e ++ rest)))) → p.start = s ∧ p.stop = '-' :: e) ∧
      ∀ {s e u : List Char}, Numeral.Signed s → Numeral.Signed e → Numeral.Unsigned u →
        (⟨s, e, .stepped true u⟩ : RangeParts).Spells (s ++ '-' :: (e ++ " (+-".toList ++ u ++ [')'])) ∧
          (⟨s, e, .stepped true u⟩ : RangeParts).plain = s ++ '-' :: (e ++ " (-".toList ++ u ++ [')']) := by
  refine ⟨RangeParts.Spells.unique, fun sound => ⟨fun read => RangeParts.exists_spells read sound, ?_⟩,
    alike_plain, ?_, ?_⟩
  · rintro ⟨p, spelt, rfl⟩
    exact spelt.form_eq
  · rintro ⟨start, stop, tail⟩ s e a b rest hs he ha hb ends spelt
    obtain ⟨left, bounds, -⟩ := spelt.bounds
    cases bounds.symm.trans (RangeForm.bounds?_append hs (.minus he) ha hb ends)
    exact ⟨rfl, rfl⟩
  · intro s e u hs he hu
    refine ⟨⟨hs, he, [], [], " (+-".toList ++ (u ++ [')']), rfl, rfl, ?_, by simp⟩, by
      simp [RangeParts.plain, RangeTail.plain, Text.mark]⟩
    exact .stepped true (a := [' ']) (b := []) (c := []) (d := []) (e := []) hu
      rfl rfl rfl rfl rfl

theorem range_spellings_agree_down :
    (⟨['5'], ['-', '1'], .stepped true ['2']⟩ : RangeParts).Spells "5 - -1 ( + - 2 )".toList ∧
      Alike (ofText " 5 - -1 ( + - 2 )\n") (ofText "5--1 (-2)") ∧
      (ofText "5--1 (-2)").values = [5, 3, 1, -1].map fun k => .number (.ofInt k) := by
  have two : Numeral.Unsigned ['2'] := .whole (by decide) (by decide)
  have blank : [' '].all Text.isBlank = true := by decide
  have tail : (RangeTail.stepped true ['2']).Spells " ( + - 2 )".toList :=
    .stepped true two blank blank blank blank blank
  have spelt : (⟨['5'], ['-', '1'], .stepped true ['2']⟩ : RangeParts).Spells "5 - -1 ( + - 2 )".toList :=
    ⟨.plain (.whole (by decide) (by decide)), .minus (.whole (by decide) (by decide)), [' '], [' '], _, blank, blank,
      tail, rfl⟩
  have alike := range_spellings_agree.2.2.1 spelt blank (show ['\n'].all Text.isBlank = true by decide)
  have text : String.ofList ([' '] ++ ("5 - -1 ( + - 2 )".toList ++ ['\n'])) = " 5 - -1 ( + - 2 )\n" := by decide
  have plain : String.ofList (RangeParts.plain ⟨['5'], ['-', '1'], .stepped true ['2']⟩) = "5--1 (-2)" := by decide
  rw [text, plain] at alike
  exact ⟨spelt, alike, by decide +kernel⟩

end Row

end SettingsSweep
