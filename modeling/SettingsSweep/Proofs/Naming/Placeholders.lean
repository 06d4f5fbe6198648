import SettingsSweep.Proofs.Naming.Duplicates
import SettingsSweep.Proofs.Naming.Separators

/-!
Placeholders as they are listed and as they are filled. A template splits in one way into characters and placeholders; the
known and the unknown names are those of its placeholders, and a rendering replaces just the known ones, so that it is
told by their texts.
-/

set_option autoImplicit false

namespace SettingsSweep

theorem Listed.filter {place : Nat → String → Prop} {listed : List String} (h : Listed place listed)
    (p : String → Bool) : Listed (fun i name => place i name ∧ p name = true) (listed.filter p) := by
  refine ⟨h.nodup.filter p, fun name => ?_, ?_⟩
  · rw [List.mem_filter, h.mem_iff]
    constructor
    · rintro ⟨⟨i, hi⟩, hp⟩
      exact ⟨i, hi, hp⟩
    · rintro ⟨i, hi, hp⟩
      exact ⟨⟨i, hi⟩, hp⟩
  · rw [List.pairwise_filter]
    refine h.ordered.imp ?_
    rintro a b ⟨i, hi, before⟩ pa -
    exact ⟨i, ⟨hi, pa⟩, fun j hj => before j hj.1⟩

namespace Template

theorem distinctNames_concat (names : List String) (last : String) : distinctNames (names ++ [last]) =
    if last ∈ distinctNames names then distinctNames names else distinctNames names ++ [last] := by
  unfold distinctNames
  rw [List.foldl_append]
  simp only [List.foldl_cons, List.foldl_nil, List.mem_reverse]
  split
  · rfl
  · exact List.reverse_cons

theorem distinctNames_filter (p : String → Bool) (names : List String) :
    distinctNames (names.filter p) = (distinctNames names).filter p := by
  induction names using List.reverseRecOn with
  | nil => rfl
  | append_singleton names last ih =>
    rw [List.filter_append, distinctNames_concat]
    cases wanted : p last with
    | false =>
      rw [List.filter_cons_of_neg (by simp [wanted]), List.filter_nil, List.append_nil, ih]
      split
      · rfl
      · rw [List.filter_append, List.filter_cons_of_neg (by simp [wanted]), List.filter_nil, List.append_nil]
    | true =>
      rw [List.filter_cons_of_pos wanted, List.filter_nil, distinctNames_concat, ih]
      simp only [List.mem_filter, wanted, and_true]
      split
      · rfl
      · rw [List.filter_append, List.filter_cons_of_pos wanted, List.filter_nil]

theorem piece_name?_eq_some {p : Piece} {name : String} :
    p.name? = some name ↔ p = .placeholder name.toList := by
  cases p with
  | char c => simp [Piece.name?]
  | placeholder chars =>
    simp only [Piece.name?, Option.some.injEq, Piece.placeholder.injEq]
    constructor
    · rintro rfl
      exact String.toList_ofList.symm
    · rintro rfl
      exact String.ofList_toList

theorem listed_distinctNames (ps : List Piece) :
    Listed (fun i name => ps[i]? = some (.placeholder name.toList)) (distinctNames (ps.filterMap Piece.name?)) := by
  induction ps using List.reverseRecOn with
  | nil => exact .empty fun i name => by simp
  | append_singleton ps p ih =>
    have bound : ∀ i name, ps[i]? = some (.placeholder (String.toList name)) → i < ps.length :=
      fun i name hi => (List.getElem?_eq_some_iff.1 hi).1
    rw [List.filterMap_append]
    cases hp : p.name? with
    | none =>
      rw [List.filterMap_cons_none hp, List.filterMap_nil, List.append_nil]
      refine ih.congr fun i name => ?_
      have other : some p ≠ some (.placeholder name.toList) := fun same => by
        rw [piece_name?_eq_some.2 (Option.some.inj same)] at hp
        cases hp
      grind
    | some last =>
      rw [List.filterMap_cons_some hp, List.filterMap_nil, distinctNames_concat]
      refine (ih.concat bound last).congr fun i name => ?_
      have same : some p = some (.placeholder name.toList) ↔ name = last := by
        rw [Option.some.injEq, ← piece_name?_eq_some, hp, Option.some.injEq, eq_comm]
      grind

/-- The text of a piece where the placeholders named in `names` stand for variables. Any other piece stays as it is
    written. -/
inductive Piece.Reads (names : List String) (texts : Variable → String) : Piece → List Char → Prop
  | char (c : Char) : Reads names texts (.char c) [c]
  | replaced {name : List Char} {v : Variable} (listed : String.ofList name ∈ names)
      (found : Variable.ofName? (String.ofList name) = some v) :
      Reads names texts (.placeholder name) (texts v).toList
  | kept {name : List Char} (unlisted : String.ofList name ∉ names) :
      Reads names texts (.placeholder name) ('\x7b' :: (name ++ ['\x7d']))

theorem known_eq (template : String) : known template =
    (distinctNames ((pieces template).filterMap Piece.name?)).filter fun name => (Variable.ofName? name).isSome := by
  rw [known, scan_eq, distinctNames_filter]
  exact List.filter_congr fun name _ => by simp only [mem_knownNames, Bool.decide_eq_true]

theorem unknown_eq (template : String) : unknown template =
    (distinctNames ((pieces template).filterMap Piece.name?)).filter fun name => (Variable.ofName? name).isNone := by
  rw [unknown, scan_eq, distinctNames_filter]
  refine List.filter_congr fun name _ => ?_
  rw [Bool.eq_iff_iff, decide_eq_true_iff, mem_knownNames, ← Option.not_isSome, Bool.not_eq_true, Bool.not_eq_true']

theorem mem_known {template name : String} : name ∈ known template ↔
    .placeholder name.toList ∈ pieces template ∧ (Variable.ofName? name).isSome = true := by
  rw [known_eq, List.mem_filter, (listed_distinctNames _).mem_iff, List.mem_iff_getElem?]

theorem mem_unknown {template name : String} : name ∈ unknown template ↔
    .placeholder name.toList ∈ pieces template ∧ (Variable.ofName? name).isNone = true := by
  rw [unknown_eq, List.mem_filter, (listed_distinctNames _).mem_iff, List.mem_iff_getElem?]

theorem reads_fill {template : String} {p : Piece} (hp : p ∈ pieces template) (texts : Variable → String) :
    p.Reads (known template) texts (p.fill texts) := by
  cases p with
  | char c => exact .char c
  | placeholder name =>
    have listed : String.ofList name ∈ known template ↔ (Variable.ofName? (String.ofList name)).isSome = true := by
      rw [mem_known, String.toList_ofList]
      exact and_iff_right hp
    change _ ↔ (Piece.placeholder name).slot?.isSome = true at listed
    cases found : (Piece.placeholder name).slot? with
    | none =>
      rw [Piece.fill_of_none found]
      exact .kept (by rw [listed, found]; decide)
    | some v =>
      rw [Piece.fill_of_some found]
      exact .replaced (by rw [listed, found]; rfl) found

theorem forall₂_reads_fill {ps : List Piece} {names : List String} {texts : Variable → String}
    (h : ∀ p ∈ ps, p.Reads names texts (p.fill texts)) :
    List.Forall₂ (Piece.Reads names texts) ps (ps.map (Piece.fill texts)) := by
  induction ps with
  | nil => exact .nil
  | cons p ps ih => exact .cons (h p List.mem_cons_self) (ih fun q hq => h q (List.mem_cons_of_mem _ hq))

theorem mem_slots_iff {template : String} {v : Variable} :
    v ∈ slots template ↔ ∃ name ∈ known template, Variable.ofName? name = some v := by
  rw [mem_slots]
  constructor
  · rintro ⟨p, hp, hv⟩
    cases p with
    | char c => cases hv
    | placeholder name =>
      refine ⟨String.ofList name, mem_known.2 ⟨?_, ?_⟩, hv⟩
      · rw [String.toList_ofList]
        exact hp
      · rw [show Variable.ofName? (String.ofList name) = some v from hv]
        rfl
  · rintro ⟨name, listed, hv⟩
    refine ⟨_, (mem_known.1 listed).1, ?_⟩
    change Variable.ofName? (String.ofList name.toList) = some v
    rw [String.ofList_toList, hv]

end Template

namespace FileName

open Template

/-- Every variable of a combination but the time is made of letters, digits, underscores, dots and hyphens. -/
theorem safe_of_mem_variableText {now : Instant} {values : AxisName → Option AxisValue} {settings : Document}
    {options : NamingOptions} {v : Variable} (other : v ≠ .timestring) {c : Char}
    (h : c ∈ (variableText (combinationContext now values) settings options v).toList) :
    c.isAlphanum = true ∨ c = '_' ∨ c = '.' ∨ c = '-' := by
  have missing : c ∈ "none".toList → c.isAlphanum = true ∨ c = '_' ∨ c = '.' ∨ c = '-' := by
    have all : "none".toList.all Char.isAlphanum = true := by decide
    exact fun hc => .inl (List.all_eq_true.1 all c hc)
  have setting : ∀ value : Option Json, c ∈ (sanitizeSetting value).toList →
      c.isAlphanum = true ∨ c = '_' ∨ c = '.' ∨ c = '-' := by
    intro value hc
    unfold sanitizeSetting at hc
    split at hc
    · exact missing hc
    · exact missing hc
    · exact safe_of_mem_sanitize hc
    · exact safe_of_mem_sanitize hc
  cases v with
  | timestring => exact absurd rfl other
  | filename => exact safe_of_mem_sanitize h
  | param axis =>
    simp only [variableText, combinationContext] at h
    split at h
    · exact safe_of_mem_sanitize h
    · exact missing h
  | value axis =>
    simp only [variableText, combinationContext] at h
    split at h
    · exact safe_of_mem_sanitize h
    · exact missing h
  | _ => exact setting _ h

/-- The listing of a template tells all of its renderings. The template splits in one way; the listed names are those of its
    placeholders, each once, by their first uses. A rendering, of a combination or of a preview, puts the texts of the known
    ones in their places in one pass, leaves the rest as it is and ends in the extension. Two renderings in which the known
    names read alike differ by their extensions only. -/
theorem listing_tells_rendering (template : String) :
    ∃ ps, (∀ qs, Splits template.toList qs ↔ qs = ps) ∧
      Listed (fun i name => ps[i]? = some (.placeholder name.toList) ∧ (Variable.ofName? name).isSome = true)
        (known template) ∧
      Listed (fun i name => ps[i]? = some (.placeholder name.toList) ∧ (Variable.ofName? name).isNone = true)
        (unknown template) ∧
      (known template ++ unknown template).Nodup ∧
      (∀ name, name ∈ known template ++ unknown template ↔ .placeholder name.toList ∈ ps) ∧
      (∀ (context : Context) (settings : Document) (options : NamingOptions), ∃ parts : List (List Char),
        List.Forall₂ (Piece.Reads (known template) (variableText context settings options)) ps parts ∧
          ofTemplate template context settings options = String.ofList parts.flatten ++ options.extension) ∧
      (∀ (now : Instant) (values : AxisName → Option AxisValue) (settings : Document) (options : NamingOptions),
        ∀ v ≠ Variable.timestring, ∀ c ∈ (variableText (combinationContext now values) settings options v).toList,
          c.isAlphanum = true ∨ c = '_' ∨ c = '.' ∨ c = '-') ∧
      ∀ (context context' : Context) (settings settings' : Document) (options options' : NamingOptions),
        (∀ name ∈ known template, ∀ v, Variable.ofName? name = some v →
          variableText context settings options v = variableText context' settings' options' v) →
        (ofTemplate template context settings options = ofTemplate template context' settings' options' ↔
          options.extension = options'.extension) := by
  have listed := listed_distinctNames (pieces template)
  refine ⟨pieces template, fun qs => splits_iff, known_eq template ▸ listed.filter _,
    unknown_eq template ▸ listed.filter _, ?_, fun name => ?_,
    fun context settings options => ?_, fun now values settings options v other c hc => safe_of_mem_variableText other hc,
    fun context context' settings settings' options options' agree => ?_⟩
  · refine List.nodup_append.2 ⟨known_eq template ▸ listed.nodup.filter _,
      unknown_eq template ▸ listed.nodup.filter _, ?_⟩
    rintro name here _ there rfl
    have some := (mem_known.1 here).2
    rw [Option.isNone_iff_eq_none.1 (mem_unknown.1 there).2] at some
    cases some
  · rw [List.mem_append, mem_known, mem_unknown, ← and_or_left]
    refine and_iff_left ?_
    cases Variable.ofName? name <;> simp
  · refine ⟨(pieces template).map (Piece.fill (variableText context settings options)),
      forall₂_reads_fill fun p hp => reads_fill hp _, ?_⟩
    rw [ofTemplate, fill_eq, List.flatMap]
  · have same : fill template (variableText context settings options) =
        fill template (variableText context' settings' options') := by
      refine fill_congr fun v hv => ?_
      obtain ⟨name, hn, found⟩ := mem_slots_iff.1 hv
      exact agree name hn v found
    rw [ofTemplate, ofTemplate, same]
    exact String.append_right_inj _

/-- Brackets that are doubled, left open or put around another name stay. The sampler is not used. -/
def bracedTemplate : String := "\x7bseed\x7d_\x7bnope\x7d_\x7b\x7bw\x7d\x7bseed\x7d\x7bx"

def euler : Document := [("seed", .str "5/7"), ("sampler", .str "euler")]

def heun : Document := [("sampler", .str "heun"), ("seed", .str "5/7")]

theorem listing_tells_rendering_braced :
    known bracedTemplate = ["seed", "w"] ∧ unknown bracedTemplate = ["nope"] ∧
      (∃ ps, Splits bracedTemplate.toList ps ∧ Piece.placeholder ['w'] ∈ ps) ∧
      ofTemplate bracedTemplate ⟨"now", fun _ => "none", fun _ => "none"⟩ euler {} =
        ofTemplate bracedTemplate ⟨"later", fun _ => "none", fun _ => "none"⟩ heun {} := by
  have names : known bracedTemplate = ["seed", "w"] := by decide +kernel
  obtain ⟨ps, split, -, -, -, members, -, -, agree⟩ := listing_tells_rendering bracedTemplate
  refine ⟨names, by decide +kernel, ⟨ps, (split ps).2 rfl, (members "w").1 ?_⟩, ?_⟩
  · rw [names]
    decide
  · refine (agree _ _ _ _ {} {} fun name hn v found => ?_).2 rfl
    rw [names] at hn
    rcases List.mem_pair.1 hn with rfl | rfl
    · obtain rfl : v = .seed := by simpa [Variable.ofName?, Variable.all, Dict.find?] using found.symm
      rfl
    · obtain rfl : v = .width := by simpa [Variable.ofName?, Variable.all, Dict.find?] using found.symm
      rfl

end FileName

end SettingsSweep
