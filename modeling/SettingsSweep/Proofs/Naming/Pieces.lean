import SettingsSweep.Naming.Template
import Mathlib.Data.List.Basic
import Mathlib.Data.List.TakeWhile

/-!
A template splits in one way into characters and placeholders. The loop that lists the names and the loop that replaces
them both follow that split, and both know the same names.
-/

set_option autoImplicit false

namespace SettingsSweep.Template

inductive Piece
  | char (c : Char)
  | placeholder (name : List Char)
  deriving DecidableEq

namespace Piece

def source : Piece → List Char
  | .char c => [c]
  | .placeholder name => '\x7b' :: (name ++ ['\x7d'])

def name? : Piece → Option String
  | .char _ => none
  | .placeholder name => some (String.ofList name)

def slot? : Piece → Option Variable
  | .char _ => none
  | .placeholder name => Variable.ofName? (String.ofList name)

def fill (values : Variable → String) (p : Piece) : List Char :=
  match p.slot? with
  | some v => (values v).toList
  | none => p.source

theorem fill_of_some {p : Piece} {v : Variable} (h : p.slot? = some v)
    (values : Variable → String) : p.fill values = (values v).toList := by
  rw [fill, h]

theorem fill_of_none {p : Piece} (h : p.slot? = none) (values : Variable → String) :
    p.fill values = p.source := by
  rw [fill, h]

theorem fill_congr {p : Piece} {values others : Variable → String}
    (h : ∀ v, p.slot? = some v → values v = others v) : p.fill values = p.fill others := by
  cases hv : p.slot? with
  | none => rw [fill_of_none hv, fill_of_none hv]
  | some v => rw [fill_of_some hv, fill_of_some hv, h v hv]

end Piece

structure IsName (name : List Char) : Prop where
  start : ∃ c ∈ name.head?, isNameStart c = true
  all : ∀ c ∈ name, isNameChar c = true

/-- A placeholder stands at the start of the text. -/
def Opens (text : List Char) : Prop :=
  ∃ name rest, IsName name ∧ text = '\x7b' :: (name ++ '\x7d' :: rest)

/-- Wherever a placeholder starts it is a piece, and every other character is one. -/
inductive Splits : List Char → List Piece → Prop
  | nil : Splits [] []
  | char {c : Char} {text : List Char} {ps : List Piece} (literal : ¬ Opens (c :: text))
      (rest : Splits text ps) : Splits (c :: text) (.char c :: ps)
  | placeholder {name text : List Char} {ps : List Piece} (named : IsName name) (rest : Splits text ps) :
      Splits ('\x7b' :: (name ++ '\x7d' :: text)) (.placeholder name :: ps)

theorem nameAt?_eq_some {text name : List Char} (h : nameAt? text = some name) :
    ∃ rest, text = name ++ '\x7d' :: rest := by
  unfold nameAt? at h
  dsimp only at h
  split at h
  · next c rest head tail =>
    split at h
    · obtain rfl := Option.some.inj h
      refine ⟨rest, ?_⟩
      rw [← tail]
      exact List.takeWhile_append_dropWhile.symm
    · cases h
  · cases h

theorem nameAt?_append {name : List Char} (named : IsName name) (rest : List Char) :
    nameAt? (name ++ '\x7d' :: rest) = some name := by
  have taken : (name ++ '\x7d' :: rest).takeWhile isNameChar = name := by
    rw [List.takeWhile_append_of_pos named.all, List.takeWhile_cons_of_neg (by decide), List.append_nil]
  have left : (name ++ '\x7d' :: rest).dropWhile isNameChar = '\x7d' :: rest := by
    rw [List.dropWhile_append_of_pos named.all, List.dropWhile_cons_of_neg (by decide)]
  obtain ⟨c, head, start⟩ := named.start
  unfold nameAt?
  simp only [taken, left, Option.mem_def.1 head, start, if_true]

theorem isName_of_nameAt? {text name : List Char} (h : nameAt? text = some name) : IsName name := by
  unfold nameAt? at h
  dsimp only at h
  split at h
  · next c rest head tail =>
    split at h
    · next start =>
      obtain rfl := Option.some.inj h
      exact ⟨⟨c, head, start⟩, fun d hd => List.mem_takeWhile_imp hd⟩
    · cases h
  · cases h

theorem opens_cons_iff {c : Char} {text : List Char} :
    Opens (c :: text) ↔ c = '\x7b' ∧ ∃ name, nameAt? text = some name := by
  constructor
  · rintro ⟨name, rest, named, same⟩
    obtain ⟨rfl, rfl⟩ := List.cons.inj same
    exact ⟨rfl, name, nameAt?_append named _⟩
  · rintro ⟨rfl, name, found⟩
    obtain ⟨rest, rfl⟩ := nameAt?_eq_some found
    exact ⟨name, rest, isName_of_nameAt? found, rfl⟩

theorem Splits.unique {text : List Char} {ps qs : List Piece} (h : Splits text ps) (h' : Splits text qs) :
    ps = qs := by
  induction h generalizing qs with
  | nil =>
    cases h'
    rfl
  | @char c text ps literal rest ih =>
    cases h' with
    | char _ rest' => rw [ih rest']
    | placeholder named _ => exact absurd ⟨_, _, named, rfl⟩ literal
  | @placeholder name text ps named rest ih =>
    generalize whole : '\x7b' :: (name ++ '\x7d' :: text) = start at h'
    cases h' with
    | nil => cases whole
    | char literal _ => exact absurd ⟨_, _, named, whole.symm⟩ literal
    | @placeholder name' text' qs named' rest' =>
      -- Both names are the one that is found after the bracket.
      have tails := (List.cons.inj whole).2
      have found := nameAt?_append named text
      rw [tails, nameAt?_append named' text'] at found
      obtain rfl := Option.some.inj found
      obtain rfl := (List.cons.inj (List.append_cancel_left tails)).2
      rw [ih rest']

theorem Splits.flatMap_source {text : List Char} {ps : List Piece} (h : Splits text ps) :
    ps.flatMap Piece.source = text := by
  induction h with
  | nil => rfl
  | char literal rest ih =>
    rw [List.flatMap_cons, ih]
    rfl
  | placeholder named rest ih =>
    rw [List.flatMap_cons, ih]
    simp [Piece.source]

/-- The pieces of a text after its first `skip` characters, which belong to a placeholder. -/
def piecesFrom : Nat → List Char → List Piece
  | _, [] => []
  | skip + 1, _ :: cs => piecesFrom skip cs
  | 0, c :: cs =>
    if c = '\x7b' then
      match nameAt? cs with
      | some name => .placeholder name :: piecesFrom (name.length + 1) cs
      | none => .char c :: piecesFrom 0 cs
    else .char c :: piecesFrom 0 cs

def pieces (template : String) : List Piece := piecesFrom 0 template.toList

theorem splits_piecesFrom (skip : Nat) (text : List Char) : Splits (text.drop skip) (piecesFrom skip text) := by
  fun_induction piecesFrom skip text with
  | case1 skip =>
    rw [List.drop_nil]
    exact .nil
  | case2 skip c cs ih => exact ih
  | case3 cs name found ih =>
    obtain ⟨rest, rfl⟩ := nameAt?_eq_some found
    have after : (name ++ '\x7d' :: rest).drop (name.length + 1) = rest := by simp
    rw [after] at ih
    exact .placeholder (isName_of_nameAt? found) ih
  | case4 cs missing ih =>
    refine .char (fun opens => ?_) ih
    obtain ⟨name, found⟩ := (opens_cons_iff.1 opens).2
    rw [missing] at found
    cases found
  | case5 c cs other ih => exact .char (fun opens => other (opens_cons_iff.1 opens).1) ih

theorem splits_pieces (template : String) : Splits template.toList (pieces template) := splits_piecesFrom 0 _

theorem splits_iff {template : String} {ps : List Piece} :
    Splits template.toList ps ↔ ps = pieces template := by
  constructor
  · exact fun h => h.unique (splits_pieces template)
  · rintro rfl
    exact splits_pieces template

theorem scanFrom_append (skipped text : List Char) : scanFrom skipped.length (skipped ++ text) = scanFrom 0 text := by
  induction skipped with
  | nil => rfl
  | cons c skipped ih => exact ih

theorem substituteFrom_append (text? : String → Option String) (skipped text : List Char) :
    substituteFrom text? skipped.length (skipped ++ text) = substituteFrom text? 0 text := by
  induction skipped with
  | nil => rfl
  | cons c skipped ih => exact ih

namespace Splits

variable {text : List Char} {ps : List Piece}

theorem scanFrom (h : Splits text ps) : scanFrom 0 text = ps.filterMap Piece.name? := by
  induction h with
  | nil => rfl
  | @char c text ps literal rest ih =>
    rw [List.filterMap_cons_none rfl]
    unfold Template.scanFrom
    split
    · next opening =>
      split
      · next name found => exact absurd (opens_cons_iff.2 ⟨opening, name, found⟩) literal
      · exact ih
    · exact ih
  | @placeholder name text ps named rest ih =>
    have after : name ++ '\x7d' :: text = (name ++ ['\x7d']) ++ text := by simp
    have skip : name.length + 1 = (name ++ ['\x7d']).length := by simp
    rw [Template.scanFrom, if_pos rfl, nameAt?_append named]
    dsimp only
    rw [after, skip, scanFrom_append, ih]
    rfl

theorem substituteFrom (h : Splits text ps) (values : Variable → String) :
    substituteFrom (fun name => (Variable.ofName? name).map values) 0 text = ps.flatMap (Piece.fill values) := by
  induction h with
  | nil => rfl
  | @char c text ps literal rest ih =>
    unfold Template.substituteFrom
    split
    · next opening =>
      split
      · next name found => exact absurd (opens_cons_iff.2 ⟨opening, name, found⟩) literal
      · exact congrArg (c :: ·) ih
    · exact congrArg (c :: ·) ih
  | @placeholder name text ps named rest ih =>
    have after : name ++ '\x7d' :: text = (name ++ ['\x7d']) ++ text := by simp
    have skip : name.length + 1 = (name ++ ['\x7d']).length := by simp
    rw [List.flatMap_cons, Template.substituteFrom, if_pos rfl, nameAt?_append named]
    dsimp only
    rw [after, skip, substituteFrom_append, ih]
    cases slot : (Piece.placeholder name).slot? with
    | none =>
      rw [Piece.fill_of_none slot, show Variable.ofName? (String.ofList name) = none from slot]
      simp [Piece.source]
    | some v =>
      rw [Piece.fill_of_some slot, show Variable.ofName? (String.ofList name) = some v from slot]
      rfl

end Splits

theorem scan_eq (template : String) : scan template = (pieces template).filterMap Piece.name? :=
  (splits_pieces template).scanFrom

theorem fill_eq (template : String) (values : Variable → String) :
    fill template values = String.ofList ((pieces template).flatMap (Piece.fill values)) :=
  congrArg String.ofList ((splits_pieces template).substituteFrom values)

/-- The names that are listed as known are those that are replaced. -/
theorem mem_knownNames {name : String} : name ∈ knownNames ↔ (Variable.ofName? name).isSome = true := by
  have listed : ∀ name ∈ knownNames, (Variable.ofName? name).isSome = true := by decide +kernel
  refine ⟨listed name, fun found => Classical.byContradiction fun unlisted => ?_⟩
  rw [Variable.ofName?, Dict.find?_eq_none_of_notMem unlisted] at found
  cases found

end SettingsSweep.Template
