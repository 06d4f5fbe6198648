import SettingsSweep.Json.Reader

/-!
Reading values of a wanted shape from tokens: texts, lists of texts, names from a list, and records. A
record is an object, or a list of its fields in order; a field that is left out keeps its default.
-/

set_option autoImplicit false

namespace SettingsSweep.Json

abbrev Read (α : Type) := List Lexeme → Except Fault (α × List Lexeme)

def misfit : List Lexeme → Fault
  | [] => ⟨.endInValue, [], 0⟩
  | lexeme :: _ => match lexeme.token with
    | .refused _ fault | .broken _ fault => fault
    | .stray | .closeList | .closeObject | .comma | .colon => ⟨.expectedValue, lexeme.start, 1⟩
    | _ => ⟨.unwantedShape, lexeme.start, 0⟩

def readText : Read String
  | ⟨.text s, _⟩ :: rest => .ok (s, rest)
  | lexemes => .error (misfit lexemes)

def readBool : Read Bool
  | ⟨.plain (.bool b), _⟩ :: rest => .ok (b, rest)
  | lexemes => .error (misfit lexemes)

def readNull : Read Unit
  | ⟨.plain .null, _⟩ :: rest => .ok ((), rest)
  | lexemes => .error (misfit lexemes)

def readTextOrNull : Read (Option String)
  | ⟨.plain .null, _⟩ :: rest => .ok (none, rest)
  | lexemes => do
    let (s, rest) ← readText lexemes
    .ok (some s, rest)

def readColon : List Lexeme → Except Fault (List Lexeme)
  | [] => .error ⟨.endInObject, [], 0⟩
  | ⟨.colon, _⟩ :: rest => .ok rest
  | lexeme :: _ => .error ⟨.expectedColon, lexeme.start, 1⟩

def nextItem (first : Bool) : List Lexeme → Except Fault (Option (List Lexeme))
  | [] => .error ⟨.endInList, [], 0⟩
  | ⟨.closeList, _⟩ :: _ => .ok none
  | ⟨.comma, start⟩ :: rest =>
    if first then .ok (some (⟨.comma, start⟩ :: rest))
    else match rest with
      | [] => .error ⟨.endInValue, [], 0⟩
      | ⟨.closeList, start⟩ :: _ => .error ⟨.trailingComma, start, 1⟩
      | _ => .ok (some rest)
  | lexeme :: rest =>
    if first then .ok (some (lexeme :: rest))
    else .error ⟨.expectedCommaOrListEnd, lexeme.start, 1⟩

def endList : List Lexeme → Except Fault (List Lexeme)
  | [] => .error ⟨.endInList, [], 0⟩
  | ⟨.closeList, _⟩ :: rest => .ok rest
  | lexeme :: _ => .error ⟨.trailingCharacters, lexeme.start, 1⟩

def nextKey (first : Bool) : List Lexeme → Except Fault (Option (String × List Lexeme))
  | [] => .error ⟨.endInObject, [], 0⟩
  | ⟨.closeObject, _⟩ :: _ => .ok none
  | lexeme :: rest =>
    match (if first then some (lexeme :: rest)
      else match lexeme.token with | .comma => some rest | _ => none) with
    | none => .error ⟨.expectedCommaOrObjectEnd, lexeme.start, 1⟩
    | some [] => .error ⟨.endInValue, [], 0⟩
    | some (key :: rest) => match key.token with
      | .text s => .ok (some (s, rest))
      | .refused true fault | .broken true fault => .error fault
      | .closeObject => .error ⟨.trailingComma, key.start, 1⟩
      | _ => .error ⟨.keyNotString, key.start, 1⟩

def readItems {α : Type} (item : Read α) : Nat → Bool → Read (List α)
  | 0, _, lexemes => .error (misfit lexemes)
  | fuel + 1, first, lexemes => do
    match ← nextItem first lexemes with
    | none => .ok ([], lexemes)
    | some lexemes =>
      let (x, rest) ← item lexemes
      let (xs, rest) ← readItems item fuel false rest
      .ok (x :: xs, rest)

def readList {α : Type} (item : Read α) : Read (List α)
  | ⟨.openList, _⟩ :: rest => do
    let (xs, rest) ← readItems item (rest.length + 1) true rest
    .ok (xs, ← endList rest)
  | lexemes => .error (misfit lexemes)

def readEntries {α : Type} (item : Read α) : Nat → Bool → Read (List (String × α))
  | 0, _, lexemes => .error (misfit lexemes)
  | fuel + 1, first, lexemes => do
    match ← nextKey first lexemes with
    | none => .ok ([], lexemes.tail)
    | some (key, rest) =>
      let (x, rest) ← item (← readColon rest)
      let (xs, rest) ← readEntries item fuel false rest
      .ok ((key, x) :: xs, rest)

def readSorted {α : Type} (item : Read α) : Read (Dict α)
  | ⟨.openObject, _⟩ :: rest => do
    let (entries, rest) ← readEntries item (rest.length + 1) true rest
    .ok (Dict.sorted entries, rest)
  | lexemes => .error (misfit lexemes)

/-- A name from a list, as a text or as the only key of an object whose value is null. -/
def readName {α : Type} (names : List (String × α)) : Read α
  | [] => .error ⟨.endInValue, [], 0⟩
  | ⟨.text s, start⟩ :: rest => match Dict.find? s names with
    | some x => .ok (x, rest)
    | none => .error ⟨.unwantedShape, start, 0⟩
  | ⟨.openObject, start⟩ :: rest => do
    let (s, rest) ← readText rest
    match Dict.find? s names with
    | none => .error ⟨.unwantedShape, start, 0⟩
    | some x =>
      let (_, rest) ← readNull (← readColon rest)
      match rest with
      | ⟨.closeObject, _⟩ :: rest => .ok (x, rest)
      | [] => .error ⟨.endInObject, [], 0⟩
      | lexeme :: _ => .error ⟨.expectedValue, lexeme.start, 0⟩
  | lexeme :: _ => match lexeme.token with
    | .refused true fault | .broken true fault => .error fault
    | _ => .error ⟨.expectedValue, lexeme.start, 1⟩

/-- Skips a value. What it holds only has to be well formed. -/
def skipValue (lexemes : List Lexeme) : Except Fault (List Lexeme) := do
  let lenient (lexeme : Lexeme) : Lexeme := match lexeme.token with
    | .refused true _ => { lexeme with token := .text "" }
    | .refused false _ => { lexeme with token := .plain .null }
    | _ => lexeme
  let (_, rest) ← readValue (lexemes.map lenient)
  .ok (lexemes.drop (lexemes.length - rest.length))

structure FieldReader (ρ : Type) where
  name : String
  read : ρ → Read ρ

def FieldReader.of {ρ α : Type} (name : String) (read : Read α) (set : ρ → α → ρ) : FieldReader ρ :=
  ⟨name, fun record lexemes => do
    let (x, rest) ← read lexemes
    .ok (set record x, rest)⟩

/-- The members of a record; a field may come once, and unknown keys are skipped. -/
def readMembers {ρ : Type} (fields : List (FieldReader ρ)) :
    Nat → Bool → List String → ρ → Read ρ
  | 0, _, _, _, lexemes => .error (misfit lexemes)
  | fuel + 1, first, seen, record, lexemes => do
    match ← nextKey first lexemes with
    | none => .ok (record, lexemes.tail)
    | some (key, rest) =>
      match fields.find? (·.name = key) with
      | none =>
        readMembers fields fuel false seen record (← skipValue (← readColon rest))
      | some field =>
        if key ∈ seen then .error ⟨.unwantedShape, [], 0⟩
        else
          let (record, rest) ← field.read record (← readColon rest)
          readMembers fields fuel false (key :: seen) record rest

def readPositional {ρ : Type} : List (FieldReader ρ) → Bool → ρ → Read ρ
  | [], _, record, lexemes => .ok (record, lexemes)
  | field :: fields, first, record, lexemes => do
    match ← nextItem first lexemes with
    | none => .ok (record, lexemes)
    | some lexemes =>
      let (record, rest) ← field.read record lexemes
      readPositional fields false record rest

def readRecord {ρ : Type} (fields : List (FieldReader ρ)) (record : ρ) : Read ρ
  | ⟨.openObject, _⟩ :: rest => readMembers fields (rest.length + 1) true [] record rest
  | ⟨.openList, _⟩ :: rest => do
    let (record, rest) ← readPositional fields true record rest
    .ok (record, ← endList rest)
  | lexemes => .error (misfit lexemes)

def readWhole {α : Type} (read : Read α) (text : List Char) : Except Fault α := do
  let (x, rest) ← read (Lexeme.scan text)
  atEnd rest
  .ok x

mutual

def tokens : Json → List Token
  | .str s => [.text s]
  | .arr items => .openList :: tokensItems items
  | .obj members => .openObject :: tokensMembers members
  | value => [.plain value]

def tokensItems : List Json → List Token
  | [] => [.closeList]
  | [item] => tokens item ++ [.closeList]
  | item :: items => tokens item ++ .comma :: tokensItems items

def tokensMembers : List (String × Json) → List Token
  | [] => [.closeObject]
  | [(key, value)] => .text key :: .colon :: (tokens value ++ [.closeObject])
  | (key, value) :: members => .text key :: .colon :: (tokens value ++ .comma :: tokensMembers members)

end

def decode? {α : Type} (read : Read α) (value : Json) : Option α :=
  match read (value.tokens.map fun token => ⟨token, []⟩) with
  | .ok (x, []) => some x
  | _ => none

end SettingsSweep.Json
