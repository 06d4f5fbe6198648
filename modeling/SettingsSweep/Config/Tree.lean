import SettingsSweep.Dict

/-!
Configuration as a tree of texts, numbers and the like, before it is known what its entries mean. Layers
of configuration are merged as trees, and records are read from the result.
-/

set_option autoImplicit false

namespace SettingsSweep

/-- Nothing depends on the value of a number, so it stays as it is spelled. -/
inductive ConfigTree
  | null
  | bool (b : Bool)
  | number (spelling : String)
  | text (s : String)
  | list (items : List ConfigTree)
  | dict (entries : List (String × ConfigTree))

namespace ConfigTree

mutual

/-- Dictionaries merge key by key; anything else replaces what was there. -/
def merge (base : ConfigTree) : ConfigTree → ConfigTree
  | .dict entries => match base with
    | .dict known => .dict (mergeEntries known entries)
    | _ => .dict entries
  | other => other

def mergeEntries (known : Dict ConfigTree) : List (String × ConfigTree) → Dict ConfigTree
  | [] => known
  | (key, value) :: entries =>
    mergeEntries
      (known.put key (match known.find? key with
        | some old => old.merge value
        | none => value))
      entries

end

def nested (value : ConfigTree) : List String → ConfigTree
  | [] => value
  | key :: keys => .dict [(key, nested value keys)]

def ofTexts (texts : List String) : ConfigTree := .list (texts.map .text)

def text? : ConfigTree → Option String
  | .text s => some s
  | _ => none

def bool? : ConfigTree → Option Bool
  | .bool b => some b
  | _ => none

def texts? : ConfigTree → Option (List String)
  | .list items => items.mapM text?
  | _ => none

def sorted? {α : Type} (value? : ConfigTree → Option α) : ConfigTree → Option (Dict α)
  | .dict entries =>
    (entries.mapM fun (entry : String × ConfigTree) =>
      (value? entry.2).map fun x => (entry.1, x)).map Dict.sorted
  | _ => none

/-- A name from a list, as a text or as the only key of a dictionary whose value is null. -/
def name? {α : Type} (names : List (String × α)) : ConfigTree → Option α
  | .text s => Dict.find? s names
  | .dict [(s, .null)] => Dict.find? s names
  | _ => none

structure Field (ρ : Type) where
  key : String
  set? : ρ → ConfigTree → Option ρ

def Field.of {ρ α : Type} (key : String) (value? : ConfigTree → Option α) (set : ρ → α → ρ) :
    Field ρ :=
  ⟨key, fun record value => (value? value).map (set record)⟩

def setKey? {ρ : Type} (fields : List (Field ρ)) (record : ρ) (key : String)
    (value : ConfigTree) : Option ρ :=
  match fields.find? (·.key = key) with
  | some field => field.set? record value
  | none => some record

/-- A record from a dictionary, where unknown keys are ignored, or from a list of its fields in order.
    Fields that are left out keep their defaults. -/
def record? {ρ : Type} (fields : List (Field ρ)) (default : ρ) : ConfigTree → Option ρ
  | .dict entries =>
    entries.foldlM (fun record (entry : String × ConfigTree) =>
      setKey? fields record entry.1 entry.2) default
  | .list items =>
    (fields.zip items).foldlM (fun record (entry : Field ρ × ConfigTree) =>
      entry.1.set? record entry.2) default
  | _ => none

end ConfigTree

end SettingsSweep
