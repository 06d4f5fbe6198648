import SettingsSweep.Catalog
import SettingsSweep.Document.Path
import SettingsSweep.Prompts

/-!
The fields of a document that an axis can vary.
-/

set_option autoImplicit false

namespace SettingsSweep

structure Parameter where
  name : String
  kind : FieldKind
  current : Option Json

namespace Document

/-- Fields that an axis can vary even where a document does not have them. -/
def alwaysAvailable : List String := ["prompts", "sampler", "rotation_2d"]

/-- A path of keys as one text; a first key that is empty leaves no trace. -/
def joinPath (parent key : String) : String :=
  if parent = "" then key else parent ++ "." ++ key

mutual

/-- The values that are no objects, and whatever stands under the prompts key, with their paths. -/
def leavesOf (promptsField parent : String) : List (String × Json) → List (String × Json)
  | [] => []
  | (key, value) :: members =>
    leavesAt promptsField key (joinPath parent key) value ++ leavesOf promptsField parent members

def leavesAt (promptsField key path : String) : Json → List (String × Json)
  | .obj members =>
    if key = promptsField then [(path, .obj members)] else leavesOf promptsField path members
  | value => [(path, value)]

end

def leaves (catalog : Catalog) (doc : Document) : List (String × Json) :=
  leavesOf catalog.promptsField "" doc

/-- The leaves and the fields that are always available, by name. Entries of one name keep their
    order. -/
def parameters (catalog : Catalog) (doc : Document) : List Parameter :=
  let found := (doc.leaves catalog).map fun (path, value) => (path, some value)
  let added := alwaysAvailable.filter fun name => !found.any (·.1 = name)
  let entries := (found ++ added.map fun name => (name, none)).mergeSort fun a b => a.1 ≤ b.1
  entries.map fun (name, current) => ⟨name, catalog.classify name, current⟩

/-- The prompts of a document; without any, one frame with an empty text. -/
def prompts (catalog : Catalog) (doc : Document) : Prompts :=
  match (doc.find? catalog.promptsField).bind Prompts.ofJson? with
  | some (frame :: frames) => frame :: frames
  | _ => Prompts.single ""

end Document

end SettingsSweep
