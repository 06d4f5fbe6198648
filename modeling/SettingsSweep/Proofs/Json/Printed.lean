import SettingsSweep.Json.Record
import SettingsSweep.Proofs.Json.Reader
import SettingsSweep.Proofs.Json.RealText

/-!
The pretty text of a value is read as that value (`ofText_pretty`), as long as its integers fit a word, its real
numbers read back, no object has a key twice and containers are not nested too deeply for the reader.
-/

set_option autoImplicit false

namespace SettingsSweep.Json

open Lexeme

mutual

/-- Values that the reader gives back, where `room` more containers can be open at a time. -/
def Readable (room : Nat) : Json → Prop
  | .int n => FitsWord n
  | .real x => x.ReadsBack
  | .arr items => 0 < room ∧ ReadableItems (room - 1) items
  | .obj members => 0 < room ∧ (members.map Prod.fst).Nodup ∧ ReadableMembers (room - 1) members
  | _ => True

def ReadableItems (room : Nat) : List Json → Prop
  | [] => True
  | item :: items => Readable room item ∧ ReadableItems room items

def ReadableMembers (room : Nat) : List (String × Json) → Prop
  | [] => True
  | (_, value) :: members => Readable room value ∧ ReadableMembers room members

end

instance (n : Int) : Decidable (FitsWord n) := inferInstanceAs (Decidable (_ ∧ _))

mutual

instance decidableReadable (room : Nat) : ∀ v, Decidable (Readable room v)
  | .null | .bool _ | .str _ => .isTrue trivial
  | .int n => inferInstanceAs (Decidable (FitsWord n))
  | .real x => inferInstanceAs (Decidable x.ReadsBack)
  | .arr items =>
    have := decidableReadableItems (room - 1) items
    inferInstanceAs (Decidable (_ ∧ _))
  | .obj members =>
    have := decidableReadableMembers (room - 1) members
    inferInstanceAs (Decidable (_ ∧ _ ∧ _))

instance decidableReadableItems (room : Nat) : ∀ items, Decidable (ReadableItems room items)
  | [] => .isTrue trivial
  | item :: items =>
    have := decidableReadable room item
    have := decidableReadableItems room items
    inferInstanceAs (Decidable (_ ∧ _))

instance decidableReadableMembers (room : Nat) : ∀ members, Decidable (ReadableMembers room members)
  | [] => .isTrue trivial
  | (_, value) :: members =>
    have := decidableReadable room value
    have := decidableReadableMembers room members
    inferInstanceAs (Decidable (_ ∧ _))

end

theorem marks_openList : Marks ['['] [.openList] := marks_symbol (by simp [symbols])

theorem marks_closeList : Marks [']'] [.closeList] := marks_symbol (by simp [symbols])

theorem marks_openObject : Marks ['\x7b'] [.openObject] := marks_symbol (by simp [symbols])

theorem marks_closeObject : Marks ['\x7d'] [.closeObject] := marks_symbol (by simp [symbols])

theorem marks_colon : Marks [':', ' '] [.colon] :=
  (marks_symbol (t := .colon) (by simp [symbols])).append (marks_space rfl)

theorem marks_comma : Marks [',', '\n'] [.comma] :=
  (marks_symbol (t := .comma) (by simp [symbols])).append (marks_space rfl)

theorem marks_break : Marks ['\n'] [] := marks_space rfl

theorem endsNumber_comma : EndsNumber ',' := by
  constructor <;> decide

theorem endsNumber_break : EndsNumber '\n' := IsBreak.endsNumber (.inl rfl)

mutual

theorem spells_prettyAt (level room : Nat) :
    ∀ v, Readable room v → Spells (prettyAt level v).toList (tokens v)
  | .null, _ => by simpa [prettyAt, tokens] using marks_null.spells
  | .bool b, _ => (marks_ofBool b).spells
  | .int n, fits => spells_int fits
  | .real x, back => by simpa [prettyAt, tokens] using back.spells
  | .str s, _ => (marks_quote s).spells
  | .arr [], _ => by simpa [prettyAt, tokens, tokensItems] using (marks_openList.append marks_closeList).spells
  | .arr (item :: items), ⟨_, inner⟩ => by
    have closing := (marks_indent level).append marks_closeList
    have rest := marks_prettyItems (level + 1) (room - 1) closing item items inner
    simpa [prettyAt, tokens] using ((marks_openList.append marks_break).append rest).spells
  | .obj [], _ => by simpa [prettyAt, tokens, tokensMembers] using (marks_openObject.append marks_closeObject).spells
  | .obj (member :: members), ⟨_, _, inner⟩ => by
    have closing := (marks_indent level).append marks_closeObject
    have rest := marks_prettyMembers (level + 1) (room - 1) closing member members inner
    simpa [prettyAt, tokens] using ((marks_openObject.append marks_break).append rest).spells

theorem marks_prettyItems (level room : Nat) {closing : List Char} (closes : Marks closing [.closeList]) :
    ∀ (item : Json) (items : List Json), ReadableItems room (item :: items) →
      Marks ((prettyItems level (item :: items)).toList ++ closing) (tokensItems (item :: items))
  | item, [], ⟨first, _⟩ => by
    have value := (spells_prettyAt level room item first).append (marks_break.append closes) rfl endsNumber_break
    simpa [prettyItems, tokensItems] using (marks_indent level).append value
  | item, next :: items, ⟨first, more⟩ => by
    have value := (spells_prettyAt level room item first).append marks_comma rfl endsNumber_comma
    have rest := marks_prettyItems level room closes next items more
    simpa [prettyItems, tokensItems] using ((marks_indent level).append value).append rest

theorem marks_prettyMembers (level room : Nat) {closing : List Char} (closes : Marks closing [.closeObject]) :
    ∀ (member : String × Json) (members : List (String × Json)), ReadableMembers room (member :: members) →
      Marks ((prettyMembers level (member :: members)).toList ++ closing) (tokensMembers (member :: members))
  | (key, value), [], ⟨first, _⟩ => by
    have opening := ((marks_indent level).append (marks_quote key)).append marks_colon
    have value := (spells_prettyAt level room value first).append (marks_break.append closes) rfl endsNumber_break
    simpa [prettyMembers, tokensMembers] using opening.append value
  | (key, value), next :: members, ⟨first, more⟩ => by
    have opening := ((marks_indent level).append (marks_quote key)).append marks_colon
    have value := (spells_prettyAt level room value first).append marks_comma rfl endsNumber_comma
    have rest := marks_prettyMembers level room closes next members more
    simpa [prettyMembers, tokensMembers] using (opening.append value).append rest

end

/-- The value that tokens spell after a step of the reader. -/
def resume : Reading ⊕ Json → List Token → Option Json
  | .inl next, ts => valueOf? next ts
  | .inr value, ts => if ts.isEmpty then some value else none

/-- What tokens bring the reader to, whatever comes after them. -/
def Runs (state : Reading) (ts : List Token) (r : Reading ⊕ Json) : Prop :=
  ∀ more, valueOf? state (ts ++ more) = resume r more

section

variable {state next : Reading} {t : Token} {ts us : List Token} {r : Reading ⊕ Json}

theorem runs_step (stepped : step state t = .ok r) : Runs state [t] r := by
  intro more
  rw [List.singleton_append, valueOf?, stepped]
  cases r <;> rfl

theorem Runs.append (h : Runs state ts (.inl next)) (h' : Runs next us r) : Runs state (ts ++ us) r := by
  intro more
  rw [List.append_assoc, h, resume, h']

theorem Runs.cons (stepped : step state t = .ok (.inl next)) (h : Runs next ts r) : Runs state (t :: ts) r :=
  (runs_step stepped).append h

end

/-- A value can start here, and goes to a stack. -/
def Awaits (state : Reading) (stack : List Frame) : Prop :=
  ∀ t, t ≠ .closeList → step state t = openValue stack t

/-- A key can come here, for a member after others. -/
def AwaitsKey (state : Reading) (members : Document) (stack : List Frame) : Prop :=
  ∀ key, step state (.text key) = .ok (.inl (.colon members key stack))

section

variable {state : Reading} {stack : List Frame}

theorem awaits_value (stack : List Frame) : Awaits (.value stack) stack := fun _ _ => by rw [step]

theorem awaits_itemOrEnd (stack : List Frame) : Awaits (.itemOrEnd stack) stack := by
  intro t other
  rw [step]
  exact fun _ _ same _ => other same

theorem awaits_itemAfterComma (stack : List Frame) : Awaits (.itemAfterComma stack) stack := by
  intro t other
  rw [step]
  exact other

theorem awaitsKey_keyOrEnd (stack : List Frame) : AwaitsKey (.keyOrEnd stack) [] stack := fun _ => rfl

theorem awaitsKey_keyAfterComma (members : Document) (stack : List Frame) :
    AwaitsKey (.keyAfterComma members stack) members stack := fun _ => rfl

theorem Awaits.plain (h : Awaits state stack) (v : Json) : Runs state [.plain v] (close v stack) :=
  runs_step (h _ Token.noConfusion)

theorem Awaits.text (h : Awaits state stack) (s : String) : Runs state [.text s] (close (.str s) stack) :=
  runs_step (h _ Token.noConfusion)

theorem Awaits.openList (h : Awaits state stack) (room : stack.length < maxDepth) :
    step state .openList = .ok (.inl (.itemOrEnd (.list [] :: stack))) :=
  (h _ Token.noConfusion).trans (if_pos room)

theorem Awaits.openObject (h : Awaits state stack) (room : stack.length < maxDepth) :
    step state .openObject = .ok (.inl (.keyOrEnd stack)) :=
  (h _ Token.noConfusion).trans (if_pos room)

end

theorem close_member {done : Document} {key : String} (stack : List Frame) (value : Json) (new : key ∉ done.keys) :
    close value (.object done key :: stack) = .inl (.afterMember (done ++ [(key, value)]) stack) := by
  rw [close, Dict.put_of_notMem new]

theorem new_key {done rest : Document} {key : String} {value : Json}
    (unique : (Dict.keys (done ++ (key, value) :: rest)).Nodup) : key ∉ done.keys := by
  rw [Dict.keys, List.map_append] at unique
  exact fun known => (List.nodup_append.1 unique).2.2 key known key List.mem_cons_self rfl

mutual

theorem runs_tokens {room : Nat} {state : Reading} {stack : List Frame} (deep : room + stack.length ≤ maxDepth)
    (awaits : Awaits state stack) : ∀ v, Readable room v → Runs state (tokens v) (close v stack)
  | .null, _ => awaits.plain .null
  | .bool b, _ => awaits.plain (.bool b)
  | .int n, _ => awaits.plain (.int n)
  | .real x, _ => awaits.plain (.real x)
  | .str s, _ => awaits.text s
  | .arr [], ⟨inside, _⟩ => .cons (awaits.openList (by omega)) (runs_step rfl)
  | .arr (item :: items), ⟨inside, inner⟩ =>
    .cons (awaits.openList (by omega)) (runs_tokensItems (by omega) (awaits_itemOrEnd _) item items inner)
  | .obj [], ⟨inside, _⟩ => .cons (awaits.openObject (by omega)) (runs_step rfl)
  | .obj (member :: members), ⟨inside, unique, inner⟩ =>
    .cons (awaits.openObject (by omega))
      (runs_tokensMembers (by omega) (awaitsKey_keyOrEnd stack) member members unique inner)
termination_by v => sizeOf v

theorem runs_tokensItems {room : Nat} {state : Reading} {stack : List Frame} {done : List Json}
    (deep : room + (stack.length + 1) ≤ maxDepth) (awaits : Awaits state (.list done :: stack)) :
    ∀ item items, ReadableItems room (item :: items) →
      Runs state (tokensItems (item :: items)) (close (.arr (done.reverse ++ item :: items)) stack)
  | item, [], ⟨first, _⟩ => by
    have value := runs_tokens deep awaits item first
    have ended : step (.afterItem (item :: done) stack) .closeList =
        .ok (close (.arr (item :: done).reverse) stack) := rfl
    rw [List.reverse_cons] at ended
    exact value.append (runs_step ended)
  | item, next :: items, ⟨first, more⟩ => by
    have value := runs_tokens deep awaits item first
    have rest := runs_tokensItems deep (awaits_itemAfterComma (.list (item :: done) :: stack)) next items more
    rw [List.reverse_cons, List.append_assoc, List.singleton_append] at rest
    exact value.append (.cons rfl rest)
termination_by item items => sizeOf item + sizeOf items

theorem runs_tokensMembers {room : Nat} {state : Reading} {stack : List Frame} {done : Document}
    (deep : room + (stack.length + 1) ≤ maxDepth) (awaits : AwaitsKey state done stack) :
    ∀ member members, (Dict.keys (done ++ member :: members)).Nodup → ReadableMembers room (member :: members) →
      Runs state (tokensMembers (member :: members)) (close (.obj (done ++ member :: members)) stack)
  | (key, value), [], unique, ⟨first, _⟩ => by
    have read := runs_tokens deep (awaits_value (.object done key :: stack)) value first
    rw [close_member stack value (new_key unique)] at read
    exact .cons (awaits key) (.cons rfl (read.append (runs_step rfl)))
  | (key, value), next :: members, unique, ⟨first, more⟩ => by
    have read := runs_tokens deep (awaits_value (.object done key :: stack)) value first
    rw [close_member stack value (new_key unique)] at read
    rw [← List.singleton_append, ← List.append_assoc] at unique ⊢
    have rest := runs_tokensMembers deep (awaitsKey_keyAfterComma _ stack) next members unique more
    exact .cons (awaits key) (.cons rfl (read.append (.cons rfl rest)))
termination_by member members => sizeOf member + sizeOf members

end

end SettingsSweep.Json
