import SettingsSweep.Json.Token

/-!
Reading a JSON value from its tokens. Containers that are not closed yet are kept on a stack, so the
reader is one pass over the tokens. A key that comes twice keeps its first place and its last value.
-/

set_option autoImplicit false

namespace SettingsSweep.Json

/-- An open container: the items so far in reverse, or the members so far and the pending key. -/
inductive Frame
  | list (items : List Json)
  | object (members : Document) (key : String)

/-- What the reader waits for; a stack holds the open containers, the innermost first. -/
inductive Reading
  | value (stack : List Frame)
  | itemOrEnd (stack : List Frame)
  | afterItem (items : List Json) (stack : List Frame)
  | itemAfterComma (stack : List Frame)
  | keyOrEnd (stack : List Frame)
  | colon (members : Document) (key : String) (stack : List Frame)
  | afterMember (members : Document) (stack : List Frame)
  | keyAfterComma (members : Document) (stack : List Frame)

def maxDepth : Nat := 127

/-- A finished value goes into the innermost container, or is the result. -/
def close (value : Json) : List Frame → Reading ⊕ Json
  | [] => .inr value
  | .list items :: stack => .inl (.afterItem (value :: items) stack)
  | .object members key :: stack => .inl (.afterMember (members.put key value) stack)

def openValue (stack : List Frame) : Token → Except Fault.Cause (Reading ⊕ Json)
  | .plain value => .ok (close value stack)
  | .text s => .ok (close (.str s) stack)
  | .openList =>
    if stack.length < maxDepth then .ok (.inl (.itemOrEnd (.list [] :: stack))) else .error .tooDeep
  | .openObject =>
    if stack.length < maxDepth then .ok (.inl (.keyOrEnd stack)) else .error .tooDeep
  | _ => .error .expectedValue

/-- One step of the reader. A fault that it finds itself lies at the first character of the token. -/
def step : Reading → Token → Except Fault.Cause (Reading ⊕ Json)
  | .value stack, t => openValue stack t
  | .itemOrEnd (.list items :: stack), .closeList => .ok (close (.arr items.reverse) stack)
  | .itemOrEnd stack, t => openValue stack t
  | .afterItem items stack, .closeList => .ok (close (.arr items.reverse) stack)
  | .afterItem items stack, .comma => .ok (.inl (.itemAfterComma (.list items :: stack)))
  | .afterItem .., _ => .error .expectedCommaOrListEnd
  | .itemAfterComma _, .closeList => .error .trailingComma
  | .itemAfterComma stack, t => openValue stack t
  | .keyOrEnd stack, .closeObject => .ok (close (.obj []) stack)
  | .keyOrEnd stack, .text key => .ok (.inl (.colon [] key stack))
  | .keyOrEnd _, _ => .error .keyNotString
  | .colon members key stack, .colon => .ok (.inl (.value (.object members key :: stack)))
  | .colon .., _ => .error .expectedColon
  | .afterMember members stack, .closeObject => .ok (close (.obj members) stack)
  | .afterMember members stack, .comma => .ok (.inl (.keyAfterComma members stack))
  | .afterMember .., _ => .error .expectedCommaOrObjectEnd
  | .keyAfterComma members stack, .text key => .ok (.inl (.colon members key stack))
  | .keyAfterComma .., .closeObject => .error .trailingComma
  | .keyAfterComma .., _ => .error .keyNotString

/-- Whether the reader has use for a number, string or word that cannot be read. -/
def wants : Reading → Bool → Bool
  | .value _, _ | .itemOrEnd _, _ | .itemAfterComma _, _ => true
  | .keyOrEnd _, quoted | .keyAfterComma .., quoted => quoted
  | _, _ => false

def endCause : Reading → Fault.Cause
  | .value _ | .itemAfterComma _ | .keyAfterComma .. => .endInValue
  | .itemOrEnd _ | .afterItem .. => .endInList
  | .keyOrEnd _ | .colon .. | .afterMember .. => .endInObject

def readFrom : Reading → List Lexeme → Except Fault (Json × List Lexeme)
  | state, [] => .error ⟨endCause state, [], 0⟩
  | state, lexeme :: rest =>
    let here (cause : Fault.Cause) : Fault := ⟨cause, lexeme.start, 1⟩
    match lexeme.token with
    | .refused quoted fault | .broken quoted fault =>
      if wants state quoted then .error fault
      else match step state .stray with
        | .error cause => .error (here cause)
        | .ok _ => .error fault
    | t =>
      match step state t with
      | .error cause => .error (here cause)
      | .ok (.inr value) => .ok (value, rest)
      | .ok (.inl next) => readFrom next rest

def readValue (lexemes : List Lexeme) : Except Fault (Json × List Lexeme) :=
  readFrom (.value []) lexemes

def atEnd : List Lexeme → Except Fault Unit
  | [] => .ok ()
  | lexeme :: _ => .error ⟨.trailingCharacters, lexeme.start, 1⟩

def ofText (text : List Char) : Except Fault Json := do
  let (value, rest) ← readValue (Lexeme.scan text)
  atEnd rest
  .ok value

end SettingsSweep.Json
