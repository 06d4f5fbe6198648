import SettingsSweep.Config.Tree
import SettingsSweep.Number.Decimal
import SettingsSweep.Text.Blank
import SettingsSweep.Text.Lines

/-!
Configuration from environment variables. A variable names a key by its path; its value is a truth value, a
number, a quoted text, a list or a dictionary if it has that form as a whole, and else plain text.
-/

set_option autoImplicit false

namespace SettingsSweep

abbrev Environment := Dict String

namespace Environment

def isSpace (c : Char) : Bool :=
  c == ' ' || c == '\t' || c == '\n' || c == '\r' || c == '\x0c'

def skipSpace (text : List Char) : List Char := text.dropWhile isSpace

def isMark (c : Char) : Bool := c ∈ [',', '\x7b', '\x7d', '[', ']']

def isKeyChar (c : Char) : Bool := c.isAlphanum || c == '_' || c == '-'

/-- An integer of 64 bits, signed or not. -/
def isWord (text : List Char) : Bool :=
  match text with
  | '-' :: digits => !digits.isEmpty && digits.all Char.isDigit &&
      Decimal.natOfDigits digits ≤ Nat.pow 2 63
  | _ =>
    let digits := match text with
      | '+' :: digits => digits
      | digits => digits
    !digits.isEmpty && digits.all Char.isDigit && Decimal.natOfDigits digits < Nat.pow 2 64

def bare (text : List Char) : ConfigTree :=
  let trimmed := Text.trimChars text
  let real := '.' ∈ trimmed && (Binary64.ofText? trimmed).isSome
  if real || isWord trimmed then .number (String.ofList trimmed)
  else .text (String.ofList trimmed)

/-- The characters up to the closing quote, where a backslash protects the one after it. -/
def quotedSpan : List Char → Option (List Char × List Char)
  | [] => none
  | [c] => if c = '"' then some ([], []) else none
  | c :: d :: rest =>
    if c = '"' then some ([], d :: rest)
    else if c = '\\' then (quotedSpan rest).map fun (text, rest) => (c :: d :: text, rest)
    else (quotedSpan (d :: rest)).map fun (text, rest) => (c :: text, rest)

def hexChar? (digits : List Char) : Option Char := do
  let values ← digits.mapM fun c =>
    if c.isDigit then some (c.toNat - '0'.toNat)
    else if 'a' ≤ c.toLower ∧ c.toLower ≤ 'f' then some (c.toLower.toNat - 'a'.toNat + 10)
    else none
  let n := values.foldl (fun n d => n * 16 + d) 0
  if n.isValidChar then some (Char.ofNat n) else none

def namedEscape? (letter : Char) : Option Char :=
  ([('b', '\x08'), ('t', '\t'), ('n', '\n'), ('f', '\x0c'), ('r', '\r'), ('"', '"'),
    ('\\', '\\')] : List (Char × Char)).lookup letter

/-- The text that a quoted one stands for, after its first `skip` characters. -/
def unescaped? : Nat → List Char → Option (List Char)
  | _, [] => some []
  | skip + 1, _ :: rest => unescaped? skip rest
  | 0, '\\' :: rest => match rest with
    | [] => none
    | letter :: digits =>
      let coded (count : Nat) : Option (List Char) :=
        if digits.length < count then none
        else do
          let c ← hexChar? (digits.take count)
          (unescaped? (count + 1) rest).map (c :: ·)
      if letter = 'u' then coded 4
      else if letter = 'U' then coded 8
      else do
        let c ← namedEscape? letter
        (unescaped? 1 rest).map (c :: ·)
  | 0, c :: rest => (unescaped? 0 rest).map (c :: ·)

def quoted? (text : List Char) : Option (String × List Char) := do
  let (span, rest) ← quotedSpan text
  some (String.ofList (← unescaped? 0 span), rest)

def word? (word : String) (text : List Char) : Option (List Char) :=
  if word.toList.isPrefixOf text then some (text.drop word.length) else none

def key? (text : List Char) : Option (String × List Char) :=
  match text with
  | '"' :: rest => quoted? rest
  | _ =>
    let name := text.takeWhile isKeyChar
    if name = [] then none else some (String.ofList name, text.dropWhile isKeyChar)

mutual

def value? : Nat → List Char → Option (ConfigTree × List Char)
  | 0, _ => none
  | fuel + 1, text => do
    let text := skipSpace text
    let (value, rest) ←
      match word? "true" text, word? "false" text with
      | some rest, _ => some (ConfigTree.bool true, rest)
      | none, some rest => some (.bool false, rest)
      | none, none => match text with
        | '\x7b' :: rest => (entries? fuel [] rest).map fun (entries, rest) => (.dict entries, rest)
        | '[' :: rest => (items? fuel rest).map fun (items, rest) => (.list items, rest)
        | '"' :: rest => (quoted? rest).map fun (s, rest) => (.text s, rest)
        | '\'' :: c :: '\'' :: rest => some (.text (String.ofList [c]), rest)
        | '\'' :: _ => none
        | _ => some (bare (text.takeWhile (!isMark ·)), text.dropWhile (!isMark ·))
    some (value, skipSpace rest)

def items? : Nat → List Char → Option (List ConfigTree × List Char)
  | 0, _ => none
  | _ + 1, ']' :: rest => some ([], rest)
  | fuel + 1, text => do
    let (item, rest) ← value? fuel text
    match rest with
    | ',' :: rest =>
      let (items, rest) ← items? fuel rest
      some (item :: items, rest)
    | ']' :: rest => some ([item], rest)
    | _ => none

def entries? : Nat → Dict ConfigTree → List Char → Option (Dict ConfigTree × List Char)
  | 0, _, _ => none
  | _ + 1, known, '\x7d' :: rest => some (known, rest)
  | fuel + 1, known, text => do
    let (key, rest) ← key? (skipSpace text)
    match skipSpace rest with
    | '=' :: rest =>
      let (value, rest) ← value? fuel rest
      let known := known.put key value
      match rest with
      | ',' :: rest => entries? fuel known rest
      | '\x7d' :: rest => some (known, rest)
      | _ => none
    | _ => none

end

/-- The value of a variable. What has no form as a whole is text, white space included. -/
def valueOf (text : String) : ConfigTree :=
  match value? (2 * text.length + 2) text.toList with
  | some (value, []) => value
  | _ => .text text

def variableStart : List Char := "xyzplot_".toList

def dotted : List Char → List Char
  | '_' :: '_' :: rest => '.' :: dotted rest
  | c :: rest => c :: dotted rest
  | [] => []

/-- The path of keys that the name of a variable stands for. `XYZPLOT_DIR` is none: it names the project
    directory. -/
def path? (name : String) : Option (List String) :=
  let lowered := name.toList.map Char.toLower
  if !variableStart.isPrefixOf lowered then none
  else
    let key := lowered.drop variableStart.length
    if key = "dir".toList then none
    else
      let segments := Text.splitOn '.' (Text.trimChars (dotted key))
      if [] ∈ segments then none else some (segments.map String.ofList)

/-- The layer of configuration that the variables make up; later ones are merged over earlier ones. -/
def layer (environment : Environment) : ConfigTree :=
  environment.foldl
    (fun tree (binding : String × String) =>
      match path? binding.1 with
      | some path => tree.merge ((valueOf binding.2).nested path)
      | none => tree)
    (.dict [])

end Environment

end SettingsSweep
