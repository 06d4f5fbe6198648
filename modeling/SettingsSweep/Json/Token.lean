import SettingsSweep.Json.Basic
import SettingsSweep.Json.Fault

/-!
The tokens of a JSON text. Each token is kept with the text from its first character on, by which a
fault can be located.
-/

set_option autoImplicit false

namespace SettingsSweep.Json

/-- A value or key that cannot be read is a token too: a reader that does not come to need it reports
    something else, or nothing at all. -/
inductive Token
  | openList
  | closeList
  | openObject
  | closeObject
  | comma
  | colon
  /-- `null`, a boolean or a number. -/
  | plain (value : Json)
  | text (s : String)
  /-- A number or string with an end but without a value. -/
  | refused (quoted : Bool) (fault : Fault)
  /-- A number, string or word without an end. -/
  | broken (quoted : Bool) (fault : Fault)
  | stray

structure Lexeme where
  token : Token
  start : List Char

namespace Lexeme

def isSpace (c : Char) : Bool := c == ' ' || c == '\n' || c == '\t' || c == '\r'

def word (expected : List Char) (value : Json) (cs : List Char) : Token × List Char :=
  match expected, cs with
  | [], cs => (.plain value, cs)
  | _ :: _, [] => (.broken false ⟨.endInValue, [], 0⟩, [])
  | e :: es, c :: rest =>
    if c = e then word es value rest else (.broken false ⟨.expectedWord, c :: rest, 1⟩, [])

def hexValue? (c : Char) : Option Nat :=
  if c.isDigit then some (c.toNat - 48)
  else if 'a' ≤ c ∧ c ≤ 'f' then some (c.toNat - 87)
  else if 'A' ≤ c ∧ c ≤ 'F' then some (c.toNat - 55)
  else none

def codeUnit? (a b c d : Char) : Option Nat := do
  return (← hexValue? a) * 4096 + (← hexValue? b) * 256 + (← hexValue? c) * 16 + (← hexValue? d)

def simpleEscape? : Char → Option Char
  | '"' => some '"'
  | '\\' => some '\\'
  | '/' => some '/'
  | 'b' => some '\x08'
  | 'f' => some '\x0c'
  | 'n' => some '\n'
  | 'r' => some '\r'
  | 't' => some '\t'
  | _ => none

def isHighSurrogate (n : Nat) : Bool := 0xD800 ≤ n && n ≤ 0xDBFF

def isLowSurrogate (n : Nat) : Bool := 0xDC00 ≤ n && n ≤ 0xDFFF

/-- An escape without its backslash: the code unit that it stands for, and the text after it. A text
    with fewer than four bytes after `u` ends in the middle of the escape. -/
def escape (cs : List Char) : Except Fault (Nat × List Char) :=
  match cs with
  | [] => .error ⟨.endInString, [], 0⟩
  | 'u' :: rest =>
    match rest with
    | a :: b :: c :: d :: rest' =>
      match codeUnit? a b c d with
      | some n => .ok (n, rest')
      | none => .error ⟨.invalidEscape, rest, 4⟩
    | _ => if Fault.byteLength rest < 4 then .error ⟨.endInString, [], 0⟩
      else .error ⟨.invalidEscape, rest, 4⟩
  | c :: rest =>
    match simpleEscape? c with
    | some e => .ok (e.toNat, rest)
    | none => .error ⟨.invalidEscape, cs, 1⟩

/-- The characters of a string up to its closing quote, and the text after that. A high surrogate
    must be followed by a low one; where `strict` is off, surrogates are let through as they come.
    The fuel bounds the number of characters. -/
def stringBody (strict : Bool) : Nat → List Char → Except Fault (List Char × List Char)
  | 0, _ | _, [] => .error ⟨.endInString, [], 0⟩
  | fuel + 1, c :: cs =>
    if c = '"' then .ok ([], cs)
    else if c = '\\' then do
      let (unit, rest) ← escape cs
      if strict && isLowSurrogate unit then .error ⟨.loneSurrogate, rest, 0⟩
      else if strict && isHighSurrogate unit then
        match rest with
        | [] => .error ⟨.endInString, [], 0⟩
        | '\\' :: [] => .error ⟨.endInString, [], 0⟩
        | '\\' :: 'u' :: _ =>
          let (low, rest') ← escape rest.tail
          if isLowSurrogate low then
            let (more, after) ← stringBody strict fuel rest'
            .ok (Char.ofNat (0x10000 + (unit - 0xD800) * 1024 + (low - 0xDC00)) :: more, after)
          else .error ⟨.loneSurrogate, rest', 0⟩
        | '\\' :: _ :: _ => .error ⟨.unfinishedSurrogate, rest, 2⟩
        | _ :: _ => .error ⟨.unfinishedSurrogate, rest, 1⟩
      else
        let (more, after) ← stringBody strict fuel rest
        .ok (Char.ofNat unit :: more, after)
    else if c.toNat < 0x20 then .error ⟨.controlCharacter, c :: cs, 1⟩
    else do
      let (more, after) ← stringBody strict fuel cs
      .ok (c :: more, after)

def string (cs : List Char) : Token × List Char :=
  match stringBody true cs.length cs with
  | .ok (content, rest) => (.text (String.ofList content), rest)
  | .error fault =>
    match stringBody false cs.length cs with
    | .ok (_, rest) => (.refused true fault, rest)
    | .error _ => (.broken true fault, [])

def maxSignificand : Nat := Nat.pow 2 64 - 1

/-- Adds digits to a significand while it stays within its limit; returns the digits left over. -/
def accumulate (significand : Nat) : List Char → Nat × List Char
  | [] => (significand, [])
  | d :: ds =>
    let next := 10 * significand + (d.toNat - 48)
    if maxSignificand < next then (significand, d :: ds) else accumulate next ds

def powerOfTen (n : Nat) : Binary64 := Decimal.toBinary64 ⟨false, 1, n⟩

/-- Divides by powers of ten until the remaining one has a table entry. The quotient is zero after
    three rounds at the most. -/
def scaleDown : Nat → Binary64 → Nat → Binary64
  | 0, x, _ => x
  | rounds + 1, x, n =>
    if n ≤ 308 then x / powerOfTen n
    else if x.isZero then x
    else scaleDown rounds (x / powerOfTen 308) (n - 308)

/-- `significand · 10^exp`, rounded once for the significand and once for each power of ten, which
    for long numerals is not always the nearest number. Nothing, if that is infinite. -/
def scaled? (significand : Nat) (exp : Int) : Option Binary64 :=
  let x := Binary64.ofNat significand
  if exp < 0 then some (scaleDown 4 x exp.natAbs)
  else if exp ≤ 308 then
    let y := x * powerOfTen exp.natAbs
    if y.isFinite then some y else none
  else if x.isZero then some x
  else none

def maxExponent : Nat := Nat.pow 2 31 - 1

/-- The exponent digits up to the first with which the exponent is beyond its limit. -/
def exponentOverflow? (exp : Nat) : List Char → Option (List Char)
  | [] => none
  | d :: ds =>
    let next := 10 * exp + (d.toNat - 48)
    if maxExponent < next then some ds else exponentOverflow? next ds

def signedReal (negative : Bool) (x : Binary64) : Json := .real (if negative then -x else x)

def scaledToken (negative : Bool) (significand : Nat) (exp : Int) (rest : List Char) :
    Token × List Char :=
  match scaled? significand exp with
  | some x => (.plain (signedReal negative x), rest)
  | none => (.refused false ⟨.numberOutOfRange, rest, 0⟩, rest)

def exponent (negative : Bool) (significand : Nat) (exp : Int) (cs : List Char) :
    Token × List Char :=
  let (down, digits) := Decimal.splitSign cs
  match digits with
  | [] => (.broken false ⟨.endInValue, [], 0⟩, [])
  | d :: _ =>
    if !d.isDigit then (.broken false ⟨.invalidNumber, digits, 1⟩, [])
    else
      let run := digits.takeWhile Char.isDigit
      let rest := digits.dropWhile Char.isDigit
      match exponentOverflow? 0 run with
      | some unread =>
        if significand ≠ 0 ∧ !down then
          (.refused false ⟨.numberOutOfRange, unread ++ rest, 0⟩, rest)
        else (.plain (signedReal negative (.zero false)), rest)
      | none =>
        let n : Int := Decimal.natOfDigits run
        scaledToken negative significand (if down then exp - n else exp + n) rest

def fraction (negative : Bool) (significand : Nat) (exp : Int) (cs : List Char) :
    Token × List Char :=
  match cs with
  | [] => (.broken false ⟨.endInValue, [], 0⟩, [])
  | c :: _ =>
    if !c.isDigit then (.broken false ⟨.invalidNumber, cs, 1⟩, [])
    else
      let run := cs.takeWhile Char.isDigit
      let (significand, unread) := accumulate significand run
      let exp := exp - (run.length - unread.length : Nat)
      match cs.dropWhile Char.isDigit with
      | 'e' :: rest | 'E' :: rest => exponent negative significand exp rest
      | rest => scaledToken negative significand exp rest

/-- An integer is kept as such if it fits 64 bits with its sign, and `-0` is a real number. -/
def integer (negative : Bool) (n : Nat) : Json :=
  if negative then
    if 0 < n ∧ n ≤ Nat.pow 2 63 then .int (-(n : Int)) else .real (-(Binary64.ofNat n))
  else .int n

/-- A numeral without its sign. Digits after those that fit the significand count as zeros. -/
def number (negative : Bool) (cs : List Char) : Token × List Char :=
  match cs with
  | [] => (.broken false ⟨.endInValue, [], 0⟩, [])
  | c :: rest =>
    if !c.isDigit then (.broken false ⟨.invalidNumber, cs, 1⟩, [])
    else if c = '0' ∧ (rest.head?.map Char.isDigit) = some true then
      (.broken false ⟨.invalidNumber, rest, 1⟩, [])
    else
      let (significand, unread) := accumulate 0 (cs.takeWhile Char.isDigit)
      let exp : Int := unread.length
      match cs.dropWhile Char.isDigit with
      | '.' :: rest => fraction negative significand exp rest
      | 'e' :: rest | 'E' :: rest => exponent negative significand exp rest
      | rest =>
        if unread = [] then (.plain (integer negative significand), rest)
        else scaledToken negative significand exp rest

def tokenAt (c : Char) (cs : List Char) : Token × List Char :=
  if c = '[' then (.openList, cs)
  else if c = ']' then (.closeList, cs)
  else if c = '\x7b' then (.openObject, cs)
  else if c = '\x7d' then (.closeObject, cs)
  else if c = ',' then (.comma, cs)
  else if c = ':' then (.colon, cs)
  else if c = '"' then string cs
  else if c = 'n' then word ['u', 'l', 'l'] .null cs
  else if c = 't' then word ['r', 'u', 'e'] (.bool true) cs
  else if c = 'f' then word ['a', 'l', 's', 'e'] (.bool false) cs
  else if c = '-' then number true cs
  else if c.isDigit then number false (c :: cs)
  else (.stray, [])

def scanAux : Nat → List Char → List Lexeme
  | 0, _ => []
  | fuel + 1, cs =>
    match cs.dropWhile isSpace with
    | [] => []
    | c :: rest =>
      let (token, after) := tokenAt c rest
      ⟨token, c :: rest⟩ :: scanAux fuel after

def scan (text : List Char) : List Lexeme := scanAux text.length text

end Lexeme

end SettingsSweep.Json
