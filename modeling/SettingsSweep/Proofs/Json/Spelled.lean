import SettingsSweep.Json.Printer
import SettingsSweep.Proofs.Json.Scan

/-!
The tokens of what a printer writes: blanks, punctuation, strings and words. Each is over where its text is, whatever
comes after it; only a number can go on.
-/

set_option autoImplicit false

namespace SettingsSweep.Json

namespace Lexeme

/-- The tokens of a text, whatever comes after it. -/
def Marks (text : List Char) (ts : List Token) : Prop :=
  ∀ more, tokens? (text ++ more) = (tokens? more).map (ts ++ ·)

/-- The tokens of a text, unless a number that it ends with goes on. -/
def Spells (text : List Char) (ts : List Token) : Prop :=
  ∀ more, (∀ b ∈ more.head?, EndsNumber b) → tokens? (text ++ more) = (tokens? more).map (ts ++ ·)

section

variable {text other : List Char} {ts us : List Token}

theorem marks_nil : Marks [] [] := fun more => by simp

theorem Marks.spells (h : Marks text ts) : Spells text ts := fun more _ => h more

theorem Marks.append (h : Marks text ts) (h' : Marks other us) : Marks (text ++ other) (ts ++ us) := by
  intro more
  rw [List.append_assoc, h, h', Option.map_map]
  simp [Function.comp_def]

theorem Spells.append (h : Spells text ts) (h' : Marks other us) {b : Char} (head : other.head? = some b)
    (ends : EndsNumber b) : Marks (text ++ other) (ts ++ us) := by
  intro more
  rw [List.append_assoc, h, h', Option.map_map]
  · simp [Function.comp_def]
  · rintro c hc
    rw [List.head?_append, head] at hc
    cases hc
    exact ends

theorem Spells.tokens? (h : Spells text ts) : tokens? text = some ts := by
  have whole := h [] (by simp)
  rw [List.append_nil] at whole
  rw [whole, tokens?_eq]
  simp

end

theorem tokens?_cons {c : Char} (solid : isSpace c = false) (cs : List Char) :
    tokens? (c :: cs) = (taken? (tokenAt c cs)).bind fun (t, after) => (tokens? after).map (t :: ·) := by
  rw [tokens?_eq, List.dropWhile_cons_of_neg (by simp [solid])]

theorem marks_space {c : Char} (space : isSpace c = true) : Marks [c] [] := by
  intro more
  rw [List.singleton_append, tokens?_congr (List.dropWhile_cons_of_pos space)]
  simp

theorem marks_indent (level : Nat) : Marks (indent level).toList [] := by
  rw [indent, String.toList_ofList]
  induction 2 * level with
  | zero => exact marks_nil
  | succ n ih => exact (marks_space rfl).append ih

def symbols : List (Char × Token) :=
  [('[', .openList), (']', .closeList), ('\x7b', .openObject), ('\x7d', .closeObject), (',', .comma), (':', .colon)]

theorem marks_symbol {c : Char} {t : Token} (h : (c, t) ∈ symbols) : Marks [c] [t] := by
  intro more
  simp only [symbols, List.mem_cons, Prod.mk.injEq, List.not_mem_nil, or_false] at h
  rcases h with ⟨rfl, rfl⟩ | ⟨rfl, rfl⟩ | ⟨rfl, rfl⟩ | ⟨rfl, rfl⟩ | ⟨rfl, rfl⟩ | ⟨rfl, rfl⟩ <;> exact tokens?_cons rfl more

theorem codeUnit?_hexDigit {n : Nat} (small : n < 0x20) :
    codeUnit? '0' '0' (hexDigit (n / 16)) (hexDigit (n % 16)) = some n := by
  revert n
  decide

/-- What is escaped is read as what it stands for. -/
theorem content?_escapeChar (c : Char) (rest : List Char) :
    content? true (escapeChar c ++ rest) = some (c, rest) := by
  unfold escapeChar
  split_ifs with h1 h2 h3 h4 h5 h6 h7 h8
  · subst h1; rfl
  · subst h2; rfl
  · subst h3; rfl
  · subst h4; rfl
  · subst h5; rfl
  · subst h6; rfl
  · subst h7; rfl
  · have low : isLowSurrogate c.toNat = false := by simp [isLowSurrogate]; omega
    have high : isHighSurrogate c.toNat = false := by simp [isHighSurrogate]; omega
    simp [content?, escaped?, escape, codeUnit?_hexDigit h8, Except.toOption, low, high]
  · simp [content?, h2, h8]

theorem exists_escapeChar (c : Char) : ∃ d ds, escapeChar c = d :: ds ∧ d ≠ '"' := by
  unfold escapeChar
  split_ifs with h1
  all_goals exact ⟨_, _, rfl, by first | decide | assumption⟩

theorem stringBody_escaped (chars more : List Char) {fuel : Nat}
    (enough : (chars.flatMap escapeChar ++ '"' :: more).length ≤ fuel) :
    (stringBody true fuel (chars.flatMap escapeChar ++ '"' :: more)).toOption = some (chars, more) := by
  induction chars generalizing fuel with
  | nil =>
    obtain ⟨fuel, rfl⟩ : ∃ k, fuel = k + 1 := ⟨fuel - 1, by simp at enough; omega⟩
    rfl
  | cons c chars ih =>
    obtain ⟨d, ds, escaped, plain⟩ := exists_escapeChar c
    have read := content?_escapeChar c (chars.flatMap escapeChar ++ '"' :: more)
    rw [List.flatMap_cons, List.append_assoc, escaped, List.cons_append] at enough ⊢
    rw [escaped, List.cons_append] at read
    rw [List.length_cons, List.length_append] at enough
    obtain ⟨fuel, rfl⟩ : ∃ k, fuel = k + 1 := ⟨fuel - 1, by omega⟩
    rw [toOption_stringBody, if_neg plain, read]
    simp only [Option.bind_some]
    rw [ih (by omega)]
    rfl

theorem marks_quote (s : String) : Marks (quote s).toList [.text s] := by
  intro more
  have read := stringBody_escaped s.toList more (Nat.le_refl _)
  rw [quote, String.toList_ofList, List.cons_append, List.append_assoc, List.singleton_append,
    tokens?_cons rfl, show tokenAt '"' = string from rfl, taken?_string, read]
  simp

theorem taken?_word (expected : List Char) {value : Json} (more : List Char) :
    taken? (word expected value (expected ++ more)) = some (.plain value, more) := by
  induction expected with
  | nil => cases more <;> rfl
  | cons e es ih => rw [List.cons_append, word, if_pos rfl, ih]

theorem marks_word {c : Char} {expected : List Char} {value : Json} (solid : isSpace c = false)
    (starts : tokenAt c = word expected value) : Marks (c :: expected) [.plain value] := by
  intro more
  rw [List.cons_append, tokens?_cons solid, starts, taken?_word]
  rfl

theorem marks_null : Marks ['n', 'u', 'l', 'l'] [.plain .null] := marks_word rfl rfl

theorem marks_ofBool (b : Bool) : Marks (ofBool b).toList [.plain (.bool b)] := by
  cases b with
  | false => exact marks_word rfl rfl
  | true => exact marks_word rfl rfl

end Lexeme

end SettingsSweep.Json
