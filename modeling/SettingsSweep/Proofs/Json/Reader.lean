import SettingsSweep.Json.Reader
import SettingsSweep.Proofs.Json.Scan

/-!
The reader as a function of the tokens. A token that cannot be read is a fault in every state, so a text is read
if all its tokens can be read, and to the value that these spell (`ofText_eq_ok_iff`).
-/

set_option autoImplicit false

namespace SettingsSweep.Json

/-- The value that tokens spell when they are read on from a state, all of them and nothing more. -/
def valueOf? : Reading → List Token → Option Json
  | _, [] => none
  | state, t :: rest =>
    match step state t with
    | .error _ => none
    | .ok (.inr value) => if rest.isEmpty then some value else none
    | .ok (.inl next) => valueOf? next rest

theorem step_stray (state : Reading) : ∃ cause, step state .stray = .error cause := by
  cases state with
  | itemOrEnd stack =>
    rcases stack with _ | ⟨_ | _, _⟩ <;> exact ⟨_, rfl⟩
  | _ => exact ⟨_, rfl⟩

theorem readFrom_cons_of_readable {lexeme : Lexeme} (h : lexeme.token.isReadable = true)
    (state : Reading) (rest : List Lexeme) :
    (readFrom state (lexeme :: rest)).toOption =
      match step state lexeme.token with
      | .error _ => none
      | .ok (.inr value) => some (value, rest)
      | .ok (.inl next) => (readFrom next rest).toOption := by
  obtain ⟨t, start⟩ := lexeme
  cases t with
  | refused _ _ => cases h
  | broken _ _ => cases h
  | _ =>
    rw [readFrom]
    dsimp only
    split <;> simp_all [Except.toOption]

theorem readFrom_cons_of_not_readable {lexeme : Lexeme} (h : lexeme.token.isReadable = false)
    (state : Reading) (rest : List Lexeme) :
    (readFrom state (lexeme :: rest)).toOption = none := by
  obtain ⟨cause, hc⟩ := step_stray state
  obtain ⟨t, start⟩ := lexeme
  unfold readFrom
  cases t with
  | refused _ _ | broken _ _ =>
    dsimp only
    rw [hc]
    split <;> rfl
  | stray =>
    dsimp only
    rw [hc]
    rfl
  | _ => cases h

theorem readFrom_eq_some_iff (state : Reading) (lexemes : List Lexeme) (value : Json) :
    (readFrom state lexemes).toOption = some (value, []) ↔
      (lexemes.mapM Lexeme.token?).bind (valueOf? state) = some value := by
  induction lexemes generalizing state with
  | nil => simp [readFrom, Except.toOption, valueOf?]
  | cons lexeme rest ih =>
    rw [Lexeme.mapM_token?_cons]
    cases readable : lexeme.token.isReadable with
    | false => simp [readFrom_cons_of_not_readable readable]
    | true =>
      rw [readFrom_cons_of_readable readable, if_pos rfl, Option.bind_map]
      simp only [Function.comp_def, valueOf?]
      split
      · simp
      · next last _ =>
        cases rest with
        | nil => simp
        | cons next rest =>
          rw [Lexeme.mapM_token?_cons]
          split
          · simp [Option.bind_eq_some_iff]
          · simp
      · exact ih _

theorem ofText_eq_ok_iff (text : List Char) (value : Json) : ofText text = .ok value ↔
    (Lexeme.tokens? text).bind (valueOf? (.value [])) = some value := by
  rw [Lexeme.tokens?, ← readFrom_eq_some_iff]
  unfold ofText readValue
  rcases readFrom (.value []) (Lexeme.scan text) with fault | ⟨read, _ | ⟨next, rest⟩⟩
  · simp [Except.toOption, bind, Except.bind]
  · simp [Except.toOption, bind, Except.bind, atEnd]
  · simp [Except.toOption, bind, Except.bind, atEnd]

end SettingsSweep.Json
