import SettingsSweep.Proofs.Json.Reader

/-!
A text that spells an object opens with a brace. Only the brace is the token that opens an object, no token is an
object of its own, and what is opened as a list ends as one.
-/

set_option autoImplicit false

namespace SettingsSweep.Json

/-- The outermost container is a list. -/
def WithinList : List Frame → Prop
  | [] => False
  | [.list _] => True
  | [.object ..] => False
  | _ :: frame :: rest => WithinList (frame :: rest)

/-- The open containers, with the one that a state has at hand. -/
def Reading.frames : Reading → List Frame
  | .value stack | .itemOrEnd stack | .itemAfterComma stack => stack
  | .afterItem items stack => .list items :: stack
  | .keyOrEnd stack => .object [] "" :: stack
  | .colon members key stack => .object members key :: stack
  | .afterMember members stack | .keyAfterComma members stack => .object members "" :: stack

def EndsAsList : Reading ⊕ Json → Prop
  | .inl next => WithinList next.frames
  | .inr value => value.object? = none

theorem withinList_cons_cons (frame next : Frame) (stack : List Frame) :
    WithinList (frame :: next :: stack) ↔ WithinList (next :: stack) := by
  cases frame <;> exact Iff.rfl

theorem withinList_cons {frame : Frame} {stack : List Frame} (h : WithinList stack) :
    WithinList (frame :: stack) := by
  cases stack with
  | nil => exact absurd h id
  | cons next stack => exact (withinList_cons_cons frame next stack).2 h

theorem endsAsList_close {stack : List Frame} (h : WithinList stack) (value : Json) :
    EndsAsList (close value stack) := by
  rcases stack with _ | ⟨frame, _ | ⟨next, stack⟩⟩
  · exact absurd h id
  · cases frame with
    | list items => exact h
    | object members key => exact absurd h id
  · rw [withinList_cons_cons] at h
    cases frame with
    | list items => exact (withinList_cons_cons _ next stack).2 h
    | object members key => exact (withinList_cons_cons _ next stack).2 h

theorem withinList_of_object {members : Document} {key : String} {stack : List Frame}
    (h : WithinList (.object members key :: stack)) : WithinList stack := by
  cases stack with
  | nil => exact absurd h id
  | cons next stack => exact h

/-- The end of a container is the end of its list, or the list goes on around it. -/
theorem endsAsList_close_list {items : List Json} {stack : List Frame}
    (h : WithinList (.list items :: stack)) (values : List Json) :
    EndsAsList (close (.arr values) stack) := by
  cases stack with
  | nil => rfl
  | cons next stack => exact endsAsList_close ((withinList_cons_cons _ next stack).1 h) (.arr values)

theorem endsAsList_openValue {stack : List Frame} (h : WithinList stack) {t : Token}
    {r : Reading ⊕ Json} (hr : openValue stack t = .ok r) : EndsAsList r := by
  cases t with
  | plain value =>
    cases hr
    exact endsAsList_close h value
  | text s =>
    cases hr
    exact endsAsList_close h (.str s)
  | openList =>
    rw [openValue] at hr
    split at hr
    · cases hr
      exact withinList_cons h
    · cases hr
  | openObject =>
    rw [openValue] at hr
    split at hr
    · cases hr
      exact withinList_cons h
    · cases hr
  | _ => cases hr

theorem endsAsList_step {state : Reading} (h : WithinList state.frames) {t : Token}
    {r : Reading ⊕ Json} (hr : step state t = .ok r) : EndsAsList r := by
  unfold step at hr
  split at hr
  case h_1 => exact endsAsList_openValue h hr
  case h_2 =>
    cases hr
    exact endsAsList_close_list h _
  case h_3 => exact endsAsList_openValue h hr
  case h_4 =>
    cases hr
    exact endsAsList_close_list h _
  case h_8 => exact endsAsList_openValue h hr
  -- An object that is closed, or goes on, has a list around it.
  case h_9 | h_14 =>
    cases hr
    exact endsAsList_close (withinList_of_object h) _
  case h_10 | h_17 =>
    cases hr
    exact withinList_cons (withinList_of_object h)
  all_goals
    cases hr
    try exact h

theorem object?_of_valueOf? {state : Reading} (h : WithinList state.frames) {ts : List Token}
    {value : Json} (read : valueOf? state ts = some value) : value.object? = none := by
  induction ts generalizing state with
  | nil => cases read
  | cons t ts ih =>
    rw [valueOf?] at read
    split at read
    · cases read
    · next ended hr =>
      split at read
      · cases read
        exact endsAsList_step h hr
      · cases read
    · next next hr => exact ih (endsAsList_step h hr) read

theorem startsObject_of_valueOf? {t : Token} {ts : List Token} {members : Document}
    (read : valueOf? (.value []) (t :: ts) = some (.obj members)) : t.startsObject = true := by
  cases t with
  | openObject => rfl
  | plain value =>
    simp [valueOf?, step, openValue, close] at read
    rw [read.2]
    rfl
  | text s => simp [valueOf?, step, openValue, close] at read
  | openList =>
    have within : WithinList (Reading.itemOrEnd [.list []]).frames := trivial
    cases object?_of_valueOf? within read
  | _ => cases read

theorem opensWith_brace {text : List Char} {members : Document}
    (h : ofText text = .ok (.obj members)) : Text.opensWith ['\x7b'] text = true := by
  rw [ofText_eq_ok_iff] at h
  obtain ⟨ts, tokens, read⟩ := Option.bind_eq_some_iff.1 h
  rw [Lexeme.tokens?_eq] at tokens
  cases hs : text.dropWhile Lexeme.isSpace with
  | nil =>
    rw [hs] at tokens
    cases tokens
    cases read
  | cons c rest =>
    rw [hs] at tokens
    obtain ⟨⟨t, after⟩, taken, tokens⟩ := Option.bind_eq_some_iff.1 tokens
    obtain ⟨ts, -, rfl⟩ := Option.map_eq_some_iff.1 tokens
    obtain rfl : c = '\x7b' := by
      unfold Lexeme.taken? at taken
      split at taken
      · have first := Option.some.inj taken
        apply @Lexeme.eq_brace_of_startsObject c rest
        rw [first]
        exact startsObject_of_valueOf? read
      · cases taken
    have blank : (text.takeWhile Lexeme.isSpace).all Text.isBlank = true := by
      rw [List.all_eq_true]
      exact fun d hd => Lexeme.isBlank_of_isSpace (List.all_eq_true.1 List.all_takeWhile d hd)
    rw [Text.opensWith_iff (by rintro _ ⟨⟩; rfl)]
    refine ⟨_, rest, blank, ?_⟩
    rw [List.append_assoc, List.singleton_append, ← hs]
    exact List.takeWhile_append_dropWhile.symm

end SettingsSweep.Json
