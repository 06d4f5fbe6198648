/-!
White space as Unicode defines it, and texts without it at their ends.
-/

set_option autoImplicit false

namespace SettingsSweep.Text

/-- The characters with the property `White_Space`. -/
def isBlank (c : Char) : Bool :=
  let n := c.toNat
  (9 ≤ n && n ≤ 13) || n == 0x20 || n == 0x85 || n == 0xA0 || n == 0x1680 ||
    (0x2000 ≤ n && n ≤ 0x200A) || n == 0x2028 || n == 0x2029 || n == 0x202F ||
    n == 0x205F || n == 0x3000

def skipBlank (text : List Char) : List Char := text.dropWhile isBlank

def dropBlankEnd (text : List Char) : List Char := (text.reverse.dropWhile isBlank).reverse

def trimChars (text : List Char) : List Char := dropBlankEnd (skipBlank text)

def trim (text : String) : String := String.ofList (trimChars text.toList)

def isBlankText (text : String) : Bool := text.toList.all isBlank

def opensWith (start : List Char) (text : List Char) : Bool :=
  start.isPrefixOf (skipBlank text)

theorem opensWith_iff {start : List Char} (solid : ∀ c ∈ start.head?, isBlank c = false)
    (text : List Char) : opensWith start text = true ↔
      ∃ blank body, blank.all isBlank = true ∧ text = blank ++ start ++ body := by
  rw [opensWith, List.isPrefixOf_iff_prefix]
  constructor
  · rintro ⟨body, h⟩
    refine ⟨text.takeWhile isBlank, body, List.all_takeWhile, ?_⟩
    rw [List.append_assoc, h]
    exact List.takeWhile_append_dropWhile.symm
  · rintro ⟨blank, body, hb, rfl⟩
    rw [skipBlank, List.append_assoc, List.dropWhile_append_of_pos (List.all_eq_true.1 hb)]
    cases start with
    | nil => exact List.nil_prefix
    | cons c cs =>
      rw [List.cons_append, List.dropWhile_cons_of_neg (by simp [solid c rfl])]
      exact ⟨body, rfl⟩

def lower (text : String) : String := String.ofList (text.toList.map Char.toLower)

def upper (text : String) : String := String.ofList (text.toList.map Char.toUpper)

end SettingsSweep.Text
