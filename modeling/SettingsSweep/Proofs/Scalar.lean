import SettingsSweep.Proofs.Number.Value
import SettingsSweep.Scalar

/-!
When scalar values are the same: by comparison, by key, and by what is written for them.
-/

set_option autoImplicit false

namespace SettingsSweep

namespace Json

theorem ofNumber_cases (x : Binary64) :
    (∃ n, x.toInt? = some n ∧ ofNumber x = .int n) ∨ ofNumber x = .real x ∨
      x.isFinite = false ∧ ofNumber x = .null := by
  unfold ofNumber
  cases hi : x.toInt? with
  | some n =>
    by_cases hn : n.natAbs ≤ maxSafeInteger
    · exact .inl ⟨n, rfl, by simp [hn]⟩
    · exact .inr (.inl (by simp [hn]))
  | none =>
    cases hf : x.isFinite with
    | true => exact .inr (.inl (by simp))
    | false => exact .inr (.inr ⟨rfl, by simp⟩)

theorem eq_or_isZero_of_ofNumber_eq {x y : Binary64} (hx : x.isFinite = true)
    (hy : y.isFinite = true) (h : ofNumber x = ofNumber y) :
    x = y ∨ x.isZero = true ∧ y.isZero = true := by
  rcases ofNumber_cases x with ⟨m, hm, ex⟩ | ex | ⟨nx, -⟩
  · rcases ofNumber_cases y with ⟨n, hn, ey⟩ | ey | ⟨ny, -⟩
    · rw [ex, ey] at h
      obtain rfl := Json.int.inj h
      apply Binary64.toRat_inj hx hy
      rw [Binary64.toRat_of_toInt? hm, Binary64.toRat_of_toInt? hn]
    · rw [ex, ey] at h
      cases h
    · rw [hy] at ny
      cases ny
  · rcases ofNumber_cases y with ⟨n, hn, ey⟩ | ey | ⟨ny, -⟩
    · rw [ex, ey] at h
      cases h
    · rw [ex, ey] at h
      exact .inl (Json.real.inj h)
    · rw [hy] at ny
      cases ny
  · rw [hx] at nx
    cases nx

theorem ofNumber_of_not_isFinite {x : Binary64} (h : x.isFinite = false) : ofNumber x = .null := by
  cases x with
  | finite s m e c => cases h
  | infinite s => rfl
  | nan => rfl

theorem ofNumber_ne_null {x : Binary64} (h : x.isFinite = true) : ofNumber x ≠ .null := by
  rcases ofNumber_cases x with ⟨n, -, e⟩ | e | ⟨hn, -⟩
  · rw [e]
    simp
  · rw [e]
    simp
  · rw [h] at hn
    cases hn

theorem isFinite_eq_of_ofNumber_eq {x y : Binary64} (h : ofNumber x = ofNumber y) :
    x.isFinite = y.isFinite := by
  cases hx : x.isFinite with
  | true =>
    cases hy : y.isFinite with
    | true => rfl
    | false => exact absurd (h.trans (ofNumber_of_not_isFinite hy)) (ofNumber_ne_null hx)
  | false =>
    cases hy : y.isFinite with
    | true => exact absurd (h.symm.trans (ofNumber_of_not_isFinite hx)) (ofNumber_ne_null hy)
    | false => rfl

theorem ofNumber_of_isZero {x : Binary64} (h : x.isZero = true) : ofNumber x = .int 0 := by
  cases x with
  | finite s m e c =>
    obtain rfl : m = 0 := by simpa [Binary64.isZero] using h
    have whole : Binary64.toInt? (.finite s 0 e c) = some 0 := by
      by_cases he : e < 0 <;> cases s <;> simp [Binary64.toInt?, Binary64.wholePart, he]
    rw [ofNumber, whole]
    rfl
  | infinite s => cases h
  | nan => cases h

theorem ofNumber_ne_bool (x : Binary64) (b : Bool) : ofNumber x ≠ .bool b := by
  rcases ofNumber_cases x with ⟨n, -, e⟩ | e | ⟨-, e⟩ <;> rw [e] <;> intro h <;> cases h

theorem ofNumber_ne_str (x : Binary64) (s : String) : ofNumber x ≠ .str s := by
  rcases ofNumber_cases x with ⟨n, -, e⟩ | e | ⟨-, e⟩ <;> rw [e] <;> intro h <;> cases h

end Json

namespace Scalar

def isFinite : Scalar → Bool
  | .number x => x.isFinite
  | _ => true

theorem key_number_eq {x y : Binary64} (h : x = y ∨ x.isZero = true ∧ y.isZero = true) :
    (Scalar.number x).key = (Scalar.number y).key := by
  rcases h with rfl | ⟨hx, hy⟩
  · rfl
  · simp [key, hx, hy]

theorem key_eq_of_same {v w : Scalar} (h : v.same w = true) : v.key = w.key := by
  cases v with
  | number x =>
    cases w with
    | number y => exact key_number_eq (Binary64.eq_or_isZero_of_same h)
    | bool b => cases h
    | text t => cases h
  | bool a =>
    cases w with
    | number y => cases h
    | bool b => simpa [same, key] using h
    | text t => cases h
  | text s =>
    cases w with
    | number y => cases h
    | bool b => cases h
    | text t => simpa [same, key] using h

theorem toJson_eq_of_key_eq {v w : Scalar} (h : v.key = w.key) : v.toJson = w.toJson := by
  have written (u : Scalar) : u.key.toJson = u.toJson := by
    cases u with
    | number x =>
      rw [key]
      split
      · next hz =>
        have hn : (Binary64.zero false).isZero = true := by decide
        rw [toJson, toJson, Json.ofNumber_of_isZero hz, Json.ofNumber_of_isZero hn]
      · rfl
    | bool b => rfl
    | text s => rfl
  rw [← written v, h, written w]

/-- Values that are written alike are the same, unless neither is finite. -/
theorem key_eq_of_toJson_eq {v w : Scalar} (hf : v.isFinite = true ∨ w.isFinite = true)
    (h : v.toJson = w.toJson) : v.key = w.key := by
  cases v with
  | number x =>
    cases w with
    | number y =>
      have he : x.isFinite = y.isFinite := Json.isFinite_eq_of_ofNumber_eq h
      rcases hf with hx | hy
      · exact key_number_eq (Json.eq_or_isZero_of_ofNumber_eq hx (he.symm.trans hx) h)
      · exact key_number_eq (Json.eq_or_isZero_of_ofNumber_eq (he.trans hy) hy h)
    | bool b => exact absurd h (Json.ofNumber_ne_bool x b)
    | text t => exact absurd h (Json.ofNumber_ne_str x t)
  | bool a =>
    cases w with
    | number y => exact absurd h.symm (Json.ofNumber_ne_bool y a)
    | bool b => simpa [toJson, key] using h
    | text t => cases h
  | text s =>
    cases w with
    | number y => exact absurd h.symm (Json.ofNumber_ne_str y s)
    | bool b => cases h
    | text t => simpa [toJson, key] using h

end Scalar

end SettingsSweep
