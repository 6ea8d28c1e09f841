import Mathlib.Data.List.Basic
import LoxFront.Diagnostic.OfFault
import LoxFront.Number.Decimal

namespace LoxFront

theorem toList_toString (n : Nat) : (toString n).toList = Nat.toDigits 10 n := by
  rw [Nat.toString_eq_repr, Nat.repr_eq_ofList_toDigits, String.toList_ofList]

theorem isDigit_of_mem_toString {n : Nat} {c : Char} (h : c ∈ (toString n).toList) :
    c.isDigit = true := by
  rw [toList_toString] at h
  exact Nat.isDigit_of_mem_toDigits (by omega) (by omega) h

theorem not_mem_toString {c : Char} (h : c.isDigit = false) (n : Nat) :
    c ∉ (toString n).toList := by
  intro hc
  rw [isDigit_of_mem_toString hc] at h
  cases h

theorem not_mem_around_toString {c : Char} (h : c.isDigit = false) (n : Nat) {before after : String}
    (hb : c ∉ before.toList) (ha : c ∉ after.toList) :
    c ∉ (before ++ toString n ++ after).toList := by
  rw [String.toList_append, String.toList_append, List.mem_append, List.mem_append]
  rintro ((hc | hc) | hc)
  · exact hb hc
  · exact not_mem_toString h n hc
  · exact ha hc

theorem ofDigitChars_toString (n : Nat) : Nat.ofDigitChars 10 (toString n).toList 0 = n := by
  rw [toList_toString]
  exact Nat.ofDigitChars_ten_toDigits

theorem toDigits_injective : Function.Injective (Nat.toDigits 10) := by
  intro m n h
  calc
    m = Nat.ofDigitChars 10 (Nat.toDigits 10 m) 0 := Nat.ofDigitChars_ten_toDigits.symm
    _ = Nat.ofDigitChars 10 (Nat.toDigits 10 n) 0 := by rw [h]
    _ = n := Nat.ofDigitChars_ten_toDigits

theorem exists_eq_digitChar {base n : Nat} (hbase : 1 < base) {c : Char}
    (h : c ∈ Nat.toDigits base n) : ∃ d < base, c = d.digitChar := by
  induction n using Nat.strongRecOn with
  | ind n ih =>
    rw [Nat.toDigits_eq_if hbase] at h
    split at h
    · next hlt => exact ⟨n, hlt, List.mem_singleton.mp h⟩
    · next hge =>
      rcases List.mem_append.mp h with hinit | hlast
      · exact ih (n / base) (Nat.div_lt_self (by omega) hbase) hinit
      · exact ⟨n % base, Nat.mod_lt n (by omega), List.mem_singleton.mp hlast⟩

theorem isAlphanum_of_mem_codePoint {x c : Char} (h : c ∈ (Cause.codePoint x).toList) :
    c = '+' ∨ c.isAlphanum = true := by
  have hhex : ∀ d < 16, (Nat.digitChar d).toUpper.isAlphanum = true := by decide
  rw [Cause.codePoint, String.toList_append, String.toList_ofList, String.toList_ofList,
    List.mem_append, List.mem_append] at h
  rcases h with hmark | hzero | hdigit
  · rcases List.mem_pair.mp hmark with rfl | rfl
    · exact .inr rfl
    · exact .inl rfl
  · rw [List.eq_of_mem_replicate hzero]
    exact .inr rfl
  · obtain ⟨digit, hd, rfl⟩ := List.mem_map.mp hdigit
    obtain ⟨d, hlt, rfl⟩ := exists_eq_digitChar (by omega) hd
    exact .inr (hhex d hlt)

theorem not_mem_codePoint {c : Char} (hplus : c ≠ '+') (h : c.isAlphanum = false) (x : Char) :
    c ∉ (Cause.codePoint x).toList := by
  intro hc
  rcases isAlphanum_of_mem_codePoint hc with rfl | ha
  · exact hplus rfl
  · rw [ha] at h
    cases h

end LoxFront
