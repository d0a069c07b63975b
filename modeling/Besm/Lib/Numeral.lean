import Mathlib.Data.Nat.Basic
import Mathlib.Data.List.Basic

namespace Besm.Lib.Numeral

def value (b : Nat) (digit : Char → Nat) (cs : List Char) : Nat :=
  cs.foldl (fun n c => n * b + digit c) 0

variable {b : Nat} {digit : Char → Nat}

theorem value_concat (cs : List Char) (c : Char) :
    value b digit (cs ++ [c]) = value b digit cs * b + digit c := by
  simp [value]

/-- Reading undoes writing, in any base of which the digits can be read. -/
theorem value_toDigits (hb : 1 < b) (hdigit : ∀ d < b, digit d.digitChar = d) (n : Nat) :
    value b digit (Nat.toDigits b n) = n := by
  induction n using Nat.strongRecOn with
  | ind n ih =>
    obtain hlt | hle := Nat.lt_or_ge n b
    · rw [Nat.toDigits_of_lt_base hlt]
      simp [value, hdigit n hlt]
    · have hpos : 0 < n := by omega
      rw [Nat.toDigits_of_base_le hb hle, value_concat, ih _ (Nat.div_lt_self hpos hb),
        hdigit _ (Nat.mod_lt n (by omega)), Nat.div_add_mod']

theorem span_append {α : Type} {p : α → Bool} {xs ys : List α} (hx : ∀ x ∈ xs, p x = true)
    (hy : ∀ y, ys.head? = some y → p y = false) :
    (xs ++ ys).takeWhile p = xs ∧ (xs ++ ys).dropWhile p = ys := by
  rw [List.takeWhile_append_of_pos hx, List.dropWhile_append_of_pos hx]
  cases ys with
  | nil => exact ⟨List.append_nil _, rfl⟩
  | cons y ys =>
    have hy := hy y rfl
    rw [List.takeWhile_cons_of_neg (by simp [hy]), List.dropWhile_cons_of_neg (by simp [hy]),
      List.append_nil]
    exact ⟨rfl, rfl⟩

end Besm.Lib.Numeral
