import Mathlib.Algebra.Group.Nat.Defs
import Mathlib.Data.Nat.Basic

namespace Besm.Util

variable {w : Nat}

def is2Pow (value : BitVec w) : Bool := value = 0 || value &&& (value - 1) = 0

def nearest2PowDivident (value divider2pow : BitVec w) : BitVec w :=
  (value + divider2pow) &&& ~~~(divider2pow - 1)

theorem exists_pow_of_is2Pow {value : BitVec w} (hne : value ≠ 0) (h : is2Pow value = true) :
    ∃ k < w, value.toNat = 2 ^ k := by
  have hpos : value.toNat ≠ 0 := fun h0 => hne (BitVec.eq_of_toNat_eq (by simpa using h0))
  have hand : value &&& (value - 1) = 0 := by
    obtain h0 | h0 := Bool.or_eq_true _ _ |>.mp h
    · exact absurd (of_decide_eq_true h0) hne
    · exact of_decide_eq_true h0
  have hone : (1 : BitVec w).toNat = 1 := by
    have hlt := value.isLt
    cases w with
    | zero => omega
    | succ w => exact Nat.mod_eq_of_lt (Nat.one_lt_two_pow (Nat.succ_ne_zero w))
  have hsub : (value - 1).toNat = value.toNat - 1 := by
    rw [BitVec.toNat_sub_of_le (by rw [BitVec.le_def, hone]; omega), hone]
  have hnat : value.toNat &&& (value.toNat - 1) = 0 := by
    rw [← hsub, ← BitVec.toNat_and, hand]
    rfl
  obtain ⟨k, hk⟩ := (Nat.and_sub_one_eq_zero_iff_isPowerOfTwo hpos).mp hnat
  exact ⟨k, (Nat.pow_lt_pow_iff_right (by omega : 1 < 2)).mp (hk ▸ value.isLt), hk⟩

theorem and_not_add_and (x m : BitVec w) : (x &&& ~~~m) + (x &&& m) = x := by
  have hzero : (x &&& ~~~m) &&& (x &&& m) = 0#w := by
    ext i hi
    cases hm : m[i] <;> simp [hm]
  rw [BitVec.add_eq_or_of_and_eq_zero _ _ hzero]
  ext i hi
  cases hm : m[i] <;> simp [hm]

/-- Rounding goes up by at most a divider, unless it wraps around to zero. -/
theorem lt_nearest2PowDivident {value divider : BitVec w} (hdiv : is2Pow divider = true)
    (hpos : 0 < (nearest2PowDivident value divider).toNat) :
    value.toNat < (nearest2PowDivident value divider).toNat := by
  by_cases hd : divider = 0
  · subst hd
    have hzero : nearest2PowDivident value 0#w = 0#w := by
      rw [nearest2PowDivident, BitVec.add_zero, BitVec.sub_eq_add_neg, BitVec.zero_add,
        show (-1 : BitVec w) = BitVec.allOnes w from BitVec.neg_one_eq_allOnes, BitVec.not_allOnes,
        BitVec.and_zero]
    rw [show (0 : BitVec w) = 0#w from rfl, hzero] at hpos
    exact absurd hpos (by simp)
  · obtain ⟨k, hk, hpow⟩ := exists_pow_of_is2Pow hd hdiv
    have hw := Nat.pow_lt_pow_right (by omega : 1 < 2) hk
    have hmask : (divider - 1).toNat = 2 ^ k - 1 := by
      have hone : (1 : BitVec w).toNat = 1 := Nat.mod_eq_of_lt (Nat.one_lt_two_pow (by omega))
      have hposk := Nat.two_pow_pos k
      rw [BitVec.toNat_sub_of_le (by rw [BitVec.le_def, hone]; omega), hone, hpow]
    have hlow : ((value + divider) &&& (divider - 1)).toNat = (value + divider).toNat % 2 ^ k := by
      rw [BitVec.toNat_and, hmask, Nat.and_two_pow_sub_one_eq_mod]
    have hsum := congrArg BitVec.toNat (and_not_add_and (value + divider) (divider - 1))
    have hle : (nearest2PowDivident value divider).toNat ≤ (value + divider).toNat := by
      unfold nearest2PowDivident
      rw [BitVec.toNat_and]
      exact Nat.and_le_left
    have hrest := Nat.mod_lt (value + divider).toNat (Nat.two_pow_pos k)
    have hsmall : (value + divider).toNat < 2 ^ k →
        (value + divider).toNat % 2 ^ k = (value + divider).toNat := Nat.mod_eq_of_lt
    have hlt := (value + divider).isLt
    rw [← nearest2PowDivident, BitVec.toNat_add, hlow] at hsum
    have hexact : (nearest2PowDivident value divider).toNat + (value + divider).toNat % 2 ^ k =
        (value + divider).toNat := by
      rw [Nat.mod_eq_of_lt] at hsum
      · exact hsum
      · by_contra hge
        rw [Nat.mod_eq_sub_mod (by omega), Nat.mod_eq_of_lt (by omega)] at hsum
        omega
    have hadd : (value + divider).toNat = value.toNat + 2 ^ k ∨
        (value + divider).toNat + 2 ^ w = value.toNat + 2 ^ k := by
      have hv := value.isLt
      rw [BitVec.toNat_add, hpow]
      by_cases hwrap : value.toNat + 2 ^ k < 2 ^ w
      · exact .inl (Nat.mod_eq_of_lt hwrap)
      · rw [Nat.mod_eq_sub_mod (by omega), Nat.mod_eq_of_lt (by omega)]
        exact .inr (by omega)
    have hv := value.isLt
    omega

end Besm.Util
