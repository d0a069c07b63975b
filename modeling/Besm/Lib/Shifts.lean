import Mathlib.Algebra.Group.Int.Defs
import Mathlib.Algebra.Group.Nat.Defs
import Mathlib.Data.Nat.Basic

namespace Besm.Lib.Shifts

variable {w : Nat}

theorem setWidth_signExtend {n : Nat} (x : BitVec n) (h : n ≤ w) :
    (x.signExtend w).setWidth n = x := by
  apply BitVec.eq_of_getLsbD_eq
  intro i hi
  rw [BitVec.getLsbD_setWidth, BitVec.getLsbD_signExtend, if_pos hi, decide_eq_true hi,
    decide_eq_true (by omega), Bool.true_and, Bool.true_and]

theorem setWidth_eq_signExtend_iff {n : Nat} (x y : BitVec n) (h : n < w) :
    x.setWidth w = y.signExtend w ↔ x = y ∧ y.msb = false := by
  constructor
  · intro he
    have hx := congrArg (BitVec.setWidth n) he
    have hbit : (x.setWidth w).getLsbD n = (y.signExtend w).getLsbD n := by rw [he]
    rw [setWidth_signExtend y (by omega), BitVec.setWidth_setWidth_of_le _ (by omega),
      BitVec.setWidth_eq] at hx
    rw [BitVec.getLsbD_setWidth, BitVec.getLsbD_signExtend, BitVec.getLsbD_of_ge x n le_rfl,
      if_neg (by omega), decide_eq_true h, Bool.and_false, Bool.true_and] at hbit
    exact ⟨hx, hbit.symm⟩
  · rintro ⟨rfl, hm⟩
    exact (BitVec.signExtend_eq_setWidth_of_msb_false hm).symm

section Narrow

variable (a : BitVec w) {n k : Nat}

/-- A logical shift to the right of the low part alone is that of the whole
exactly if the whole has nothing to shift in from above. -/
theorem ushiftRight_setWidth_iff (hk : k ≤ n) :
    (a >>> k).setWidth n = a.setWidth n >>> k ↔ ∀ i < k, a.getLsbD (n + i) = false := by
  have hbits : ∀ i < n, ((a >>> k).setWidth n).getLsbD i = (a.setWidth n >>> k).getLsbD i ↔
      (n ≤ k + i → a.getLsbD (k + i) = false) := by
    intro i hi
    rw [BitVec.getLsbD_setWidth, BitVec.getLsbD_ushiftRight, BitVec.getLsbD_ushiftRight,
      BitVec.getLsbD_setWidth, decide_eq_true hi, Bool.true_and]
    by_cases hn : k + i < n
    · simp [hn, Nat.not_le.mpr hn]
    · simp [hn, Nat.not_lt.mp hn]
  rw [BitVec.eq_of_getLsbD_eq_iff]
  constructor
  · intro h i hi
    have hb := (hbits (n - k + i) (by omega)).mp (h _ (by omega))
    rw [show k + (n - k + i) = n + i by omega] at hb
    exact hb (by omega)
  · intro h i hi
    refine (hbits i hi).mpr fun hn => ?_
    rw [show k + i = n + (k + i - n) by omega]
    exact h _ (by omega)

theorem msb_ushiftRight_setWidth (hn : 0 < n) :
    (a.setWidth n >>> k).msb = false ↔ k = 0 → a.getLsbD (n - 1) = false := by
  rw [BitVec.msb_ushiftRight, BitVec.msb_eq_getLsbD_last, BitVec.getLsbD_setWidth,
    decide_eq_true (by omega : n - 1 < n), Bool.true_and]
  cases k with
  | zero => simp
  | succ k => simp

theorem sshiftRight_setWidth_iff (hk : k < n) (hw : n + k ≤ w) :
    (a.sshiftRight k).setWidth n = (a.setWidth n).sshiftRight k ∧
        ((a.setWidth n).sshiftRight k).msb = false ↔
      ∀ i ≤ k, a.getLsbD (n - 1 + i) = false := by
  have hmsb : (a.setWidth n).msb = a.getLsbD (n - 1) := by
    rw [BitVec.msb_eq_getLsbD_last, BitVec.getLsbD_setWidth, decide_eq_true (by omega : n - 1 < n),
      Bool.true_and]
  have hbits : a.getLsbD (n - 1) = false → ∀ i < n,
      (((a.sshiftRight k).setWidth n).getLsbD i = ((a.setWidth n).sshiftRight k).getLsbD i ↔
        (n ≤ k + i → a.getLsbD (k + i) = false)) := by
    intro hs i hi
    rw [BitVec.getLsbD_setWidth, BitVec.getLsbD_sshiftRight, BitVec.getLsbD_sshiftRight, hmsb, hs,
      BitVec.getLsbD_setWidth, decide_eq_true hi, if_pos (by omega : k + i < w)]
    by_cases hn : k + i < n
    · simp [hn, show ¬n ≤ k + i by omega, hi, show ¬w ≤ i by omega]
    · simp [hn, show ¬w ≤ i by omega, Nat.not_lt.mp hn]
  rw [BitVec.msb_sshiftRight, hmsb, BitVec.eq_of_getLsbD_eq_iff]
  constructor
  · rintro ⟨h, hs⟩ i hi
    obtain rfl | hpos := Nat.eq_zero_or_pos i
    · exact hs
    · have hb := (hbits hs (n - 1 + i - k) (by omega)).mp (h _ (by omega))
      rw [show k + (n - 1 + i - k) = n - 1 + i by omega] at hb
      exact hb (by omega)
  · intro h
    have hs : a.getLsbD (n - 1) = false := h 0 (Nat.zero_le k)
    refine ⟨fun i hi => (hbits hs i hi).mpr fun hn => ?_, hs⟩
    rw [show k + i = n - 1 + (k + i - (n - 1)) by omega]
    exact h _ (by omega)

theorem msb_shiftLeft_setWidth (hk : k < n) :
    (a.setWidth n <<< k).msb = a.getLsbD (n - 1 - k) := by
  rw [BitVec.msb_eq_getLsbD_last, BitVec.getLsbD_shiftLeft, BitVec.getLsbD_setWidth,
    decide_eq_true (by omega : n - 1 < n), decide_eq_false (by omega : ¬n - 1 < k),
    decide_eq_true (by omega : n - 1 - k < n)]
  rfl

end Narrow

section Again

variable (x : BitVec w) {k d : Nat}

theorem shiftLeft_again_iff (hd : 0 < d) :
    x <<< (k + d) = x <<< k ↔ x <<< k = 0 := by
  rw [BitVec.shiftLeft_add]
  constructor
  · intro h
    apply BitVec.eq_of_getLsbD_eq
    intro i
    induction i using Nat.strong_induction_on with
    | _ i ih =>
      intro hi
      rw [← h, BitVec.getLsbD_shiftLeft]
      by_cases hid : i < d
      · simp [hid]
      · rw [ih (i - d) (by omega) (by omega)]
        simp
  · intro h
    rw [h]
    exact BitVec.zero_shiftLeft d

theorem shiftLeft_eq_zero_iff (hk : k ≤ w) : x <<< k = 0 ↔ x.toNat % 2 ^ (w - k) = 0 := by
  have hpow : 2 ^ w = 2 ^ (w - k) * 2 ^ k := by rw [← Nat.pow_add, Nat.sub_add_cancel hk]
  rw [← BitVec.toNat_inj, BitVec.toNat_shiftLeft, Nat.shiftLeft_eq, hpow, Nat.mul_mod_mul_right]
  change x.toNat % 2 ^ (w - k) * 2 ^ k = 0 % 2 ^ w ↔ _
  rw [Nat.zero_mod, Nat.mul_eq_zero]
  exact or_iff_left (Nat.ne_of_gt (Nat.two_pow_pos k))

theorem ushiftRight_again_iff (hd : 0 < d) : x >>> (k + d) = x >>> k ↔ x.toNat < 2 ^ k := by
  have hone : 2 ^ d ≠ 1 := Nat.ne_of_gt (Nat.one_lt_two_pow (Nat.ne_of_gt hd))
  rw [← BitVec.toNat_inj, BitVec.toNat_ushiftRight, BitVec.toNat_ushiftRight, Nat.shiftRight_add,
    Nat.shiftRight_eq_div_pow _ d, Nat.div_eq_self, or_iff_left hone, Nat.shiftRight_eq_div_pow,
    Nat.div_eq_zero_iff]
  exact or_iff_right (Nat.ne_of_gt (Nat.two_pow_pos k))

theorem ediv_eq_self_iff {y q : Int} (hq : 2 ≤ q) : y / q = y ↔ -1 ≤ y ∧ y ≤ 0 := by
  have hle : y ≤ y / q ↔ y * q ≤ y := Int.le_ediv_iff_mul_le (by omega)
  have hlt : y / q < y + 1 ↔ y < (y + 1) * q := Int.ediv_lt_iff_lt_mul (by omega)
  obtain ⟨c, rfl⟩ : ∃ c : Nat, q = c + 2 := ⟨(q - 2).toNat, by omega⟩
  rw [Int.mul_add] at hle hlt
  constructor
  · intro h
    constructor
    · by_contra hy
      have hneg : (y + 1) * (c : Int) ≤ 0 := Int.mul_nonpos_of_nonpos_of_nonneg (by omega) (by omega)
      omega
    · by_contra hy
      have hpos : 0 ≤ y * (c : Int) := Int.mul_nonneg (by omega) (by omega)
      omega
  · rintro ⟨hlow, hhigh⟩
    have hcases : y = -1 ∨ y = 0 := by omega
    obtain rfl | rfl := hcases
    · omega
    · exact Int.zero_ediv _

theorem sshiftRight_again_iff (hd : 0 < d) : x.sshiftRight (k + d) = x.sshiftRight k ↔
    -(2 ^ k : Int) ≤ x.toInt ∧ x.toInt < 2 ^ k := by
  have hpow : (0 : Int) < 2 ^ k := Int.pow_pos (by decide)
  have htwo : (2 : Int) ≤ ((2 ^ d : Nat) : Int) := by
    have h := Nat.pow_le_pow_right (n := 2) (by decide) hd
    omega
  have hlow : -1 ≤ x.toInt / 2 ^ k ↔ -1 * 2 ^ k ≤ x.toInt := Int.le_ediv_iff_mul_le hpow
  have hhigh : x.toInt / 2 ^ k < 1 ↔ x.toInt < 1 * 2 ^ k := Int.ediv_lt_iff_lt_mul hpow
  rw [← BitVec.toInt_inj, BitVec.toInt_sshiftRight, BitVec.toInt_sshiftRight, Int.shiftRight_add,
    Int.shiftRight_eq_div_pow _ d, ediv_eq_self_iff htwo, Int.shiftRight_eq_div_pow]
  push_cast
  omega

end Again

end Besm.Lib.Shifts
