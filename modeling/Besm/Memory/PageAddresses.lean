import Besm.Memory.Ram

namespace Besm.Mem.RAM

open Besm.Util

theorem pageSize_pos (r : RAM) : 0 < r.pageSize.toNat := by
  refine Nat.pos_of_ne_zero fun h0 => r.pageSize_ne_zero (BitVec.eq_of_toNat_eq ?_)
  simpa using h0

variable {r : RAM} {a x : RV64Ptr} {i n : Nat}

theorem pageSize_dvd (r : RAM) : r.pageSize.toNat ∣ 2 ^ 64 := by
  obtain ⟨k, hk, hpow⟩ := exists_pow_of_is2Pow r.pageSize_ne_zero r.pageSize_pow2
  rw [hpow]
  exact Nat.pow_dvd_pow 2 (Nat.le_of_lt hk)

theorem pageSize_cases (r : RAM) :
    r.pageSize.toNat = 1 ∨ r.pageSize.toNat = 2 ∨ 4 ∣ r.pageSize.toNat := by
  obtain ⟨k, -, hpow⟩ := exists_pow_of_is2Pow r.pageSize_ne_zero r.pageSize_pow2
  rw [hpow]
  obtain _ | _ | k := k
  · exact .inl rfl
  · exact .inr (.inl rfl)
  · exact .inr (.inr (Nat.pow_dvd_pow 2 (Nat.le_add_left 2 k)))

theorem toNat_getPageOffset (r : RAM) (a : RV64Ptr) :
    (r.getPageOffset a).toNat = a.toNat % r.pageSize.toNat :=
  BitVec.toNat_umod

theorem toNat_getPageId (r : RAM) (a : RV64Ptr) :
    (r.getPageId a).toNat = a.toNat / r.pageSize.toNat :=
  BitVec.toNat_udiv

theorem getPageOffset_lt (r : RAM) (a : RV64Ptr) :
    (r.getPageOffset a).toNat < r.pageSize.toNat := by
  rw [toNat_getPageOffset]
  exact Nat.mod_lt _ r.pageSize_pos

theorem validateAddressAlignment_ok {w : Width} (hal : a.toNat % w.size = 0) :
    validateAddressAlignment w a = .ok () :=
  if_neg (not_not.mpr hal)

theorem toNat_add_within (h : (r.getPageOffset a).toNat + i < r.pageSize.toNat) :
    (a + BitVec.ofNat 64 i).toNat = a.toNat + i := by
  obtain ⟨k, hk⟩ := r.pageSize_dvd
  rw [toNat_getPageOffset] at h
  have hlt := a.isLt
  have hdiv := Nat.div_add_mod a.toNat r.pageSize.toNat
  have hq : a.toNat / r.pageSize.toNat < k := by
    rw [Nat.div_lt_iff_lt_mul r.pageSize_pos, Nat.mul_comm, ← hk]
    exact hlt
  have hle : r.pageSize.toNat * (a.toNat / r.pageSize.toNat) + r.pageSize.toNat ≤ 2 ^ 64 := by
    rw [hk, ← Nat.mul_succ]
    exact Nat.mul_le_mul_left _ hq
  have hsum : a.toNat + i < 2 ^ 64 := by omega
  rw [BitVec.toNat_add, BitVec.toNat_ofNat, Nat.mod_eq_of_lt (by omega : i < 2 ^ 64),
    Nat.mod_eq_of_lt hsum]

theorem getPage_add_within (h : (r.getPageOffset a).toNat + i < r.pageSize.toNat) :
    r.getPageId (a + BitVec.ofNat 64 i) = r.getPageId a ∧
      (r.getPageOffset (a + BitVec.ofNat 64 i)).toNat = (r.getPageOffset a).toNat + i := by
  have hsum := toNat_add_within h
  rw [toNat_getPageOffset] at h
  have hdiv := Nat.div_add_mod a.toNat r.pageSize.toNat
  have hform : a.toNat + i =
      (a.toNat % r.pageSize.toNat + i) + r.pageSize.toNat * (a.toNat / r.pageSize.toNat) := by omega
  constructor
  · apply BitVec.eq_of_toNat_eq
    rw [toNat_getPageId, toNat_getPageId, hsum, hform, Nat.add_mul_div_left _ _ r.pageSize_pos,
      Nat.div_eq_of_lt h, Nat.zero_add]
  · rw [toNat_getPageOffset, toNat_getPageOffset, hsum, hform, Nat.add_mul_mod_self_left,
      Nat.mod_eq_of_lt h]

theorem sub_lt_iff_within (h : (r.getPageOffset a).toNat + n ≤ r.pageSize.toNat) :
    (x - a).toNat < n ↔ r.getPageId x = r.getPageId a ∧
      (r.getPageOffset a).toNat ≤ (r.getPageOffset x).toNat ∧
      (r.getPageOffset x).toNat < (r.getPageOffset a).toNat + n := by
  constructor
  · intro hlt
    obtain ⟨hid, hoff⟩ := getPage_add_within (r := r) (a := a) (i := (x - a).toNat) (by omega)
    rw [add_toNat_sub] at hid hoff
    exact ⟨hid, by omega, by omega⟩
  · rintro ⟨hid, hle, hlt⟩
    have hid' := congrArg BitVec.toNat hid
    rw [toNat_getPageId, toNat_getPageId] at hid'
    rw [toNat_getPageOffset] at hle hlt
    rw [toNat_getPageOffset] at hle hlt
    have hx := Nat.div_add_mod x.toNat r.pageSize.toNat
    have ha := Nat.div_add_mod a.toNat r.pageSize.toNat
    rw [hid'] at hx
    have hsub : (x - a).toNat = x.toNat - a.toNat := BitVec.toNat_sub_of_le (by
      rw [BitVec.le_def]
      omega)
    omega

theorem sub_eq_within (h : (r.getPageOffset a).toNat + n ≤ r.pageSize.toNat)
    (hlt : (x - a).toNat < n) :
    (r.getPageOffset x).toNat = (r.getPageOffset a).toNat + (x - a).toNat := by
  obtain ⟨-, hoff⟩ := getPage_add_within (r := r) (a := a) (i := (x - a).toNat) (by omega)
  rwa [add_toNat_sub] at hoff

end Besm.Mem.RAM
