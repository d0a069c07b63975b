import Mathlib.Data.Nat.Count

namespace Besm.Lib.Masks

variable {w : Nat} {mask value place r r' : BitVec w}

def rank (mask : BitVec w) (i : Nat) : Nat := Nat.count (fun j => mask.getLsbD j = true) i

theorem rank_succ (mask : BitVec w) (i : Nat) :
    rank mask (i + 1) = rank mask i + if mask.getLsbD i = true then 1 else 0 :=
  Nat.count_succ _ i

theorem rank_succ_of_set {i : Nat} (h : mask.getLsbD i = true) :
    rank mask (i + 1) = rank mask i + 1 := by
  rw [rank_succ, if_pos h]

theorem rank_succ_of_clear {i : Nat} (h : mask.getLsbD i = false) :
    rank mask (i + 1) = rank mask i := by
  rw [rank_succ, if_neg (by simp [h]), Nat.add_zero]

theorem rank_le (mask : BitVec w) (i : Nat) : rank mask i ≤ i := Nat.count_le _

theorem rank_injective {i j : Nat} (hi : mask.getLsbD i = true) (hj : mask.getLsbD j = true)
    (h : rank mask i = rank mask j) : i = j :=
  Nat.count_injective (p := fun j => mask.getLsbD j = true) hi hj h

theorem rank_series {i j : Nat} (hij : i ≤ j) (h : ∀ k, i ≤ k → k < j → mask.getLsbD k = true) :
    rank mask j = rank mask i + (j - i) := by
  induction j, hij using Nat.le_induction with
  | base => rw [Nat.sub_self, Nat.add_zero]
  | succ j hij ih =>
    rw [rank_succ_of_set (h j hij (Nat.lt_succ_self j)), ih fun k hk hlt => h k hk (by omega)]
    omega

theorem series_succ {start series : Nat}
    (h : ∀ i, start ≤ i → i < start + series → mask.getLsbD i = true)
    (hm : mask.getLsbD (start + series) = true) :
    ∀ i, start ≤ i → i < start + (series + 1) → mask.getLsbD i = true := by
  intro i hi hlt
  obtain hlt | rfl := Nat.lt_or_eq_of_le (Nat.lt_succ_iff.mp hlt)
  · exact h i hi hlt
  · exact hm

theorem rank_after_series {start series : Nat}
    (h : ∀ i, start ≤ i → i < start + series → mask.getLsbD i = true)
    (hm : ¬mask.getLsbD (start + series) = true) :
    rank mask (start + series + 1) = rank mask start + series := by
  rw [rank_succ_of_clear (Bool.eq_false_iff.mpr hm), rank_series (Nat.le_add_right _ _) h,
    Nat.add_sub_cancel_left]

theorem rank_clear {i j : Nat} (hij : i ≤ j) (h : ∀ k, i ≤ k → k < j → mask.getLsbD k = false) :
    rank mask j = rank mask i := by
  induction j, hij using Nat.le_induction with
  | base => rfl
  | succ j hij ih =>
    rw [rank_succ_of_clear (h j hij (Nat.lt_succ_self j)), ih fun k hk hlt => h k hk (by omega)]

theorem rank_eq_self_iff (i : Nat) : rank mask i = i ↔ ∀ j < i, mask.getLsbD j = true :=
  Nat.count_iff_forall

theorem rank_full {i : Nat} (hi : i ≤ w) : rank (~~~0 : BitVec w) i = i :=
  (rank_eq_self_iff i).mpr fun j hj => by simp [hj.trans_le hi]

theorem exists_clear (h : mask ≠ ~~~0) : ∃ i < w, mask.getLsbD i = false := by
  by_contra hset
  simp only [not_exists, not_and, Bool.not_eq_false] at hset
  apply h
  apply BitVec.eq_of_getLsbD_eq
  intro i hi
  rw [hset i hi]
  simp [hi]

def popcount (mask : BitVec w) : Nat := rank mask w

theorem popcount_le (mask : BitVec w) : popcount mask ≤ w := rank_le mask w

theorem rank_lt_popcount {i : Nat} (hi : mask.getLsbD i = true) : rank mask i < popcount mask :=
  Nat.count_strict_mono hi (BitVec.lt_of_getLsbD hi)

theorem exists_rank {k : Nat} (n : Nat) (hk : k < rank mask n) :
    ∃ i < n, mask.getLsbD i = true ∧ rank mask i = k := by
  induction n with
  | zero => exact absurd hk (Nat.not_lt_zero k)
  | succ n ih =>
    by_cases hn : mask.getLsbD n = true
    · rw [rank_succ_of_set hn] at hk
      obtain hlt | rfl := Nat.lt_or_eq_of_le (Nat.lt_succ_iff.mp hk)
      · obtain ⟨i, hi, h⟩ := ih hlt
        exact ⟨i, by omega, h⟩
      · exact ⟨n, Nat.lt_succ_self n, hn, rfl⟩
    · rw [rank_succ_of_clear (Bool.eq_false_iff.mpr hn)] at hk
      obtain ⟨i, hi, h⟩ := ih hk
      exact ⟨i, by omega, h⟩

/-- The masked bits of a value, packed in order. -/
def Gathers (mask value r : BitVec w) : Prop :=
  ∀ k, r.getLsbD k = true ↔ ∃ i, mask.getLsbD i = true ∧ rank mask i = k ∧ value.getLsbD i = true

/-- The low bits of a value, spread in order over the masked bits of a place. -/
def Scatters (mask value place r : BitVec w) : Prop :=
  ∀ i, r.getLsbD i = if mask.getLsbD i = true then value.getLsbD (rank mask i) else place.getLsbD i

theorem Gathers.unique (h : Gathers mask value r) (h' : Gathers mask value r') : r = r' := by
  apply BitVec.eq_of_getLsbD_eq
  intro i hi
  rw [Bool.eq_iff_iff, h i, h' i]

theorem Gathers.getLsbD_rank (h : Gathers mask value r) {i : Nat} (hi : mask.getLsbD i = true) :
    r.getLsbD (rank mask i) = value.getLsbD i := by
  rw [Bool.eq_iff_iff, h]
  constructor
  · rintro ⟨j, hj, hrank, hv⟩
    rwa [rank_injective hi hj hrank.symm]
  · exact fun hv => ⟨i, hi, rfl, hv⟩

/-- Two values have the same masked bits exactly if these are packed to the same. -/
theorem Gathers.eq_iff {value' : BitVec w} (h : Gathers mask value r) (h' : Gathers mask value' r') :
    r = r' ↔ ∀ i, mask.getLsbD i = true → value.getLsbD i = value'.getLsbD i := by
  constructor
  · rintro rfl i hi
    rw [← h.getLsbD_rank hi, h'.getLsbD_rank hi]
  · intro hv
    refine h.unique fun k => (h' k).trans ?_
    constructor
    · rintro ⟨i, hi, hk, hb⟩
      exact ⟨i, hi, hk, (hv i hi).trans hb⟩
    · rintro ⟨i, hi, hk, hb⟩
      exact ⟨i, hi, hk, (hv i hi).symm.trans hb⟩

/-- What is packed and spread again goes back to where it was. -/
theorem Scatters.of_gathers {g : BitVec w} (hg : Gathers mask value g)
    (h : Scatters mask g place r) (i : Nat) :
    r.getLsbD i = if mask.getLsbD i = true then value.getLsbD i else place.getLsbD i := by
  rw [h i]
  split_ifs with hi
  · exact hg.getLsbD_rank hi
  · rfl

theorem Gathers.getLsbD_ge (h : Gathers mask value r) {k : Nat} (hk : popcount mask ≤ k) :
    r.getLsbD k = false := by
  refine Bool.eq_false_iff.mpr fun hr => ?_
  obtain ⟨i, hi, rfl, -⟩ := (h k).mp hr
  exact absurd (rank_lt_popcount hi) (Nat.not_lt.mpr hk)

theorem Scatters.gathers (h : Scatters mask value place r) :
    Gathers mask r ((value.setWidth (popcount mask)).setWidth w) := by
  have hrank : ∀ i, mask.getLsbD i = true → r.getLsbD i = value.getLsbD (rank mask i) :=
    fun i hi => by rw [h i, if_pos hi]
  intro k
  rw [BitVec.getLsbD_setWidth, BitVec.getLsbD_setWidth]
  simp only [Bool.and_eq_true, decide_eq_true_eq]
  constructor
  · rintro ⟨-, hk, hv⟩
    obtain ⟨i, -, hi, rfl⟩ := exists_rank w hk
    exact ⟨i, hi, rfl, (hrank i hi).trans hv⟩
  · rintro ⟨i, hi, rfl, hr⟩
    have hlt := rank_lt_popcount hi
    exact ⟨hlt.trans_le (popcount_le mask), hlt, (hrank i hi).symm.trans hr⟩

theorem gathers_zero (mask : BitVec w) : Gathers mask 0 0 := fun k => by
  simp

/-- The value has a bit only where the mask has it and all below it. -/
def Fills (mask value : BitVec w) : Prop :=
  ∀ i, value.getLsbD i = true → ∀ j ≤ i, mask.getLsbD j = true

theorem Fills.gathers (h : Fills mask value) : Gathers mask value value := by
  intro k
  constructor
  · intro hk
    exact ⟨k, h k hk k le_rfl, (rank_eq_self_iff k).mpr fun j hj => h k hk j hj.le, hk⟩
  · rintro ⟨i, -, rfl, hi⟩
    rwa [(rank_eq_self_iff i).mpr fun j hj => h i hi j hj.le]

theorem fills_full (value : BitVec w) : Fills (~~~0) value := by
  intro i hi j hj
  simp [hj.trans_lt (BitVec.lt_of_getLsbD hi)]

/-- A value that is the same after it is packed twice was packed already: no bit
can go down. -/
theorem fills_of_gathers {g : BitVec w} (hg : Gathers mask value g) (h : Gathers mask g value) :
    Fills mask value := by
  have hback : ∀ k, value.getLsbD k = true →
      ∃ i, mask.getLsbD i = true ∧ value.getLsbD i = true ∧ rank mask (rank mask i) = k := by
    intro k hk
    obtain ⟨j, hj, rfl, hgj⟩ := (h k).mp hk
    obtain ⟨i, hi, rfl, hv⟩ := (hg j).mp hgj
    exact ⟨i, hi, hv, rfl⟩
  -- by induction on the distance from the top: the bits above `k` stay where they are
  have hstay : ∀ n k, w - k ≤ n → value.getLsbD k = true →
      mask.getLsbD k = true ∧ rank mask (rank mask k) = k := by
    intro n
    induction n with
    | zero =>
      intro k hn hk
      rw [BitVec.getLsbD_of_ge _ _ (by omega)] at hk
      cases hk
    | succ n ih =>
      intro k hn hk
      obtain ⟨i, hi, hv, hrank⟩ := hback k hk
      have hle : k ≤ i := hrank ▸ (rank_le mask _).trans (rank_le mask i)
      obtain rfl | hlt := Nat.eq_or_lt_of_le hle
      · exact ⟨hi, hrank⟩
      · obtain ⟨-, hi'⟩ := ih i (by have := BitVec.lt_of_getLsbD hv; omega) hv
        omega
  intro k hk j hj
  obtain ⟨hm, hrank⟩ := hstay (w - k) k le_rfl hk
  obtain rfl | hlt := Nat.eq_or_lt_of_le hj
  · exact hm
  · have hle := rank_le mask k
    have hle' := rank_le mask (rank mask k)
    exact (rank_eq_self_iff k).mp (by omega) j hlt

end Besm.Lib.Masks
