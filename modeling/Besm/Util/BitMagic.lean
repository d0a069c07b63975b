import Besm.Lib.Masks
import Mathlib.Algebra.Group.Int.Defs
import Mathlib.Algebra.Group.Nat.Defs
import Mathlib.Data.Nat.Basic

namespace Besm.Util

open Lib.Masks

variable {w : Nat}

def signExtend (signBits : Nat) (value : BitVec w) : BitVec w :=
  let mask : BitVec w := (1#w <<< signBits) - 1#w
  let signbitMask : BitVec w := 1#w <<< (signBits - 1)
  ((value &&& mask) ^^^ signbitMask) - signbitMask

def bitMask (w bits offset : Nat) : BitVec w := ((1#w <<< bits) - 1#w) <<< offset

def extractBits (bits : Nat) (offset : Nat) (value : BitVec w) : BitVec w :=
  (value &&& bitMask w bits offset) >>> offset

def clearBits (bits : Nat) (offset : Nat) (value : BitVec w) : BitVec w :=
  value &&& ~~~bitMask w bits offset

def changeBits (bits : Nat) (offset : Nat) (value newBits : BitVec w) : BitVec w :=
  clearBits bits offset value ||| (extractBits bits 0 newBits <<< offset)

/-- The comparison with the full mask, whose operands are promoted to `int` where
their type is narrower. -/
def isFull (mask : BitVec w) : Bool :=
  mask.setWidth (max w 32) == ~~~(BitVec.setWidth (max w 32) (0 : BitVec w))

/-- The template recursion over the positions of the mask. The first argument
counts the positions left, so that it is zero exactly at `Pos = Count`. -/
def maskedExtractor (mask : BitVec w) : (left pos series filled : Nat) → BitVec w → BitVec w
  | 0, pos, series, filled, value =>
    if pos - series = pos then 0 else extractBits series (pos - series) value <<< filled
  | left + 1, pos, series, filled, value =>
    if extractBits 1 pos mask ≠ 0 then
      maskedExtractor mask left (pos + 1) (series + 1) filled value
    else
      (extractBits series (pos - series) value <<< filled) |||
        maskedExtractor mask left (pos + 1) 0 (filled + series) value

def extractMasked (mask value : BitVec w) : BitVec w :=
  if isFull mask then value else maskedExtractor mask w 0 0 0 value

def maskedInserter (mask : BitVec w) :
    (left pos series set : Nat) → (value setPlace : BitVec w) → BitVec w
  | 0, pos, series, set, value, setPlace =>
    if pos - series = pos then setPlace
    else changeBits series (pos - series) setPlace (extractBits series set value)
  | left + 1, pos, series, set, value, setPlace =>
    if extractBits 1 pos mask ≠ 0 then
      maskedInserter mask left (pos + 1) (series + 1) set value setPlace
    else
      maskedInserter mask left (pos + 1) 0 (set + series) value
        (changeBits series (pos - series) setPlace (extractBits series set value))

def insertMasked (mask value setPlace : BitVec w) : BitVec w :=
  if isFull mask then value else maskedInserter mask w 0 0 0 value setPlace

theorem lowMask_eq (w bits : Nat) : (1#w <<< bits) - 1#w = BitVec.ofNat w (2 ^ bits - 1) := by
  have h : BitVec.ofNat w (2 ^ bits - 1) + 1#w = 1#w <<< bits := by
    rw [← BitVec.ofNat_add, Nat.sub_add_cancel Nat.one_le_two_pow]
    apply BitVec.eq_of_toNat_eq
    rw [BitVec.toNat_ofNat]
    exact (BitVec.toNat_twoPow w bits).symm
  exact (BitVec.eq_sub_iff_add_eq.mpr h).symm

theorem getLsbD_bitMask (w bits offset i : Nat) : (bitMask w bits offset).getLsbD i =
    decide (i < w ∧ offset ≤ i ∧ i < offset + bits) := by
  rw [bitMask, lowMask_eq, BitVec.getLsbD_shiftLeft, BitVec.getLsbD_ofNat,
    Nat.testBit_two_pow_sub_one, Bool.eq_iff_iff]
  simp only [Bool.and_eq_true, decide_eq_true_eq, Bool.not_eq_true', decide_eq_false_iff_not]
  omega

theorem getLsbD_extractBits (bits offset : Nat) (value : BitVec w) (i : Nat) :
    (extractBits bits offset value).getLsbD i =
      (decide (i < bits) && value.getLsbD (offset + i)) := by
  rw [extractBits, BitVec.getLsbD_ushiftRight, BitVec.getLsbD_and, getLsbD_bitMask]
  by_cases h : offset + i < w
  · simp [h, Bool.and_comm]
  · simp [BitVec.getLsbD_of_ge _ _ (Nat.not_lt.mp h)]

theorem setWidth_extractBits {k : Nat} (bits offset : Nat) (value : BitVec w) :
    (extractBits bits offset value).setWidth k = (value.extractLsb' offset bits).setWidth k := by
  apply BitVec.eq_of_getLsbD_eq
  intro i hi
  rw [BitVec.getLsbD_setWidth, BitVec.getLsbD_setWidth, getLsbD_extractBits,
    BitVec.getLsbD_extractLsb']

theorem extractBits_setWidth {k : Nat} (bits offset : Nat) (value : BitVec w) (hk : w ≤ k) :
    extractBits bits offset (value.setWidth k) = (value.extractLsb' offset bits).setWidth k := by
  apply BitVec.eq_of_getLsbD_eq
  intro i hi
  rw [getLsbD_extractBits, BitVec.getLsbD_setWidth, BitVec.getLsbD_setWidth,
    BitVec.getLsbD_extractLsb', decide_eq_true hi, Bool.true_and]
  by_cases hw : offset + i < k
  · simp [hw]
  · simp [BitVec.getLsbD_of_ge value (offset + i) (by omega)]

theorem setWidth_eq_iff {k : Nat} (hk : w ≤ k) {x y : BitVec w} :
    x.setWidth k = y.setWidth k ↔ x = y := by
  constructor
  · intro h
    have hx := congrArg (BitVec.setWidth w) h
    rwa [BitVec.setWidth_setWidth_of_le _ hk, BitVec.setWidth_setWidth_of_le _ hk,
      BitVec.setWidth_eq, BitVec.setWidth_eq] at hx
  · rintro rfl
    rfl

theorem toNat_extractBits_lt (bits offset : Nat) (value : BitVec w) :
    (extractBits bits offset value).toNat < 2 ^ bits := by
  apply Nat.lt_pow_two_of_testBit
  intro i hi
  rw [BitVec.testBit_toNat, getLsbD_extractBits]
  simp [Nat.not_lt.mpr hi]

theorem toNat_extractBits (bits offset : Nat) (value : BitVec w) :
    (extractBits bits offset value).toNat = value.toNat / 2 ^ offset % 2 ^ bits := by
  apply Nat.eq_of_testBit_eq
  intro i
  rw [BitVec.testBit_toNat, getLsbD_extractBits, Nat.testBit_mod_two_pow, Nat.testBit_div_two_pow,
    BitVec.testBit_toNat, Nat.add_comm]

theorem extractBits_shiftLeft (bits offset : Nat) (value : BitVec w) :
    extractBits bits offset value <<< offset = value &&& bitMask w bits offset := by
  apply BitVec.eq_of_getLsbD_eq
  intro i hi
  rw [BitVec.getLsbD_shiftLeft, getLsbD_extractBits, BitVec.getLsbD_and, getLsbD_bitMask]
  by_cases hlow : i < offset
  · simp [hlow, Nat.not_le.mpr hlow]
  · have hbits : i - offset < bits ↔ i < offset + bits := by omega
    rw [Nat.add_sub_cancel' (Nat.not_lt.mp hlow)]
    simp [hi, hlow, Nat.not_lt.mp hlow, hbits, Bool.and_comm]

theorem isFull_iff (mask : BitVec w) : isFull mask = true ↔ 32 ≤ w ∧ mask = ~~~0 := by
  rw [isFull, beq_iff_eq]
  constructor
  · intro h
    have hbit : ∀ i < max w 32, mask.getLsbD i = true := by
      intro i hi
      have hi' := congrArg (fun x => x.getLsbD i) h
      simpa [hi] using hi'
    have hw : 32 ≤ w := by
      by_contra hlt
      have hhigh := BitVec.lt_of_getLsbD (hbit 31 (by omega))
      omega
    refine ⟨hw, BitVec.eq_of_getLsbD_eq fun i hi => ?_⟩
    rw [hbit i (by omega)]
    simp [hi]
  · rintro ⟨hw, rfl⟩
    apply BitVec.eq_of_getLsbD_eq
    intro i hi
    simp [show i < w by omega]

theorem extractBits_one_ne_zero (mask : BitVec w) (pos : Nat) :
    extractBits 1 pos mask ≠ 0 ↔ mask.getLsbD pos = true := by
  have h0 : (extractBits 1 pos mask).getLsbD 0 = mask.getLsbD pos := by
    simp [getLsbD_extractBits]
  constructor
  · intro hne
    by_contra hb
    apply hne
    apply BitVec.eq_of_getLsbD_eq
    intro i hi
    rw [getLsbD_extractBits]
    by_cases hi0 : i = 0
    · subst hi0
      simpa using hb
    · simp [hi0]
  · intro hb he
    rw [he, hb] at h0
    simp at h0

theorem getLsbD_changeBits (bits offset : Nat) (value newBits : BitVec w) (i : Nat) (hi : i < w) :
    (changeBits bits offset value newBits).getLsbD i =
      if offset ≤ i ∧ i < offset + bits then newBits.getLsbD (i - offset) else value.getLsbD i := by
  rw [changeBits, clearBits, BitVec.getLsbD_or, BitVec.getLsbD_and, BitVec.getLsbD_not,
    BitVec.getLsbD_shiftLeft, getLsbD_bitMask, getLsbD_extractBits, Nat.zero_add]
  split_ifs with h
  · have hb : i - offset < bits := by omega
    simp [hi, h.1, h.2, hb]
  · have hb : i < offset ∨ ¬i - offset < bits := by omega
    obtain hb | hb := hb
    · simp [hi, hb, h]
    · simp [hi, hb, h]

@[simp] theorem changeBits_zero (offset : Nat) (value newBits : BitVec w) :
    changeBits 0 offset value newBits = value := by
  apply BitVec.eq_of_getLsbD_eq
  intro i hi
  rw [getLsbD_changeBits _ _ _ _ _ hi, if_neg (by omega)]

@[simp] theorem extractBits_zero (offset : Nat) (value : BitVec w) :
    extractBits 0 offset value = 0 := by
  apply BitVec.eq_of_getLsbD_eq
  intro i hi
  simp [getLsbD_extractBits]

theorem getLsbD_series {mask : BitVec w} {start series : Nat} (value : BitVec w) (k : Nat)
    (hrun : ∀ i, start ≤ i → i < start + series → mask.getLsbD i = true) :
    (extractBits series start value <<< rank mask start).getLsbD k = true ↔
      ∃ i, (start ≤ i ∧ i < start + series) ∧ rank mask i = k ∧ value.getLsbD i = true := by
  have hrank : ∀ i, start ≤ i → i < start + series → rank mask i = rank mask start + (i - start) :=
    fun i hi hlt => rank_series hi fun j hj hji => hrun j hj (by omega)
  have hle := rank_le mask start
  rw [BitVec.getLsbD_shiftLeft, getLsbD_extractBits]
  simp only [Bool.and_eq_true, decide_eq_true_eq, Bool.not_eq_true', decide_eq_false_iff_not]
  constructor
  · rintro ⟨⟨hw, hge⟩, hlt, hv⟩
    refine ⟨_, ⟨Nat.le_add_right _ _, by omega⟩, ?_, hv⟩
    rw [hrank _ (Nat.le_add_right _ _) (by omega)]
    omega
  · rintro ⟨i, ⟨hi, hlt⟩, rfl, hv⟩
    have hiw := BitVec.lt_of_getLsbD hv
    rw [hrank i hi hlt]
    refine ⟨by omega, by omega, ?_⟩
    rwa [Nat.add_sub_cancel_left, Nat.add_sub_cancel' hi]

theorem getLsbD_maskedExtractor (mask value : BitVec w) (k : Nat) :
    ∀ left start series, start + series + left = w →
      (∀ i, start ≤ i → i < start + series → mask.getLsbD i = true) →
      ((maskedExtractor mask left (start + series) series (rank mask start) value).getLsbD k = true ↔
        ∃ i, (start ≤ i ∧ mask.getLsbD i = true) ∧ rank mask i = k ∧ value.getLsbD i = true) := by
  intro left
  induction left with
  | zero =>
    intro start series hpos hrun
    have hend : ∀ i, start ≤ i ∧ mask.getLsbD i = true ↔ start ≤ i ∧ i < start + series := by
      intro i
      refine and_congr_right fun hi => ⟨fun hm => ?_, hrun i hi⟩
      have := BitVec.lt_of_getLsbD hm
      omega
    simp only [hend]
    rw [maskedExtractor, ← getLsbD_series value k hrun, Nat.add_sub_cancel]
    split_ifs with h0
    · obtain rfl : series = 0 := by omega
      simp
    · rfl
  | succ left ih =>
    intro start series hpos hrun
    rw [maskedExtractor]
    by_cases hm : mask.getLsbD (start + series) = true
    · rw [if_pos ((extractBits_one_ne_zero _ _).mpr hm)]
      exact ih start (series + 1) (by omega) (series_succ hrun hm)
    · -- the series ends before this position, and the next one is empty after it
      have hnext := ih (start + series + 1) 0 (by omega) fun i hi hlt => by omega
      rw [if_neg (mt (extractBits_one_ne_zero _ _).mp hm), BitVec.getLsbD_or, Bool.or_eq_true,
        Nat.add_sub_cancel, getLsbD_series value k hrun, ← rank_after_series hrun hm, hnext,
        ← exists_or]
      refine exists_congr fun i => ?_
      rw [← or_and_right]
      refine and_congr_left fun _ => ?_
      constructor
      · rintro (⟨hi, hlt⟩ | ⟨hi, hi'⟩)
        · exact ⟨hi, hrun i hi hlt⟩
        · exact ⟨by omega, hi'⟩
      · rintro ⟨hi, hi'⟩
        have hne : i ≠ start + series := fun h => hm (h ▸ hi')
        by_cases hlt : i < start + series
        · exact .inl ⟨hi, hlt⟩
        · exact .inr ⟨by omega, hi'⟩

theorem gathers_extractMasked (mask value : BitVec w) :
    Gathers mask value (extractMasked mask value) := by
  unfold extractMasked
  split_ifs with hfull
  · rw [((isFull_iff mask).mp hfull).2]
    exact (fills_full value).gathers
  · intro k
    have h := getLsbD_maskedExtractor mask value k w 0 0 (by omega) fun i _ hlt => by omega
    rw [show rank mask 0 = 0 from rfl] at h
    simpa using h

theorem getLsbD_changeSeries {mask : BitVec w} {start series : Nat} (value setPlace : BitVec w)
    {i : Nat} (hi : i < w) (hrun : ∀ i, start ≤ i → i < start + series → mask.getLsbD i = true) :
    (changeBits series start setPlace (extractBits series (rank mask start) value)).getLsbD i =
      if start ≤ i ∧ i < start + series then value.getLsbD (rank mask i)
      else setPlace.getLsbD i := by
  rw [getLsbD_changeBits _ _ _ _ _ hi]
  split_ifs with h
  · rw [getLsbD_extractBits, decide_eq_true (by omega), Bool.true_and,
      rank_series h.1 fun j hj hji => hrun j hj (by omega)]
  · rfl

theorem getLsbD_maskedInserter (mask value : BitVec w) {i : Nat} (hi : i < w) :
    ∀ left start series (setPlace : BitVec w), start + series + left = w →
      (∀ i, start ≤ i → i < start + series → mask.getLsbD i = true) →
      (maskedInserter mask left (start + series) series (rank mask start) value setPlace).getLsbD i =
        if start ≤ i ∧ mask.getLsbD i = true then value.getLsbD (rank mask i)
        else setPlace.getLsbD i := by
  intro left
  induction left with
  | zero =>
    intro start series setPlace hpos hrun
    have hend : start ≤ i ∧ i < start + series ↔ start ≤ i ∧ mask.getLsbD i = true :=
      and_congr_right fun hs => ⟨hrun i hs, fun _ => by omega⟩
    rw [maskedInserter, Nat.add_sub_cancel]
    simp only [← hend]
    rw [← getLsbD_changeSeries value setPlace hi hrun]
    split_ifs with h0
    · obtain rfl : series = 0 := by omega
      rw [changeBits_zero]
    · rfl
  | succ left ih =>
    intro start series setPlace hpos hrun
    rw [maskedInserter]
    by_cases hm : mask.getLsbD (start + series) = true
    · rw [if_pos ((extractBits_one_ne_zero _ _).mpr hm)]
      exact ih start (series + 1) setPlace (by omega) (series_succ hrun hm)
    · rw [if_neg (mt (extractBits_one_ne_zero _ _).mp hm), Nat.add_sub_cancel,
        ← rank_after_series hrun hm]
      refine (ih (start + series + 1) 0 _ (by omega) fun i hi hlt => by omega).trans ?_
      rw [getLsbD_changeSeries value setPlace hi hrun]
      have hne : mask.getLsbD i = true → i ≠ start + series := fun hi' h => hm (h ▸ hi')
      split_ifs with h1 h2 h3 h4 h5
      · rfl
      · exact absurd ⟨by omega, h1.2⟩ h2
      · rfl
      · exact absurd ⟨h3.1, hrun i h3.1 h3.2⟩ h4
      · have hlast := hne h5.2
        exact absurd ⟨by omega, h5.2⟩ h1
      · rfl

theorem scatters_insertMasked (mask value setPlace : BitVec w) :
    Scatters mask value setPlace (insertMasked mask value setPlace) := by
  intro i
  by_cases hi : i < w
  · unfold insertMasked
    split_ifs with hfull hm hm
    · rw [((isFull_iff mask).mp hfull).2, rank_full hi.le]
    · rw [((isFull_iff mask).mp hfull).2] at hm
      simp [hi] at hm
    · have h := getLsbD_maskedInserter mask value hi w 0 0 setPlace (by omega)
        fun i _ hlt => by omega
      rw [if_pos ⟨Nat.zero_le _, hm⟩] at h
      exact h
    · have h := getLsbD_maskedInserter mask value hi w 0 0 setPlace (by omega)
        fun i _ hlt => by omega
      rw [if_neg fun h => hm h.2] at h
      exact h
  · have hge := Nat.not_lt.mp hi
    rw [BitVec.getLsbD_of_ge _ i hge, BitVec.getLsbD_of_ge mask i hge, if_neg Bool.false_ne_true,
      BitVec.getLsbD_of_ge setPlace i hge]

theorem extractMasked_full (value : BitVec w) : extractMasked (~~~0) value = value :=
  (gathers_extractMasked (~~~0) value).unique (fills_full value).gathers

theorem insertMasked_full (value setPlace : BitVec w) :
    insertMasked (~~~0) value setPlace = value := by
  apply BitVec.eq_of_getLsbD_eq
  intro i hi
  rw [scatters_insertMasked _ value setPlace i, rank_full hi.le, if_pos (by simp [hi])]

/-- What is taken out under a mask goes back to where it was. -/
theorem insertMasked_extractMasked (mask value setPlace : BitVec w) :
    insertMasked mask (extractMasked mask value) setPlace =
      (value &&& mask) ||| (setPlace &&& ~~~mask) := by
  apply BitVec.eq_of_getLsbD_eq
  intro i hi
  rw [(scatters_insertMasked mask _ setPlace).of_gathers (gathers_extractMasked mask value)]
  rw [BitVec.getLsbD_or, BitVec.getLsbD_and, BitVec.getLsbD_and, BitVec.getLsbD_not,
    decide_eq_true hi]
  cases mask.getLsbD i <;> simp

theorem getLsbD_insertMasked_outside {mask : BitVec w} (value setPlace : BitVec w) {i : Nat}
    (hi : mask.getLsbD i = false) :
    (insertMasked mask value setPlace).getLsbD i = setPlace.getLsbD i := by
  rw [scatters_insertMasked mask value setPlace i, if_neg (by simp [hi])]

theorem extractMasked_eq_iff {mask value value' : BitVec w} :
    extractMasked mask value = extractMasked mask value' ↔
      ∀ i, mask.getLsbD i = true → value.getLsbD i = value'.getLsbD i :=
  (gathers_extractMasked mask value).eq_iff (gathers_extractMasked mask value')

theorem rank_bitMask {bits offset i : Nat} (h : (bitMask w bits offset).getLsbD i = true) :
    rank (bitMask w bits offset) i = i - offset := by
  rw [getLsbD_bitMask, decide_eq_true_eq] at h
  have hclear : rank (bitMask w bits offset) offset = 0 := by
    refine rank_clear (Nat.zero_le _) fun k _ hk => ?_
    rw [getLsbD_bitMask]
    exact decide_eq_false (by omega)
  rw [rank_series h.2.1 fun k hk hlt => ?_, hclear, Nat.zero_add]
  rw [getLsbD_bitMask]
  exact decide_eq_true (by omega)

theorem extractMasked_bitMask {bits offset : Nat} (value : BitVec w) :
    extractMasked (bitMask w bits offset) value = extractBits bits offset value := by
  refine (gathers_extractMasked _ value).unique fun k => ?_
  rw [getLsbD_extractBits, Bool.and_eq_true, decide_eq_true_eq]
  constructor
  · rintro ⟨hk, hv⟩
    have hmask : (bitMask w bits offset).getLsbD (offset + k) = true := by
      rw [getLsbD_bitMask]
      exact decide_eq_true ⟨BitVec.lt_of_getLsbD hv, by omega, by omega⟩
    exact ⟨offset + k, hmask, (rank_bitMask hmask).trans (Nat.add_sub_cancel_left _ _), hv⟩
  · rintro ⟨i, hmask, rfl, hv⟩
    rw [rank_bitMask hmask]
    rw [getLsbD_bitMask, decide_eq_true_eq] at hmask
    rw [Nat.add_sub_cancel' hmask.2.1]
    exact ⟨by omega, hv⟩

theorem insertMasked_bitMask {bits offset : Nat} (value setPlace : BitVec w) :
    insertMasked (bitMask w bits offset) value setPlace = changeBits bits offset setPlace value := by
  apply BitVec.eq_of_getLsbD_eq
  intro i hi
  rw [scatters_insertMasked _ value setPlace i, getLsbD_changeBits _ _ _ _ _ hi]
  have hmask : (bitMask w bits offset).getLsbD i = true ↔ offset ≤ i ∧ i < offset + bits := by
    rw [getLsbD_bitMask, decide_eq_true_eq]
    omega
  simp only [hmask]
  split_ifs with h
  · rw [rank_bitMask (hmask.mpr h)]
  · rfl

theorem extractBits_changeBits {bits offset : Nat} (value newBits : BitVec w)
    (hfit : offset + bits ≤ w) :
    extractBits bits offset (changeBits bits offset value newBits) = extractBits bits 0 newBits := by
  apply BitVec.eq_of_getLsbD_eq
  intro i hi
  rw [getLsbD_extractBits, getLsbD_extractBits]
  by_cases hb : i < bits
  · rw [getLsbD_changeBits _ _ _ _ _ (by omega), if_pos (by omega), Nat.add_sub_cancel_left,
      Nat.zero_add]
  · simp [hb]

theorem extractBits_changeBits_apart {bits offset bits' offset' : Nat} (value newBits : BitVec w)
    (hfit : offset' + bits' ≤ w) (happart : offset' + bits' ≤ offset ∨ offset + bits ≤ offset') :
    extractBits bits' offset' (changeBits bits offset value newBits) =
      extractBits bits' offset' value := by
  apply BitVec.eq_of_getLsbD_eq
  intro i hi
  rw [getLsbD_extractBits, getLsbD_extractBits]
  by_cases hb : i < bits'
  · rw [getLsbD_changeBits _ _ _ _ _ (by omega), if_neg (by omega)]
  · simp [hb]

theorem extractBits_of_lt {bits : Nat} (value : BitVec w) (h : value.toNat < 2 ^ bits) :
    extractBits bits 0 value = value := by
  apply BitVec.eq_of_getLsbD_eq
  intro i hi
  rw [getLsbD_extractBits, Nat.zero_add]
  by_cases hb : i < bits
  · simp [hb]
  · have hhigh : value.getLsbD i = false := Nat.testBit_lt_two_pow
      (Nat.lt_of_lt_of_le h (Nat.pow_le_pow_right (by omega) (Nat.le_of_not_lt hb)))
    simp [hb, hhigh]

theorem xor_two_pow_of_lt {x k : Nat} (h : x < 2 ^ k) : x ^^^ 2 ^ k = x + 2 ^ k := by
  apply Nat.eq_of_testBit_eq
  intro i
  have hadd : x + 2 ^ k = 2 ^ k * 2 ^ 0 + x := by omega
  rw [hadd, Nat.testBit_two_pow_mul_add _ h, Nat.testBit_xor, Nat.testBit_two_pow,
    Nat.testBit_two_pow]
  split_ifs with hi
  · rw [decide_eq_false (by omega), Bool.xor_false]
  · have hx : x.testBit i = false :=
      Nat.testBit_lt_two_pow (Nat.lt_of_lt_of_le h (Nat.pow_le_pow_right (by omega) (by omega)))
    rw [hx, Bool.false_xor, decide_eq_decide]
    omega

theorem xor_two_pow_of_le {x k : Nat} (hle : 2 ^ k ≤ x) (h : x < 2 ^ (k + 1)) :
    x ^^^ 2 ^ k = x - 2 ^ k := by
  have hx : (x - 2 ^ k) ^^^ 2 ^ k = x := by
    rw [xor_two_pow_of_lt (by rw [Nat.pow_succ] at h; omega), Nat.sub_add_cancel hle]
  calc x ^^^ 2 ^ k = (x - 2 ^ k) ^^^ 2 ^ k ^^^ 2 ^ k := by rw [hx]
    _ = x - 2 ^ k := by rw [Nat.xor_assoc, Nat.xor_self, Nat.xor_zero]

theorem signExtend_eq {k : Nat} (value : BitVec w) (hw : k + 1 ≤ w) :
    signExtend (k + 1) value = (value.setWidth (k + 1)).signExtend w := by
  have hpow : 2 ^ (k + 1) ≤ 2 ^ w := Nat.pow_le_pow_right (by omega) hw
  have hhalf : 2 ^ (k + 1) = 2 ^ k + 2 ^ k := by omega
  have hsign : (1#w <<< k).toNat = 2 ^ k :=
    (BitVec.toNat_twoPow w k).trans (Nat.mod_eq_of_lt (Nat.pow_lt_pow_right (by omega) (by omega)))
  have hmask : ((1#w <<< (k + 1)) - 1#w).toNat = 2 ^ (k + 1) - 1 := by
    rw [lowMask_eq, BitVec.toNat_ofNat, Nat.mod_eq_of_lt (by omega)]
  have hmod : value.toNat % 2 ^ (k + 1) < 2 ^ (k + 1) := Nat.mod_lt _ (Nat.two_pow_pos _)
  apply BitVec.eq_of_toNat_eq
  rw [signExtend, Nat.add_sub_cancel, BitVec.toNat_sub, BitVec.toNat_xor, BitVec.toNat_and, hmask,
    hsign, Nat.and_two_pow_sub_one_eq_mod, BitVec.toNat_signExtend, BitVec.toNat_setWidth,
    BitVec.msb_eq_decide, BitVec.toNat_setWidth, Nat.add_sub_cancel]
  generalize value.toNat % 2 ^ (k + 1) = x at hmod
  rw [Nat.mod_eq_of_lt (by omega : x < 2 ^ w)]
  by_cases hx : 2 ^ k ≤ x
  · rw [xor_two_pow_of_le hx hmod, if_pos (decide_eq_true hx), Nat.mod_eq_of_lt (by omega)]
    omega
  · rw [xor_two_pow_of_lt (by omega), if_neg (by simpa using hx)]
    have hsum : 2 ^ w - 2 ^ k + (x + 2 ^ k) = x + 2 ^ w := by omega
    rw [hsum, Nat.add_mod_right, Nat.mod_eq_of_lt (by omega), Nat.add_zero]

/-- A sign extension from one bit lower gives the same value exactly in the
range of the narrower vectors. -/
theorem signExtend_narrow_iff {k : Nat} (x : BitVec (k + 2)) (hw : k + 2 ≤ w) :
    (x.setWidth (k + 1)).signExtend w = x.signExtend w ↔
      -(2 ^ k : Int) ≤ x.toInt ∧ x.toInt < 2 ^ k := by
  have hint : ((x.setWidth (k + 1)).signExtend w).toInt = x.toInt.bmod (2 ^ (k + 1)) := by
    rw [BitVec.toInt_signExtend_of_le (by omega), BitVec.toInt_setWidth, BitVec.toInt_eq_toNat_bmod,
      Int.bmod_bmod_of_dvd (Nat.pow_dvd_pow 2 (by omega))]
  have hpow : (2 ^ (k + 1) : Int) = 2 ^ k * 2 := Int.pow_succ 2 k
  have hcast : ((2 ^ (k + 1) : Nat) : Int) = 2 ^ (k + 1) := by push_cast; rfl
  rw [← BitVec.toInt_inj, hint, BitVec.toInt_signExtend_of_le (by omega)]
  constructor
  · intro h
    have hlow := Int.le_bmod (x := x.toInt) (Nat.two_pow_pos (k + 1))
    have hhigh := Int.bmod_lt (x := x.toInt) (Nat.two_pow_pos (k + 1))
    rw [h] at hlow hhigh
    omega
  · rintro ⟨hlow, hhigh⟩
    exact Int.bmod_eq_of_le (by omega) (by omega)

theorem toNat_signExtend_mod {signBits k : Nat} (value : BitVec w) (hk : k < signBits)
    (hw : signBits ≤ w) : (signExtend signBits value).toNat % 2 ^ k = value.toNat % 2 ^ k := by
  obtain ⟨n, rfl⟩ : ∃ n, signBits = n + 1 := ⟨signBits - 1, by omega⟩
  rw [signExtend_eq value hw]
  apply Nat.eq_of_testBit_eq
  intro i
  rw [Nat.testBit_mod_two_pow, Nat.testBit_mod_two_pow, BitVec.testBit_toNat, BitVec.testBit_toNat,
    BitVec.getLsbD_signExtend, BitVec.getLsbD_setWidth]
  by_cases hi : i < k
  · simp [hi, show i < w by omega, show i < n + 1 by omega]
  · simp [hi]

end Besm.Util
