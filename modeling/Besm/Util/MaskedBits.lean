import Besm.Util.BitMagic

namespace Besm.Util

open Lib.Masks

variable {w : Nat} {mask : BitVec w}

/-- The amounts of the shifts that `bitMask` makes, and so on for the functions on top of it. -/
def bitMaskShifts (bits offset : Nat) : List Nat := [bits, offset]

def extractBitsShifts (bits offset : Nat) : List Nat := bitMaskShifts bits offset ++ [offset]

def clearBitsShifts (bits offset : Nat) : List Nat := bitMaskShifts bits offset

def changeBitsShifts (bits offset : Nat) : List Nat :=
  clearBitsShifts bits offset ++ extractBitsShifts bits 0 ++ [offset]

/-- Both recursions take the same way over the mask, and differ in what they do
at the end of a series. -/
def recursionShifts (mask : BitVec w) (flush : (series offset filled : Nat) → List Nat) :
    (left pos series filled : Nat) → List Nat
  | 0, pos, series, filled => if pos - series = pos then [] else flush series (pos - series) filled
  | left + 1, pos, series, filled =>
    extractBitsShifts 1 pos ++
      if extractBits 1 pos mask ≠ 0 then
        recursionShifts mask flush left (pos + 1) (series + 1) filled
      else
        flush series (pos - series) filled ++
          recursionShifts mask flush left (pos + 1) 0 (filled + series)

def extractorFlush (series offset filled : Nat) : List Nat :=
  extractBitsShifts series offset ++ [filled]

def inserterFlush (series offset set : Nat) : List Nat :=
  extractBitsShifts series set ++ changeBitsShifts series offset

def maskedShifts (mask : BitVec w) (flush : (series offset filled : Nat) → List Nat) : List Nat :=
  if isFull mask then [] else recursionShifts mask flush w 0 0 0

def extractMaskedShifts (mask : BitVec w) : List Nat := maskedShifts mask extractorFlush

def insertMaskedShifts (mask : BitVec w) : List Nat := maskedShifts mask inserterFlush

/-- Extraction and insertion under a mask undo each other. -/
structure MaskedInverse (mask : BitVec w) : Prop where
  packs : ∀ s, Gathers mask s (extractMasked mask s)
  low : ∀ s i, popcount mask ≤ i → (extractMasked mask s).getLsbD i = false
  extract_insert : ∀ v s,
    extractMasked mask (insertMasked mask v s) = (v.setWidth (popcount mask)).setWidth w
  outside : ∀ v s i, mask.getLsbD i = false → (insertMasked mask v s).getLsbD i = s.getLsbD i
  insert_extract : ∀ s, insertMasked mask (extractMasked mask s) s = s
  shifts : ∀ n ∈ extractMaskedShifts mask ++ insertMaskedShifts mask, n < w

theorem extractMasked_insertMasked (mask value setPlace : BitVec w) :
    extractMasked mask (insertMasked mask value setPlace) =
      (value.setWidth (popcount mask)).setWidth w :=
  (gathers_extractMasked mask _).unique (scatters_insertMasked mask value setPlace).gathers

theorem insertMasked_extractMasked_self (mask value : BitVec w) :
    insertMasked mask (extractMasked mask value) value = value := by
  rw [insertMasked_extractMasked, ← BitVec.and_or_distrib_left]
  simp

section Flushes

variable {flush : Nat → Nat → Nat → List Nat} {b : Nat}

/-- A series is shorter than `b`, unless it is all of the mask. The filled bits are
never more than those passed. -/
theorem recursionShifts_lt (hone : 1 < b) (hle : w ≤ b)
    (hmask : w < b ∨ ∃ i < w, mask.getLsbD i = false)
    (hflush : ∀ series offset filled, series < b → offset < b → filled < b →
      ∀ n ∈ flush series offset filled, n < b) :
    ∀ left start series filled, start + series + left = w → filled ≤ start →
      (∀ i, start ≤ i → i < start + series → mask.getLsbD i = true) →
      ∀ n ∈ recursionShifts mask flush left (start + series) series filled, n < b := by
  intro left
  induction left with
  | zero =>
    intro start series filled hpos hfilled hrun n hn
    rw [recursionShifts, Nat.add_sub_cancel] at hn
    split_ifs at hn with h0
    · cases hn
    · have hseries : series < b := by
        obtain hlt | ⟨i, hi, hclear⟩ := hmask
        · omega
        · by_contra hge
          have hset := hrun i (by omega) (by omega)
          rw [hclear] at hset
          cases hset
      exact hflush series start filled hseries (by omega) (by omega) n hn
  | succ left ih =>
    intro start series filled hpos hfilled hrun n hn
    rw [recursionShifts, List.mem_append] at hn
    obtain hn | hn := hn
    · simp only [extractBitsShifts, bitMaskShifts, List.mem_append, List.mem_cons,
        List.not_mem_nil, or_false] at hn
      omega
    · by_cases hm : mask.getLsbD (start + series) = true
      · rw [if_pos ((extractBits_one_ne_zero _ _).mpr hm)] at hn
        exact ih start (series + 1) filled (by omega) hfilled (series_succ hrun hm) n hn
      · rw [if_neg (mt (extractBits_one_ne_zero _ _).mp hm), List.mem_append,
          Nat.add_sub_cancel] at hn
        obtain hn | hn := hn
        · exact hflush series start filled (by omega) (by omega) (by omega) n hn
        · exact ih (start + series + 1) 0 (filled + series) (by omega) (by omega)
            (fun i hi hlt => by omega) n hn

theorem flush_subset_recursionShifts (hw : 0 < w) :
    ∀ left series filled, series + left = w →
      flush w 0 filled ⊆ recursionShifts (~~~0 : BitVec w) flush left series series filled := by
  intro left
  induction left with
  | zero =>
    intro series filled hpos
    obtain rfl : series = w := by omega
    rw [recursionShifts, if_neg (by omega), Nat.sub_self]
    exact List.Subset.refl _
  | succ left ih =>
    intro series filled hpos
    have hset : (~~~0 : BitVec w).getLsbD series = true := by
      simp [show series < w by omega]
    rw [recursionShifts, if_pos ((extractBits_one_ne_zero _ _).mpr hset)]
    exact List.subset_append_of_subset_right _ (ih (series + 1) filled (by omega))

theorem maskedShifts_lt (hone : 1 < b) (hle : w ≤ b)
    (hmask : isFull mask = false → w < b ∨ ∃ i < w, mask.getLsbD i = false)
    (hflush : ∀ series offset filled, series < b → offset < b → filled < b →
      ∀ n ∈ flush series offset filled, n < b) :
    ∀ n ∈ maskedShifts mask flush, n < b := by
  intro n hn
  rw [maskedShifts] at hn
  split_ifs at hn with hfull
  · cases hn
  · exact recursionShifts_lt hone hle (hmask (Bool.eq_false_iff.mpr hfull)) hflush w 0 0 0
      (by omega) (by omega) (fun i _ hi => by omega) n hn

end Flushes

theorem extractorFlush_lt {b : Nat} (series offset filled : Nat) (hs : series < b) (ho : offset < b)
    (hf : filled < b) : ∀ n ∈ extractorFlush series offset filled, n < b := by
  simp [extractorFlush, extractBitsShifts, bitMaskShifts, hs, ho, hf]

theorem inserterFlush_lt {b : Nat} (series offset set : Nat) (hs : series < b) (ho : offset < b)
    (hf : set < b) : ∀ n ∈ inserterFlush series offset set, n < b := by
  simp [inserterFlush, changeBitsShifts, clearBitsShifts, extractBitsShifts, bitMaskShifts, hs, ho,
    hf, Nat.zero_lt_of_lt hs]

theorem shifts_lt {b : Nat} (hone : 1 < b) (hle : w ≤ b)
    (hmask : isFull mask = false → w < b ∨ ∃ i < w, mask.getLsbD i = false) :
    ∀ n ∈ extractMaskedShifts mask ++ insertMaskedShifts mask, n < b := by
  intro n hn
  obtain hn | hn := List.mem_append.mp hn
  · exact maskedShifts_lt hone hle hmask extractorFlush_lt n hn
  · exact maskedShifts_lt hone hle hmask inserterFlush_lt n hn

/-- No shift reaches the width of the type that its operands are promoted to. -/
theorem shifts_lt_promoted (mask : BitVec w) :
    ∀ n ∈ extractMaskedShifts mask ++ insertMaskedShifts mask, n < max w 32 := by
  refine shifts_lt (by omega) (by omega) fun hfull => ?_
  by_cases hw : 32 ≤ w
  · refine .inr (exists_clear fun h => ?_)
    rw [(isFull_iff mask).mpr ⟨hw, h⟩] at hfull
    cases hfull
  · exact .inl (by omega)

theorem mem_extractMaskedShifts_full (hw : 0 < w) (hnarrow : w < 32) :
    w ∈ extractMaskedShifts (~~~0 : BitVec w) := by
  have hfull : ¬isFull (~~~0 : BitVec w) = true := fun h => by
    have hwide := ((isFull_iff _).mp h).1
    omega
  rw [extractMaskedShifts, maskedShifts, if_neg hfull]
  refine flush_subset_recursionShifts hw w 0 0 (by omega) ?_
  simp [extractorFlush, extractBitsShifts, bitMaskShifts]

/-- Everything but the bound on the shifts holds under every mask. The bound holds
unless the mask is full and its type narrower than `int`. -/
theorem maskedInverse_iff (hw : 1 < w) (mask : BitVec w) :
    MaskedInverse mask ↔ (mask = ~~~0 → 32 ≤ w) := by
  constructor
  · rintro h rfl
    by_contra hnarrow
    have hlt := h.shifts w (List.mem_append_left _
      (mem_extractMaskedShifts_full (by omega) (by omega)))
    exact Nat.lt_irrefl w hlt
  · intro h
    refine ⟨gathers_extractMasked mask, fun s i => (gathers_extractMasked mask s).getLsbD_ge,
      extractMasked_insertMasked mask, fun v s i => getLsbD_insertMasked_outside v s,
      insertMasked_extractMasked_self mask, shifts_lt hw le_rfl fun hfull => .inr ?_⟩
    refine exists_clear fun he => ?_
    rw [(isFull_iff mask).mpr ⟨h he, he⟩] at hfull
    cases hfull

theorem maskedInverse_base : MaskedInverse (~~~3 : BitVec 64) :=
  (maskedInverse_iff (by decide) (~~~3)).mpr fun _ => by decide

/-- The full mask of a byte. -/
theorem not_maskedInverse_byte : ¬MaskedInverse (~~~0 : BitVec 8) := by
  intro h
  exact absurd (h.shifts 8 (by decide)) (by decide)

end Besm.Util
