import Besm.Memory.Counting

namespace Besm.Mem

open Besm.Lib Besm.Lib.Transition Besm.Util

theorem RAM.touchHostAddress_pos {r r' : RAM} {host host' : Host} {a : RV64Ptr} {p : HostAddress}
    {k : RV64Size} (h : r.touchHostAddress host a = (.ok (p, k), r', host')) : 0 < k.toNat := by
  unfold touchHostAddress at h
  split at h
  · cases h
  · rename_i r₁ _ _
    cases h
    have hlt := getPageOffset_lt r' a
    rw [BitVec.toNat_sub_of_le (BitVec.le_def.mpr (Nat.le_of_lt hlt))]
    exact Nat.sub_pos_of_lt hlt

namespace PhysMem

variable {m m' : PhysMem} {e e' : Mapping}

theorem touchHostAddress_pos {a : RV64Ptr} {p : HostAddress} {k : RV64Size}
    (h : m.touchHostAddress a = (.ok (p, k), m')) : 0 < k.toNat := by
  unfold touchHostAddress at h
  split at h
  · cases h
  · rename_i range device m₁ _
    rcases hr : (m₁.rams device).touchHostAddress m₁.host (a - range.leftBorder) with
      ⟨result, r, host⟩
    rw [hr] at h
    cases h
    exact RAM.touchHostAddress_pos hr

theorem storeContAreaLoop_terminates (address : RV64Ptr) (data : Nat → BitVec 8)
    (size : RV64Size) {fuel i : Nat} (m : PhysMem) (hfuel : size.toNat ≤ fuel + i) :
    ∃ result m', storeContAreaLoop address data size fuel i m = some (result, m') := by
  induction fuel generalizing i m with
  | zero =>
    unfold storeContAreaLoop
    rw [if_neg (by omega)]
    exact ⟨_, _, rfl⟩
  | succ fuel ih =>
    unfold storeContAreaLoop
    split_ifs with hi
    · dsimp only
      split
      · exact ⟨_, _, rfl⟩
      · split
        · exact ⟨_, _, rfl⟩
        · exact ih _ (by omega)
      · rename_i p hostSize m₁ ht
        have hpos := touchHostAddress_pos ht
        exact ih _ (by omega)
    · exact ⟨_, _, rfl⟩

/-- Each round stores at least one byte, so that the loop ends on any memory. -/
theorem storeContArea_terminates (m : PhysMem) (address : RV64Ptr) (data : Nat → BitVec 8)
    (size : RV64Size) : ∃ result m', m.storeContArea address data size = some (result, m') :=
  storeContAreaLoop_terminates address data size m (Nat.le_add_right _ _)

def WholePages (m : PhysMem) : Prop :=
  ∀ e ∈ m.devices, e.1.leftBorder < e.1.rightBorder →
    (m.rams e.2).pageSize.toNat ∣ (m.rams e.2).ramSize.toNat

theorem Evolves.wholePages (h : m.Evolves m') (hp : m.WholePages) : m'.WholePages := by
  intro e he hlt
  rw [h.sizes]
  exact hp e (h.devices ▸ he) hlt

theorem within_of_wholePages (hw : m.Wired) (hp : m.WholePages) (he : e ∈ m.devices)
    {a : RV64Ptr} (ha : e.1.contains a = true) {n : Nat}
    (hn : ((m.rams e.2).getPageOffset (a - e.1.leftBorder)).toNat + n ≤
      (m.rams e.2).pageSize.toNat) : Within e a n := by
  intro i hi
  have hlt : e.1.leftBorder < e.1.rightBorder := by
    have hin := contains_toNat.mp ha
    exact BitVec.lt_def.mpr (by omega)
  have hrel := (contains_iff_sub hw he ha a).mp ha
  rw [RAM.toNat_getPageOffset] at hn
  have hpos := (m.rams e.2).pageSize_pos
  have hdiv := Nat.div_add_mod (a - e.1.leftBorder).toNat (m.rams e.2).pageSize.toNat
  have hend : (m.rams e.2).pageSize.toNat *
      ((a - e.1.leftBorder).toNat / (m.rams e.2).pageSize.toNat) +
      (m.rams e.2).pageSize.toNat ≤ (m.rams e.2).ramSize.toNat :=
    Nat.le_of_lt_add_of_dvd (by omega)
      (Nat.dvd_add (Nat.dvd_mul_right _ _) (Nat.dvd_refl _)) (hp e he hlt)
  have hs := (m.rams e.2).ramSize.isLt
  rw [contains_iff_sub hw he ha]
  have hsub : (a + BitVec.ofNat 64 i - e.1.leftBorder).toNat =
      (a - e.1.leftBorder).toNat + i := by
    have hcomm : a + BitVec.ofNat 64 i - e.1.leftBorder =
        a - e.1.leftBorder + BitVec.ofNat 64 i := by bv_omega
    rw [hcomm]
    exact toNat_add_of_le (n := n) (by omega) hi
  omega

/-- The memory after the first `i` bytes of an area were stored. What they are
can be told if all pages lie in their chunks. -/
structure Stored (m : PhysMem) (address : RV64Ptr) (data : Nat → BitVec 8) (i : Nat)
    (m' : PhysMem) : Prop extends Evolves m m' where
  clean : m'.Clean
  byteIn : m'.PagesInside → ∀ d ∈ m.devices, ∀ x, d.1.contains x = true → m'.byteIn d x =
    if (x - address).toNat < i then data (x - address).toNat else m.byteIn d x
  mapped : ∀ j < i, ∃ d ∈ m.devices, d.1.contains (address + BitVec.ofNat 64 j) = true ∧
    (m'.rams d.2).pagemap
      ((m.rams d.2).getPageId (address + BitVec.ofNat 64 j - d.1.leftBorder)) ≠ none

theorem Stored.copy {address : RV64Ptr} {data : Nat → BitVec 8} {i n : Nat} {m₁ : PhysMem}
    (h : m.Stored address data i m₁) (hd : m.Disjoint) (he : e ∈ m.devices)
    (hwithin : Within e (address + BitVec.ofNat 64 i) n) (hsize : i + n < 2 ^ 64)
    (hfit : ((m.rams e.2).getPageOffset
      (address + BitVec.ofNat 64 i - e.1.leftBorder)).toNat + n ≤ (m.rams e.2).pageSize.toNat)
    (hu : m₁.Updated e (address + BitVec.ofNat 64 i) n (fun j => data (i + j)) m') :
    m.Stored address data (i + n) m' := by
  refine ⟨h.toEvolves.trans hu.toEvolves, hu.clean, fun hin d hd' x hx => ?_, fun j hj => ?_⟩
  · rw [hu.byteIn hin d (h.devices ▸ hd'), h.byteIn (hu.inside hin) d hd' x hx]
    have hsub : (x - (address + BitVec.ofNat 64 i)).toNat < n ↔
        i ≤ (x - address).toNat ∧ (x - address).toNat < i + n := by
      rw [BitVec.toNat_sub, BitVec.toNat_add, BitVec.toNat_ofNat, BitVec.toNat_sub]
      omega
    by_cases hin : (x - (address + BitVec.ofNat 64 i)).toNat < n
    · have hde : d = e := hd d hd' e he x hx (contains_of_sub_lt hwithin hin)
      have hidx : i + (x - (address + BitVec.ofNat 64 i)).toNat = (x - address).toNat := by
        rw [BitVec.toNat_sub, BitVec.toNat_add, BitVec.toNat_ofNat, BitVec.toNat_sub]
        rw [BitVec.toNat_sub, BitVec.toNat_add, BitVec.toNat_ofNat] at hin
        omega
      rw [if_pos ⟨hde, hin⟩, if_pos (hsub.mp hin).2, hidx]
    · rw [if_neg fun hand => hin hand.2]
      have hiff : (x - address).toNat < i ↔ (x - address).toNat < i + n := by omega
      simp only [hiff]
  · by_cases hlt : j < i
    · obtain ⟨d, hd', ha, hpage⟩ := h.mapped j hlt
      obtain ⟨mem, hmem⟩ := Option.ne_none_iff_exists'.mp hpage
      exact ⟨d, hd', ha, by rw [hu.pages _ _ _ hmem]; exact Option.some_ne_none _⟩
    · have hin := hwithin (j - i) (by omega)
      have hpage := (RAM.getPage_add_within (r := m.rams e.2)
        (a := address + BitVec.ofNat 64 i - e.1.leftBorder) (i := j - i) (by omega)).1
      have hadd : address + BitVec.ofNat 64 i + BitVec.ofNat 64 (j - i) =
          address + BitVec.ofNat 64 j := by
        rw [BitVec.add_assoc, ← BitVec.ofNat_add, Nat.add_sub_cancel' (Nat.le_of_not_lt hlt)]
      have hcomm : address + BitVec.ofNat 64 i - e.1.leftBorder + BitVec.ofNat 64 (j - i) =
          address + BitVec.ofNat 64 j - e.1.leftBorder := by
        rw [← hadd]
        bv_omega
      rw [hadd] at hin
      refine ⟨e, he, hin, ?_⟩
      rw [← hcomm, hpage, ← RAM.getPageId_congr (h.sizes e.2)]
      exact hu.present

theorem stored_zero (hc : m.Clean) (address : RV64Ptr) (data : Nat → BitVec 8) :
    m.Stored address data 0 m :=
  ⟨.refl hc.toWired, hc, fun _ _ _ _ _ => by simp, fun _ hj => absurd hj (Nat.not_lt_zero _)⟩

/-- The loop stores the whole area, or stops at a byte that is not mapped. -/
theorem storeContAreaLoop_spec (hg : m.Granted) (hd : m.Disjoint) (hp : m.WholePages)
    {address : RV64Ptr} {data : Nat → BitVec 8} {size : RV64Size} {fuel i : Nat} {m₁ : PhysMem}
    (h : m.Stored address data i m₁) (hi : i ≤ size.toNat) (hfuel : size.toNat ≤ fuel + i) :
    (∃ m', storeContAreaLoop address data size fuel i m₁ = some (.ok (), m') ∧
      m.Stored address data size.toNat m') ∨
    (∃ m', storeContAreaLoop address data size fuel i m₁ =
        some (.error (.invalidAddress "Device not found"), m') ∧
      ∃ j < size.toNat, ∀ e ∈ m.devices, e.1.contains (address + BitVec.ofNat 64 j) = false) := by
  induction fuel generalizing i m₁ with
  | zero =>
    obtain rfl : i = size.toNat := by omega
    unfold storeContAreaLoop
    rw [if_neg (Nat.lt_irrefl _)]
    exact .inl ⟨m₁, rfl, h⟩
  | succ fuel ih =>
    unfold storeContAreaLoop
    split_ifs with hlt
    · dsimp only
      obtain ⟨e, he, ha, -⟩ | ⟨hnone, ht⟩ :=
        touchHostAddress_cases h.clean.cached (address + BitVec.ofNat 64 i)
      · obtain ⟨p, m₂, ht, hu⟩ :=
          touchHostAddress_spec h.clean (h.granted hg) (h.disjoint hd) he ha
        rw [ht]
        dsimp only
        have hpos := touchHostAddress_pos ht
        have hoff := RAM.getPageOffset_lt (m₁.rams e.2)
          (address + BitVec.ofNat 64 i - e.1.leftBorder)
        have hk : ((m₁.rams e.2).pageSize - (m₁.rams e.2).getPageOffset
            (address + BitVec.ofNat 64 i - e.1.leftBorder)).toNat = _ :=
          BitVec.toNat_sub_of_le (BitVec.le_def.mpr (Nat.le_of_lt hoff))
        have hsize := size.isLt
        have hwithin := fun n => within_of_wholePages (n := n) h.clean.toWired (h.wholePages hp) he ha
        have hfit := fun n (hn : ((m₁.rams e.2).getPageOffset
            (address + BitVec.ofNat 64 i - e.1.leftBorder)).toNat + n ≤
              (m₁.rams e.2).pageSize.toNat) => by
          rwa [RAM.getPageOffset_congr (h.sizes e.2), h.sizes] at hn
        exact ih (h.copy hd (h.devices ▸ he) (hwithin _ (by omega)) (by omega) (hfit _ (by omega))
          (hu _ (by omega) (by omega) _)) (by omega) (by omega)
      · rw [ht]
        exact .inr ⟨m₁, rfl, i, hlt, fun e he => hnone e (h.devices ▸ he)⟩
    · obtain rfl : i = size.toNat := by omega
      exact .inl ⟨m₁, rfl, h⟩

/-- What storing an area is for: all its bytes are stored, and no others, in memory
that the host has given, or the address that is not mapped is reported. -/
structure StoresArea (m : PhysMem) (address : RV64Ptr) (data : Nat → BitVec 8)
    (size : RV64Size) : Prop where
  terminates : ∃ result m', m.storeContArea address data size = some (result, m')
  mapped : (∀ i < size.toNat, ∃ e ∈ m.devices, e.1.contains (address + BitVec.ofNat 64 i) = true) →
    ∃ m', m.storeContArea address data size = some (.ok (), m') ∧ m'.PagesInside ∧
      (∀ i < size.toNat, (m'.load .byte (address + BitVec.ofNat 64 i)).1 = .ok (data i)) ∧
      ∀ e ∈ m.devices, ∀ x, e.1.contains x = true →
        (∀ i < size.toNat, x ≠ address + BitVec.ofNat 64 i) →
          (m'.load .byte x).1 = (m.load .byte x).1
  unmapped : (∃ i < size.toNat, ∀ e ∈ m.devices,
      e.1.contains (address + BitVec.ofNat 64 i) = false) →
    ∃ m', m.storeContArea address data size =
      some (.error (.invalidAddress "Device not found"), m')

theorem Tidy.storesArea (ht : m.Tidy) (hd : m.Disjoint) (hp : m.WholePages) (address : RV64Ptr)
    (data : Nat → BitVec 8) (size : RV64Size) : m.StoresArea address data size := by
  have hspec := storeContAreaLoop_spec ht.granted hd hp (stored_zero ht.toClean address data)
    (Nat.zero_le size.toNat) (Nat.le_add_right _ 0)
  refine ⟨storeContArea_terminates m address data size, fun hmapped => ?_, fun hun => ?_⟩
  · obtain ⟨m', hs, h⟩ | ⟨-, -, j, hj, hno⟩ := hspec
    · have hd' := h.disjoint hd
      have hin := ((Step.storeContArea hs).tidy ht).inside
      refine ⟨m', hs, hin, fun i hi => ?_, fun e he x hx hout => ?_⟩
      · obtain ⟨e, he, ha⟩ := hmapped i hi
        have hidx := toNat_add_sub address (Nat.lt_trans hi size.isLt)
        rw [loadByte_spec h.wired hd' (h.devices ▸ he) ha, h.byteIn hin e he _ ha, hidx, if_pos hi]
      · have hnot : ¬(x - address).toNat < size.toNat := by
          intro hlt
          exact hout _ hlt (add_toNat_sub _ _).symm
        rw [loadByte_spec h.wired hd' (h.devices ▸ he) hx, loadByte_spec ht.toWired hd he hx,
          h.byteIn hin e he x hx, if_neg hnot]
    · obtain ⟨e, he, ha⟩ := hmapped j hj
      exact absurd ((hno e he).symm.trans ha) Bool.false_ne_true
  · obtain ⟨m', -, h⟩ | ⟨m', hs, -⟩ := hspec
    · obtain ⟨i, hi, hno⟩ := hun
      obtain ⟨e, he, ha, -⟩ := h.mapped i hi
      exact absurd ((hno e he).symm.trans ha) Bool.false_ne_true
    · exact ⟨m', hs⟩

end PhysMem

end Besm.Mem
