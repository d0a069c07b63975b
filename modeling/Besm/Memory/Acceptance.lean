import Besm.Memory.Contents

namespace Besm.Mem.PhysMem

open Besm.Lib.Transition Besm.Util

variable {m m' : PhysMem} {e : Mapping}

inductive Refusal : MemError → Prop
  | invalid : Refusal (.invalidAddress "Device not found")
  | unaligned : Refusal (.unalignedAddress "RAM unaligned access")

def AlignedIn (e : Mapping) (w : Width) (a : RV64Ptr) : Prop :=
  (a - e.1.leftBorder).toNat % w.size = 0

theorem load_outcome (hw : m.Wired) (w : Width) (a : RV64Ptr) :
    ((∃ v, (m.load w a).1 = .ok v) ∧ ∃ e ∈ m.devices, e.1.contains a = true ∧ AlignedIn e w a) ∨
    ((∃ x, (m.load w a).1 = .error x ∧ Refusal x) ∧
      ∀ e ∈ m.devices, e.1.contains a = true → m.Disjoint → ¬AlignedIn e w a) := by
  obtain ⟨e, he, ha, hl⟩ | ⟨hnone, hl⟩ := load_cases hw.cached w a
  · obtain ⟨hal, hr⟩ | ⟨hal, v, hr⟩ :=
      RAM.load_cases (m.rams e.2) m.host w (a - e.1.leftBorder)
    · right
      refine ⟨⟨_, by rw [hl, hr], .unaligned⟩, fun d hd ha' hdis => ?_⟩
      obtain rfl := hdis e he d hd a ha ha'
      exact hal
    · left
      exact ⟨⟨v, by rw [hl, hr]⟩, e, he, ha, hal⟩
  · right
    refine ⟨⟨_, by rw [hl], .invalid⟩, fun d hd ha' _ => ?_⟩
    exact absurd ((hnone d hd).symm.trans ha') Bool.false_ne_true

theorem load_keeps (hw : m.Wired) (w : Width) (a : RV64Ptr) :
    (m.load w a).2.rams = m.rams ∧ (m.load w a).2.host = m.host := by
  obtain ⟨e, -, -, hl⟩ | ⟨-, hl⟩ := load_cases hw.cached w a <;> rw [hl] <;> exact ⟨rfl, rfl⟩

theorem store_outcome (hw : m.Wired) (hg : m.Granted) (w : Width) (a : RV64Ptr)
    (v : BitVec (8 * w.size)) :
    ((m.store w a v).1 = .ok () ∧
      ∃ e ∈ m.devices, e.1.contains a = true ∧ AlignedIn e w a) ∨
    ((∃ x, (m.store w a v).1 = .error x ∧ Refusal x) ∧
      ((m.store w a v).2.rams = m.rams ∧ (m.store w a v).2.host = m.host) ∧
      ∀ e ∈ m.devices, e.1.contains a = true → m.Disjoint → ¬AlignedIn e w a) := by
  obtain ⟨e, he, ha, hs⟩ | ⟨hnone, hs⟩ := store_cases hw.cached w a v
  · obtain ⟨hal, hr⟩ | ⟨hal, p, r, host, -, hr⟩ :=
      RAM.store_cases (hw.wired e he) (hg e he) w (a - e.1.leftBorder) v
    · right
      rw [hs _ _ _ hr]
      refine ⟨⟨_, rfl, .unaligned⟩, ⟨Function.update_eq_self _ _, rfl⟩, fun d hd ha' hdis => ?_⟩
      obtain rfl := hdis e he d hd a ha ha'
      exact hal
    · left
      exact ⟨by rw [hs _ _ _ hr], e, he, ha, hal⟩
  · right
    rw [hs]
    refine ⟨⟨_, rfl, .invalid⟩, ⟨rfl, rfl⟩, fun d hd ha' _ => ?_⟩
    exact absurd ((hnone d hd).symm.trans ha') Bool.false_ne_true

/-- An access that keeps to its width and to one range. -/
def Proper (m : PhysMem) (w : Width) (a : RV64Ptr) : Prop :=
  a.toNat % w.size = 0 ∧ ∃ e ∈ m.devices, Within e a w.size

/-- The accesses at `a` succeed if they are proper, and else fail with one of the
two exceptions and leave every byte as it was. -/
structure Exact (m : PhysMem) (w : Width) (a : RV64Ptr) : Prop where
  load : (∃ v, (m.load w a).1 = .ok v) ↔ m.Proper w a
  load_refusal : ¬m.Proper w a → (∃ x, (m.load w a).1 = .error x ∧ Refusal x) ∧
    (m.load w a).2.rams = m.rams ∧ (m.load w a).2.host = m.host
  store : ∀ v, (m.store w a v).1 = .ok () ↔ m.Proper w a
  store_refusal : ¬m.Proper w a → ∀ v, (∃ x, (m.store w a v).1 = .error x ∧ Refusal x) ∧
    (m.store w a v).2.rams = m.rams ∧ (m.store w a v).2.host = m.host

theorem exact_iff (hw : m.Wired) (hg : m.Granted) (hd : m.Disjoint) (w : Width) (a : RV64Ptr) :
    m.Exact w a ↔
      ((∃ e ∈ m.devices, e.1.contains a = true ∧ AlignedIn e w a) ↔ m.Proper w a) := by
  have hload := load_outcome hw w a
  have hstore := store_outcome hw hg w a
  by_cases hacc : ∃ e ∈ m.devices, e.1.contains a = true ∧ AlignedIn e w a
  · have hok : ∃ v, (m.load w a).1 = .ok v := by
      obtain ⟨h, -⟩ | ⟨-, hno⟩ := hload
      · exact h
      · obtain ⟨e, he, ha, hal⟩ := hacc
        exact absurd hal (hno e he ha hd)
    have hok' : ∀ v, (m.store w a v).1 = .ok () := by
      intro v
      obtain ⟨h, -⟩ | ⟨-, -, hno⟩ := hstore v
      · exact h
      · obtain ⟨e, he, ha, hal⟩ := hacc
        exact absurd hal (hno e he ha hd)
    refine ⟨fun hex => iff_of_true hacc (hex.load.mp hok), fun hiff => ?_⟩
    have hp := hiff.mp hacc
    exact ⟨iff_of_true hok hp, fun hn => absurd hp hn, fun v => iff_of_true (hok' v) hp,
      fun hn => absurd hp hn⟩
  · have hno : ∃ x, (m.load w a).1 = .error x ∧ Refusal x := by
      obtain ⟨-, h⟩ | ⟨h, -⟩ := hload
      · exact absurd h hacc
      · exact h
    have hno' : ∀ v, (∃ x, (m.store w a v).1 = .error x ∧ Refusal x) ∧
        (m.store w a v).2.rams = m.rams ∧ (m.store w a v).2.host = m.host := by
      intro v
      obtain ⟨-, h⟩ | ⟨h, hsame, -⟩ := hstore v
      · exact absurd h hacc
      · exact ⟨h, hsame⟩
    have hfail : ¬∃ v, (m.load w a).1 = .ok v := by
      rintro ⟨v, hv⟩
      obtain ⟨x, hx, -⟩ := hno
      rw [hx] at hv
      cases hv
    have hfail' : ∀ v, ¬(m.store w a v).1 = .ok () := by
      intro v hv
      obtain ⟨⟨x, hx, -⟩, -⟩ := hno' v
      rw [hx] at hv
      cases hv
    refine ⟨fun hex => iff_of_false hacc fun hp => hfail (hex.load.mpr hp), fun hiff => ?_⟩
    have hp : ¬m.Proper w a := fun hp => hacc (hiff.mpr hp)
    exact ⟨iff_of_false hfail hp, fun _ => ⟨hno, load_keeps hw w a⟩, fun v => iff_of_false (hfail' v) hp,
      fun _ => hno'⟩

def Straight (m : PhysMem) (w : Width) : Prop :=
  ∀ e ∈ m.devices, e.1.leftBorder < e.1.rightBorder →
    w.size ∣ e.1.leftBorder.toNat ∧ w.size ∣ e.1.rightBorder.toNat

theorem toNat_add_of_le {a : RV64Ptr} {n i : Nat} (h : a.toNat + n ≤ 2 ^ 64) (hi : i < n) :
    (a + BitVec.ofNat 64 i).toNat = a.toNat + i := by
  rw [BitVec.toNat_add, BitVec.toNat_ofNat]
  omega

theorem proper_of_straight {w : Width} (hs : m.Straight w) {a : RV64Ptr}
    (he : e ∈ m.devices) (ha : e.1.contains a = true) (hal : AlignedIn e w a) :
    m.Proper w a := by
  have hin := contains_toNat.mp ha
  obtain ⟨hl, hr⟩ := hs e he (by rw [BitVec.lt_def]; omega)
  have hsub : (a - e.1.leftBorder).toNat = a.toNat - e.1.leftBorder.toNat :=
    BitVec.toNat_sub_of_le (BitVec.le_def.mpr hin.1)
  have hdvd : w.size ∣ a.toNat := by
    have hrel := Nat.dvd_of_mod_eq_zero hal
    rw [hsub] at hrel
    exact (Nat.dvd_sub_iff_left hin.1 hl).mp hrel
  have hend : a.toNat + w.size ≤ e.1.rightBorder.toNat :=
    Nat.le_of_lt_add_of_dvd (Nat.add_lt_add_right hin.2 _) (Nat.dvd_add hdvd (Nat.dvd_refl _)) hr
  have hlt := e.1.rightBorder.isLt
  refine ⟨Nat.mod_eq_zero_of_dvd hdvd, e, he, fun i hi => contains_toNat.mpr ?_⟩
  rw [toNat_add_of_le (n := w.size) (by omega) hi]
  omega

theorem Proper.aligned {w : Width} (hs : m.Straight w) {a : RV64Ptr} (h : m.Proper w a) :
    ∃ e ∈ m.devices, e.1.contains a = true ∧ AlignedIn e w a := by
  obtain ⟨hal, e, he, hwithin⟩ := h
  have ha := hwithin.contains w.size_pos
  have hin := contains_toNat.mp ha
  obtain ⟨hl, -⟩ := hs e he (by rw [BitVec.lt_def]; omega)
  have hsub : (a - e.1.leftBorder).toNat = a.toNat - e.1.leftBorder.toNat :=
    BitVec.toNat_sub_of_le (BitVec.le_def.mpr hin.1)
  refine ⟨e, he, ha, ?_⟩
  rw [AlignedIn, hsub]
  exact Nat.mod_eq_zero_of_dvd (Nat.dvd_sub (Nat.dvd_of_mod_eq_zero hal) hl)

/-- The last aligned access that starts in a range ends with it. -/
theorem straight_of_exact (hd : m.Disjoint) {w : Width}
    (h : ∀ a, (∃ e ∈ m.devices, e.1.contains a = true ∧ AlignedIn e w a) → m.Proper w a) :
    m.Straight w := by
  intro e he hlt
  rw [BitVec.lt_def] at hlt
  have hleft : w.size ∣ e.1.leftBorder.toNat := by
    have ha : e.1.contains e.1.leftBorder = true := contains_toNat.mpr ⟨Nat.le_refl _, hlt⟩
    have hal : AlignedIn e w e.1.leftBorder := by
      rw [AlignedIn, BitVec.sub_self]
      exact Nat.zero_mod _
    exact Nat.dvd_of_mod_eq_zero (h _ ⟨e, he, ha, hal⟩).1
  refine ⟨hleft, ?_⟩
  have hr := e.1.rightBorder.isLt
  have hpos := w.size_pos
  -- the last multiple of the width within the device
  have hdiv := Nat.div_add_mod (e.1.rightBorder.toNat - e.1.leftBorder.toNat - 1) w.size
  have hmod := Nat.mod_lt (e.1.rightBorder.toNat - e.1.leftBorder.toNat - 1) hpos
  generalize (e.1.rightBorder.toNat - e.1.leftBorder.toNat - 1) / w.size = q at hdiv
  generalize (e.1.rightBorder.toNat - e.1.leftBorder.toNat - 1) % w.size = s at hdiv hmod
  have hsum : (e.1.leftBorder + BitVec.ofNat 64 (w.size * q)).toNat =
      e.1.leftBorder.toNat + w.size * q := by
    rw [BitVec.toNat_add, BitVec.toNat_ofNat]
    omega
  have hdvd : w.size ∣ e.1.leftBorder.toNat + w.size * q :=
    Nat.dvd_add hleft (Nat.dvd_mul_right _ _)
  have hroom : e.1.leftBorder.toNat + w.size * q + w.size ≤ 2 ^ 64 :=
    Nat.le_of_lt_add_of_dvd (by omega) (Nat.dvd_add hdvd (Nat.dvd_refl _)) w.size_dvd_addresses
  have ha : e.1.contains (e.1.leftBorder + BitVec.ofNat 64 (w.size * q)) = true :=
    contains_toNat.mpr (by omega)
  have hal : AlignedIn e w (e.1.leftBorder + BitVec.ofNat 64 (w.size * q)) := by
    have hsub : e.1.leftBorder + BitVec.ofNat 64 (w.size * q) - e.1.leftBorder =
        BitVec.ofNat 64 (w.size * q) := by bv_omega
    have hq : w.size * q < 2 ^ 64 := by omega
    rw [AlignedIn, hsub, BitVec.toNat_ofNat, Nat.mod_eq_of_lt hq]
    exact Nat.mul_mod_right _ _
  obtain ⟨-, d, hd', hwithin⟩ := h _ ⟨e, he, ha, hal⟩
  obtain rfl := hd d hd' e he _ (hwithin.contains hpos) ha
  have hlast := (contains_toNat.mp (hwithin (w.size - 1) (by omega))).2
  rw [toNat_add_of_le (n := w.size) (by omega) (by omega), hsum] at hlast
  have heq : d.1.rightBorder.toNat = d.1.leftBorder.toNat + w.size * q + w.size := by omega
  rw [heq]
  exact Nat.dvd_add hdvd (Nat.dvd_refl _)

/-- On any memory that was built, the accesses of a width are accepted exactly
where they should be if and only if no range begins or ends off that width. -/
theorem acceptance_exact_iff {calls : List MapRAM} {b : PhysMemBuilder} {host : Host}
    (h : PhysMemBuilder.empty.mapRAMs calls = .ok b) (hg : host.Grants calls)
    (hd : (b.build host).Disjoint) (hm : Reach (· = b.build host) Step m) (w : Width) :
    (∀ a, m.Exact w a) ↔ m.Straight w := by
  have hev := reach_evolves h hg hm
  have hdis := hev.disjoint hd
  have hgranted := hev.granted (granted_build (PhysMemBuilder.mapped_of_empty h) hg)
  rw [forall_congr' (exact_iff hev.wired hgranted hdis w)]
  exact ⟨fun hall => straight_of_exact hdis fun a => (hall a).mp,
    fun hs a => ⟨fun ⟨e, he, ha, hal⟩ => proper_of_straight hs he ha hal, Proper.aligned hs⟩⟩

theorem acceptance_exact_iff_adjacent :
    (PhysMemBuilder.adjacentBuilder.build .willing).Exact .dWord 0xFFC := by
  refine (acceptance_exact_iff PhysMemBuilder.mapRAMs_adjacent grants_adjacent
    (PhysMemBuilder.disjoint_adjacent _) (.init rfl) .dWord).mpr (fun e he _ => ?_) _
  obtain rfl | he := List.mem_cons.mp he
  · decide
  · obtain rfl := List.mem_singleton.mp he
    decide

/-- A word that begins in a range is accepted even if it ends past it. -/
theorem word_accepted_past_end :
    PhysMemBuilder.empty.mapRAMs PhysMemBuilder.short = .ok PhysMemBuilder.shortBuilder ∧
      ¬(PhysMemBuilder.shortBuilder.build .willing).Exact .word 4 := by
  refine ⟨PhysMemBuilder.mapRAMs_short, fun h => ?_⟩
  have hproper := h.load.mp ⟨0, rfl⟩
  exact absurd hproper.2 (by decide)

end Besm.Mem.PhysMem
