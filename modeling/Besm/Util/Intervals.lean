import Besm.RiscvTypes
import Besm.Util.Range
import Mathlib.Order.Interval.Set.LinearOrder

namespace Besm.Util.Range

section Predicates

variable {α : Type} [LE α] [LT α]

def positions (r : Range α) : Set α := {x | r.leftBorder ≤ x ∧ x < r.rightBorder}

variable [DecidableLE α] [DecidableLT α]

/-- The predicates say of two ranges what holds of their positions. -/
structure Denotes (a b : Range α) : Prop where
  position : ∀ x, a.contains x = true ↔ x ∈ a.positions
  subset : b.positions.Nonempty → (a.containsRange b = true ↔ b.positions ⊆ a.positions)
  common : a.intersects b = true ↔ (a.positions ∩ b.positions).Nonempty
  symmetric : a.intersects b = b.intersects a
  adjacent : a.rightBorder = b.leftBorder → a.intersects b = false
  itself : a = b → a.positions.Nonempty → a.containsRange b = true

/-- A range that is not empty starts in the other and ends where that ends. -/
def EndsWith (a b : Range α) : Prop :=
  b.leftBorder < b.rightBorder ∧ a.leftBorder ≤ b.leftBorder ∧ b.rightBorder = a.rightBorder

def Touches (a b : Range α) : Prop :=
  b.rightBorder = a.leftBorder ∧ a.leftBorder < a.rightBorder

def HasEmpty (a b : Range α) : Prop := b.leftBorder = b.rightBorder ∧ a.contains b.leftBorder = true

instance [DecidableEq α] (a b : Range α) : Decidable (a.EndsWith b) :=
  inferInstanceAs (Decidable (_ ∧ _ ∧ _))

instance [DecidableEq α] (a b : Range α) : Decidable (a.Touches b) :=
  inferInstanceAs (Decidable (_ ∧ _))

instance [DecidableEq α] (a b : Range α) : Decidable (a.HasEmpty b) :=
  inferInstanceAs (Decidable (_ ∧ _))

theorem containsRange_iff {a b : Range α} :
    a.containsRange b = true ↔ a.leftBorder ≤ b.leftBorder ∧ b.rightBorder < a.rightBorder := by
  simp [containsRange]

theorem intersects_symm (a b : Range α) : a.intersects b = b.intersects a := by
  unfold intersects
  rw [Bool.or_assoc, Bool.or_assoc (b.contains _ || b.contains _), Bool.or_comm]

end Predicates

variable {α : Type} [LinearOrder α] {a b : Range α}

theorem positions_nonempty : a.positions.Nonempty ↔ a.leftBorder < a.rightBorder :=
  Set.nonempty_Ico

theorem positions_subset (hb : b.leftBorder < b.rightBorder) :
    b.positions ⊆ a.positions ↔ a.leftBorder ≤ b.leftBorder ∧ b.rightBorder ≤ a.rightBorder :=
  Set.Ico_subset_Ico_iff hb

theorem positions_common : (a.positions ∩ b.positions).Nonempty ↔
    (a.leftBorder < a.rightBorder ∧ b.leftBorder < b.rightBorder) ∧
      a.leftBorder < b.rightBorder ∧ b.leftBorder < a.rightBorder := by
  have hinter : a.positions ∩ b.positions =
      Set.Ico (a.leftBorder ⊔ b.leftBorder) (a.rightBorder ⊓ b.rightBorder) := Set.Ico_inter_Ico
  rw [hinter, Set.nonempty_Ico, lt_inf_iff, sup_lt_iff, sup_lt_iff]
  tauto

theorem EndsWith.not_containsRange (h : a.EndsWith b) : ¬a.containsRange b = true := by
  rw [containsRange_iff]
  exact fun hc => hc.2.ne h.2.2

theorem Touches.disjoint (h : a.Touches b) : ¬(a.positions ∩ b.positions).Nonempty := by
  rw [positions_common, h.1]
  exact fun hc => lt_irrefl _ hc.2.1

theorem HasEmpty.disjoint (h : a.HasEmpty b) : ¬(a.positions ∩ b.positions).Nonempty := by
  rw [positions_common, h.1]
  exact fun hc => lt_irrefl _ hc.1.2

theorem common_of_left (hb : b.leftBorder ≤ b.rightBorder) (h : a.contains b.leftBorder = true) :
    (a.positions ∩ b.positions).Nonempty ∨ a.HasEmpty b := by
  obtain heq | hlt := hb.eq_or_lt
  · exact .inr ⟨heq, h⟩
  · exact .inl ⟨b.leftBorder, contains_iff.mp h, le_rfl, hlt⟩

theorem common_of_right (hb : b.leftBorder ≤ b.rightBorder)
    (h : a.contains b.rightBorder = true) :
    (a.positions ∩ b.positions).Nonempty ∨ a.Touches b ∨ a.HasEmpty b := by
  obtain ⟨hle, hlt⟩ := contains_iff.mp h
  obtain heq | hb := hb.eq_or_lt
  · exact .inr (.inr ⟨heq, heq ▸ h⟩)
  · obtain heq | hle := hle.eq_or_lt
    · exact .inr (.inl ⟨heq.symm, heq ▸ hlt⟩)
    · exact .inl (positions_common.mpr ⟨⟨hle.trans hlt, hb⟩, hle, hb.trans hlt⟩)

/-- A border of one range is in the other exactly if they have a common position,
or if they touch, or if one is empty in the other. -/
theorem intersects_iff (ha : a.leftBorder ≤ a.rightBorder) (hb : b.leftBorder ≤ b.rightBorder) :
    a.intersects b = true ↔ (a.positions ∩ b.positions).Nonempty ∨
      (a.Touches b ∨ b.Touches a) ∨ (a.HasEmpty b ∨ b.HasEmpty a) := by
  simp only [intersects, Bool.or_eq_true]
  constructor
  · have hcomm := Set.inter_comm a.positions b.positions
    rintro (((h | h) | h) | h)
    · obtain h | h := common_of_left hb h
      · exact .inl h
      · exact .inr (.inr (.inl h))
    · obtain h | h | h := common_of_right hb h
      · exact .inl h
      · exact .inr (.inl (.inl h))
      · exact .inr (.inr (.inl h))
    · obtain h | h := common_of_left ha h
      · exact .inl (hcomm ▸ h)
      · exact .inr (.inr (.inr h))
    · obtain h | h | h := common_of_right ha h
      · exact .inl (hcomm ▸ h)
      · exact .inr (.inl (.inr h))
      · exact .inr (.inr (.inr h))
  · rintro (h | (h | h) | (h | h))
    · obtain ⟨-, hlt, hlt'⟩ := positions_common.mp h
      obtain hle | hle := le_total a.leftBorder b.leftBorder
      · exact .inl (.inl (.inl (contains_iff.mpr ⟨hle, hlt'⟩)))
      · exact .inl (.inr (contains_iff.mpr ⟨hle, hlt⟩))
    · exact .inl (.inl (.inr (contains_iff.mpr ⟨h.1.ge, h.1 ▸ h.2⟩)))
    · exact .inr (contains_iff.mpr ⟨h.1.ge, h.1 ▸ h.2⟩)
    · exact .inl (.inl (.inl h.2))
    · exact .inl (.inr h.2)

/-- The predicates are right exactly about ranges that do not end where the other
ends or starts, and of which none is empty in the other. -/
theorem denotes_iff (ha : a.leftBorder ≤ a.rightBorder) (hb : b.leftBorder ≤ b.rightBorder) :
    a.Denotes b ↔ ¬a.EndsWith b ∧ ¬(a.Touches b ∨ b.Touches a) ∧
      ¬(a.HasEmpty b ∨ b.HasEmpty a) := by
  have hinter := intersects_iff ha hb
  have hcomm := Set.inter_comm a.positions b.positions
  constructor
  · intro h
    have hcommon := h.common
    refine ⟨fun he => ?_, ?_, ?_⟩
    · refine he.not_containsRange ((h.subset (positions_nonempty.mpr he.1)).mpr ?_)
      exact (positions_subset he.1).mpr ⟨he.2.1, he.2.2.le⟩
    · intro ht
      have hmeet := hcommon.mp (hinter.mpr (.inr (.inl ht)))
      obtain ht | ht := ht
      · exact ht.disjoint hmeet
      · exact ht.disjoint (hcomm ▸ hmeet)
    · intro he
      have hmeet := hcommon.mp (hinter.mpr (.inr (.inr he)))
      obtain he | he := he
      · exact he.disjoint hmeet
      · exact he.disjoint (hcomm ▸ hmeet)
  · rintro ⟨hends, htouch, hempty⟩
    have hcommon : a.intersects b = true ↔ (a.positions ∩ b.positions).Nonempty := by
      rw [hinter, or_iff_left (not_or.mpr ⟨htouch, hempty⟩)]
    have hsubset : b.positions.Nonempty → (a.containsRange b = true ↔ b.positions ⊆ a.positions) := by
      intro hne
      have hlt := positions_nonempty.mp hne
      rw [containsRange_iff, positions_subset hlt]
      exact and_congr_right fun hle => ⟨le_of_lt, fun h => h.lt_of_ne fun he => hends ⟨hlt, hle, he⟩⟩
    refine ⟨fun _ => contains_iff, hsubset, hcommon, intersects_symm a b, fun hadj => ?_, ?_⟩
    · refine Bool.eq_false_iff.mpr fun h => ?_
      obtain ⟨-, -, hlt⟩ := positions_common.mp (hcommon.mp h)
      exact hlt.ne hadj.symm
    · rintro rfl hne
      exact (hsubset hne).mpr (Set.Subset.refl _)

abbrev addressOrder : LinearOrder RV64Ptr where
  le_refl _ := BitVec.le_refl _
  le_trans _ _ _ := BitVec.le_trans
  le_antisymm _ _ := BitVec.le_antisymm
  le_total := BitVec.le_total
  lt_iff_le_not_ge _ _ := Nat.lt_iff_le_and_not_ge
  toDecidableLE _ _ := inferInstance
  toDecidableLT _ _ := inferInstance

theorem denotes_overlapping : Denotes (⟨0x1000, 0x3000⟩ : Range RV64Ptr) ⟨0x2000, 0x4000⟩ :=
  (@denotes_iff _ addressOrder ⟨0x1000, 0x3000⟩ ⟨0x2000, 0x4000⟩ (by decide) (by decide)).mpr
    ⟨by decide, by decide, by decide⟩

/-- Two ranges next to each other, and one in itself. -/
theorem not_denotes_adjacent : ¬Denotes (⟨0x1000, 0x2000⟩ : Range RV64Ptr) ⟨0x2000, 0x3000⟩ ∧
    ¬Denotes (⟨0x1000, 0x2000⟩ : Range RV64Ptr) ⟨0x1000, 0x2000⟩ := by
  refine ⟨fun h => ?_, fun h => ?_⟩
  · exact absurd (h.adjacent rfl) (by decide)
  · exact absurd (h.itself rfl ⟨0x1000, by decide, by decide⟩) (by decide)

end Besm.Util.Range
