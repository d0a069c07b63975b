import Besm.Sim.Shifts

namespace Besm.Sim

open Besm.Exec Besm.Mem Besm.Util Besm.Lib.Encoding Besm.Lib.Shifts

def aluW : InstructionOp → Option (BitVec 32 → BitVec 32 → BitVec 32)
  | .addiw | .addw => some fun a b => a + b
  | .subw => some fun a b => a - b
  | .slliw | .sllw => some fun a b => a <<< b
  | .srliw | .srlw => some fun a b => a >>> b
  | .sraiw | .sraw => some fun a b => a.sshiftRight' b
  | _ => none

def isShiftW : InstructionOp → Bool
  | .sllw | .srlw | .sraw | .slliw | .srliw | .sraiw => true
  | _ => false

/-- The doubleword operation of which a handler takes the low half. -/
def wide (op : InstructionOp) (a b : RV64UDWord) : RV64UDWord :=
  match op with
  | .addiw | .addw => a + b
  | .subw => a - b
  | .slliw | .sllw => a <<< b
  | .srliw | .srlw => a >>> b
  | _ => a.sshiftRight' b

/-- Bit 31 of the result is clear, and nothing is shifted in from above. -/
def WordFits (op : InstructionOp) (a b : RV64UDWord) : Prop :=
  match op with
  | .addiw | .addw => (a + b).getLsbD 31 = false
  | .subw => (a - b).getLsbD 31 = false
  | .slliw | .sllw => a.getLsbD (31 - b.toNat) = false
  | .srliw | .srlw =>
    (b.toNat = 0 → a.getLsbD 31 = false) ∧ ∀ i < b.toNat, a.getLsbD (32 + i) = false
  | _ => ∀ i ≤ b.toNat, a.getLsbD (31 + i) = false

theorem extractBits_low (x : RV64UDWord) : extractBits 32 0 x = (x.setWidth 32).setWidth 64 := by
  have h := extractBits_setWidth (k := 64) 32 0 x le_rfl
  rwa [BitVec.setWidth_eq, ← BitVec.setWidth_eq_extractLsb' (by decide)] at h

variable {op : InstructionOp} {f : BitVec 32 → BitVec 32 → BitVec 32}

/-- The handlers extend their results with zeros, and shift whole registers to
the right. -/
theorem wide_iff (h : aluW op = some f) (a b : RV64UDWord)
    (hb : isShiftW op = true → b.toNat < 32) :
    extractBits 32 0 (wide op a b) = (f (a.setWidth 32) (b.setWidth 32)).signExtend 64 ↔
      WordFits op a b := by
  have hlow : isShiftW op = true → (b.setWidth 32).toNat = b.toNat := by
    intro hs
    have hlt := hb hs
    rw [BitVec.toNat_setWidth]
    omega
  have hmsb : ∀ x : RV64UDWord, (x.setWidth 32).msb = x.getLsbD 31 := fun x =>
    BitVec.msb_setWidth'' x
  rw [extractBits_low, setWidth_eq_signExtend_iff _ _ (by decide)]
  cases op <;> cases h <;> dsimp only [wide, WordFits]
  case addiw | addw =>
    rw [← BitVec.setWidth_add _ _ (by decide), hmsb]
    exact and_iff_right rfl
  case subw =>
    have hsub : (a - b).setWidth 32 = a.setWidth 32 - b.setWidth 32 := by
      rw [BitVec.sub_eq_add_neg, BitVec.setWidth_add _ _ (by decide),
        BitVec.setWidth_neg_of_le (by decide), BitVec.sub_eq_add_neg]
    rw [← hsub, hmsb]
    exact and_iff_right rfl
  case slliw | sllw =>
    have hk := hb rfl
    rw [BitVec.shiftLeft_eq', BitVec.shiftLeft_eq', hlow rfl, msb_shiftLeft_setWidth a hk]
    exact and_iff_right (BitVec.setWidth_shiftLeft_of_le (by decide))
  case srliw | srlw =>
    have hk := hb rfl
    rw [BitVec.ushiftRight_eq', BitVec.ushiftRight_eq', hlow rfl, msb_ushiftRight_setWidth a (by decide)]
    refine and_comm.trans (and_congr_right fun _ => ?_)
    exact ushiftRight_setWidth_iff a (by omega)
  case sraiw | sraw =>
    have hk := hb rfl
    rw [BitVec.sshiftRight_eq', BitVec.sshiftRight_eq', hlow rfl]
    exact sshiftRight_setWidth_iff a hk (by omega)

variable {M : Type} {w : Word}

def operandW (op : InstructionOp) (w : Word) (s : Arch M) : RV64UDWord :=
  match op with
  | .addiw => (immI w).signExtend 64
  | .slliw | .srliw | .sraiw => (rs2 w).setWidth 64
  | _ => s.read ((rs2 w).setWidth 8)

/-- The operation is defined, and puts the value of its word into the
destination. -/
def ComputesW [Memory M] (w : Word) (value : RV64UDWord) (s : Arch M) : Prop :=
  (∀ k, rawAmount (Dec.parse w) s = some k → k.toNat < 64) ∧
    ∃ s', effect (Dec.parse w) s = .next s' ∧ Writes w value s' ∧ s'.pc = s.pc + 4

section Encoded

variable [Memory M] {form : Form}

theorem effect_aluW {i : Instruction} (s : Arch M) (h : aluW i.operation = some f) :
    effect i s = s.retire i.rd (extractBits 32 0 (wide i.operation (s.read i.rs1)
      (match i.operation with
        | .addiw | .slliw | .srliw | .sraiw => signExtend 12 i.immidiate
        | _ => s.read i.rs2))) := by
  unfold effect
  cases hop : i.operation <;> rw [hop] at h <;> cases h <;> rfl

theorem operation_of_aluW (h : aluW op = some f) (hf : Dec.form op = some form)
    (hm : form.Matches w) : (Dec.parse w).operation = op :=
  Dec.parse_targeted (by cases op <;> cases h <;> decide) hf hm

/-- Only SRAIW has bits of its amount set that are not of the five. -/
theorem immI_shift (hm : funct7 w = 0) : (immI w).signExtend 64 = (rs2 w).setWidth 64 := by
  have h2 := (rs2 w).isLt
  apply BitVec.eq_of_toNat_eq
  rw [((immI_amount_iff w).mpr hm).2, BitVec.toNat_setWidth]
  omega

theorem effect_encodedW (h : aluW op = some f) (hf : Dec.form op = some form)
    (hm : form.Matches w) (hne : op ≠ .sraiw) (s : Arch M) :
    effect (Dec.parse w) s = s.retire ((rd w).setWidth 8)
      (extractBits 32 0 (wide op (s.read ((rs1 w).setWidth 8)) (operandW op w s))) := by
  have hop := operation_of_aluW h hf hm
  rw [effect_aluW s (hop ▸ h), hop]
  cases op <;> cases h <;> cases hf
  case addiw =>
    rw [Dec.parse_opI32 hm.1, operandW, ← immI_signExtend]
  case slliw | srliw =>
    rw [Dec.parse_opI32 hm.1, operandW, ← immI_shift hm.2.2, ← immI_signExtend]
  case sraiw => exact absurd rfl hne
  case addw | subw | sllw | srlw | sraw =>
    rw [Dec.parse_opR (.inr hm.1)]
    rfl

omit [Memory M] in
/-- The amount is out of range for SRAIW alone. -/
theorem rawAmount_encodedW (h : aluW op = some f) (hf : Dec.form op = some form)
    (hm : form.Matches w) (s : Arch M)
    (hk : isShiftW op = true → (operandW op w s).toNat < 32) :
    (∀ k, rawAmount (Dec.parse w) s = some k → k.toNat < 64) ↔ op ≠ .sraiw := by
  have hop := operation_of_aluW h hf hm
  cases op <;> cases h <;> cases hf
  case addiw | addw | subw =>
    refine iff_of_true (fun k hr => ?_) (by decide)
    rw [rawAmount, hop] at hr
    cases hr
  case sllw | srlw | sraw =>
    have hlt := hk rfl
    refine iff_of_true (fun k hr => ?_) (by decide)
    rw [rawAmount_register s hop (by simp)] at hr
    obtain rfl := Option.some.inj hr
    exact Nat.lt_trans hlt (by decide)
  case slliw | srliw =>
    refine iff_of_true (fun k hr => ?_) (by decide)
    rw [rawAmount_immediate s hop (by simp)] at hr
    obtain rfl := Option.some.inj hr
    exact ((immI_amount_iff w).mpr hm.2.2).1
  case sraiw =>
    refine iff_of_false (fun hr => ?_) (fun hne => hne rfl)
    have hlt := hr _ (rawAmount_immediate s hop (by simp))
    rw [toNat_immI_signExtend, hm.2.2] at hlt
    exact Nat.not_lt.mpr (Nat.le_add_right_of_le (Nat.le_add_right_of_le (by decide))) hlt

omit [Memory M] in
theorem operandW_lt {s : Arch M} (hs : isShiftW op = true)
    (hk : op = .sllw ∨ op = .srlw ∨ op = .sraw → (s.read ((rs2 w).setWidth 8)).toNat < 32) :
    (operandW op w s).toNat < 32 := by
  have h2 : ((rs2 w).setWidth 64).toNat < 32 := by
    have h := (rs2 w).isLt
    rw [BitVec.toNat_setWidth]
    omega
  cases op
  case sllw | srlw | sraw => exact hk (by simp)
  case slliw | srliw | sraiw => exact h2
  all_goals cases hs

/-- A word operation is defined and comes out right exactly if it is no SRAIW
and goes to x0, or has a result that is not negative and no bits to shift in
from above. -/
theorem aluW_iff (h : aluW op = some f) (hf : Dec.form op = some form) (hm : form.Matches w)
    (s : Arch M)
    (hk : op = .sllw ∨ op = .srlw ∨ op = .sraw → (s.read ((rs2 w).setWidth 8)).toNat < 32) :
    ComputesW w ((f ((s.read ((rs1 w).setWidth 8)).setWidth 32)
        ((operandW op w s).setWidth 32)).signExtend 64) s ↔
      op ≠ .sraiw ∧ (rd w = 0 ∨ WordFits op (s.read ((rs1 w).setWidth 8)) (operandW op w s)) := by
  have hlt := fun hs => operandW_lt (s := s) hs hk
  rw [ComputesW, rawAmount_encodedW h hf hm s hlt]
  refine and_congr_right fun hne => ?_
  rw [effect_encodedW h hf hm hne, retire_iff, wide_iff h _ _ hlt]

end Encoded

theorem aluW_one : ComputesW 0x0011809B 65 sixtyFour := by
  have hm : (Form.i 0b0011011 0b000).Matches 0x0011809B := by decide
  have hv : ((sixtyFour.read ((rs1 0x0011809B).setWidth 8)).setWidth 32 +
      (operandW .addiw 0x0011809B sixtyFour).setWidth 32 : BitVec 32).signExtend 64 = 65 := by
    decide +kernel
  have hf : Dec.form .addiw = some (.i 0b0011011 0b000) := rfl
  have h := (aluW_iff rfl hf hm sixtyFour (by simp)).mpr
    ⟨by decide, .inr (by unfold WordFits; decide +kernel)⟩
  rwa [hv] at h

/-- ADDIW x1, x0, -1 leaves 2^32 - 1 in the register. -/
theorem aluW_unsigned : (Form.i 0b0011011 0b000).Matches 0xFFF0009B ∧
    ((sixtyFour.read ((rs1 0xFFF0009B).setWidth 8)).setWidth 32 +
      (operandW .addiw 0xFFF0009B sixtyFour).setWidth 32 : BitVec 32).signExtend 64 = -1 ∧
    (∀ s', effect (Dec.parse 0xFFF0009B) sixtyFour = .next s' → s'.read 1 = 0xFFFFFFFF) ∧
      ¬ComputesW 0xFFF0009B (-1) sixtyFour := by
  have hm : (Form.i 0b0011011 0b000).Matches 0xFFF0009B := by decide
  have hf : Dec.form .addiw = some (.i 0b0011011 0b000) := rfl
  have hread : ∀ s', effect (Dec.parse 0xFFF0009B) sixtyFour = .next s' →
      s'.read 1 = 0xFFFFFFFF := by
    intro s' he
    rw [effect_encodedW rfl hf hm (by decide)] at he
    rw [← Effect.next.inj he]
    decide +kernel
  refine ⟨hm, by decide +kernel, hread, fun hc => ?_⟩
  obtain ⟨-, s', he, hw, -⟩ := hc
  have hx : s'.read 1 = -1 := hw (by decide)
  rw [hread s' he] at hx
  exact absurd hx (by decide)

end Besm.Sim
