import Besm.Lib.Shifts
import Besm.Sim.Jumps

namespace Besm.Sim

open Besm.Exec Besm.Mem Besm.Util Besm.Lib.Encoding Besm.Lib.Shifts

variable {M : Type} {w : Word}

/-- The amount of a shift whose handler takes it as it is. -/
def rawAmount (i : Instruction) (s : Arch M) : Option RV64UDWord :=
  match i.operation with
  | .sll | .srl | .sra | .sllw | .srlw | .sraw => some (s.read i.rs2)
  | .slliw | .srliw | .sraiw => some (signExtend 12 i.immidiate)
  | _ => none

def shifted (op : InstructionOp) (a k : RV64UDWord) : RV64UDWord :=
  match op with
  | .sll => a <<< k
  | .srl => a >>> k
  | .sra => a.sshiftRight' k
  | .sllw | .slliw => extractBits 32 0 (a <<< k)
  | .srlw | .srliw => extractBits 32 0 (a >>> k)
  | _ => extractBits 32 0 (a.sshiftRight' k)

theorem effect_shifted [Memory M] {i : Instruction} {s : Arch M} {k : RV64UDWord}
    (h : rawAmount i s = some k) :
    effect i s = s.retire i.rd (shifted i.operation (s.read i.rs1) k) := by
  unfold rawAmount at h
  unfold effect
  cases hop : i.operation <;> rw [hop] at h <;> cases h <;> rfl

def amount (w : Word) (s : Arch M) : Nat :=
  match (Dec.parse w).operation with
  | .sll | .srl | .sra => (s.read ((rs2 w).setWidth 8)).toNat % 64
  | .sllw | .srlw | .sraw => (s.read ((rs2 w).setWidth 8)).toNat % 32
  | _ => (rs2 w).toNat

/-- The shift that is evaluated is defined for its operand, and goes by its amount. -/
def ShiftsBy [Memory M] (w : Word) (s : Arch M) : Prop :=
  ∀ k, rawAmount (Dec.parse w) s = some k → k.toNat < 64 ∧ k.toNat = amount w s ∧
    effect (Dec.parse w) s = s.retire (Dec.parse w).rd
      (shifted (Dec.parse w).operation (s.read (Dec.parse w).rs1) (BitVec.ofNat 64 (amount w s)))

def AmountFits (w : Word) (s : Arch M) : Prop :=
  match (Dec.parse w).operation with
  | .sll | .srl | .sra => (s.read ((rs2 w).setWidth 8)).toNat < 64
  | .sllw | .srlw | .sraw => (s.read ((rs2 w).setWidth 8)).toNat < 32
  | .slliw => funct7 w = 0
  | .sraiw => False
  | _ => True

theorem toNat_immI (w : Word) : (immI w).toNat = (funct7 w).toNat * 32 + (rs2 w).toNat := by
  simp only [immI, funct7, rs2, BitVec.extractLsb'_toNat, Nat.shiftRight_eq_div_pow]
  omega

theorem toNat_immI_signExtend (w : Word) : ((immI w).signExtend 64).toNat =
    (funct7 w).toNat * 32 + (rs2 w).toNat +
      if 64 ≤ (funct7 w).toNat then 2 ^ 64 - 2 ^ 12 else 0 := by
  have himm := toNat_immI w
  have h7 := (funct7 w).isLt
  have h2 := (rs2 w).isLt
  rw [BitVec.toNat_signExtend, BitVec.toNat_setWidth, BitVec.msb_eq_decide, himm,
    Nat.mod_eq_of_lt (by omega)]
  simp only [decide_eq_true_eq]
  split_ifs <;> omega

theorem immI_amount_iff (w : Word) : ((immI w).signExtend 64).toNat < 64 ∧
    ((immI w).signExtend 64).toNat = (rs2 w).toNat ↔ funct7 w = 0 := by
  have h2 := (rs2 w).isLt
  rw [toNat_immI_signExtend, ← BitVec.toNat_inj]
  change _ ↔ (funct7 w).toNat = 0
  split_ifs <;> omega

theorem rawAmount_register {op : InstructionOp} (s : Arch M) (hop : (Dec.parse w).operation = op)
    (h : op = .sll ∨ op = .srl ∨ op = .sra ∨ op = .sllw ∨ op = .srlw ∨ op = .sraw) :
    rawAmount (Dec.parse w) s = some (s.read ((rs2 w).setWidth 8)) := by
  have hc : opcode w = 0b0110011 ∨ opcode w = 0b0111011 := by
    obtain rfl | rfl | rfl | rfl | rfl | rfl := h
    · exact .inl (Dec.matches_of_parse hop rfl rfl).1
    · exact .inl (Dec.matches_of_parse hop rfl rfl).1
    · exact .inl (Dec.matches_of_parse hop rfl rfl).1
    · exact .inr (Dec.matches_of_parse hop rfl rfl).1
    · exact .inr (Dec.matches_of_parse hop rfl rfl).1
    · exact .inr (Dec.matches_of_parse hop rfl rfl).1
  rw [Dec.parse_opR hc, rawAmount, hop]
  obtain rfl | rfl | rfl | rfl | rfl | rfl := h <;> rfl

theorem rawAmount_immediate {op : InstructionOp} (s : Arch M) (hop : (Dec.parse w).operation = op)
    (h : op = .slliw ∨ op = .srliw ∨ op = .sraiw) :
    rawAmount (Dec.parse w) s = some ((immI w).signExtend 64) := by
  rw [Dec.parse_opI32 (Dec.opImm32_of_parse hop h).1, rawAmount, hop, ← immI_signExtend]
  obtain rfl | rfl | rfl := h <;> rfl

section Amounts

variable [Memory M]

theorem shiftsBy_iff {s : Arch M} {k : RV64UDWord} (h : rawAmount (Dec.parse w) s = some k) :
    ShiftsBy w s ↔ k.toNat < 64 ∧ k.toNat = amount w s := by
  constructor
  · intro hs
    obtain ⟨hlt, hk, -⟩ := hs k h
    exact ⟨hlt, hk⟩
  · rintro ⟨hlt, hk⟩ k' h'
    obtain rfl := Option.some.inj (h.symm.trans h')
    refine ⟨hlt, hk, ?_⟩
    rw [effect_shifted h, ← hk, BitVec.ofNat_toNat, BitVec.setWidth_eq]

/-- A shift is evaluated within its range, by its amount, exactly if the
register or the immediate needs no mask. -/
theorem shift_amount_iff (w : Word) (s : Arch M) : ShiftsBy w s ↔ AmountFits w s := by
  unfold AmountFits
  cases hop : (Dec.parse w).operation
  case sll | srl | sra =>
    rw [shiftsBy_iff (rawAmount_register s hop (by simp)), amount, hop]
    dsimp only
    omega
  case sllw | srlw | sraw =>
    rw [shiftsBy_iff (rawAmount_register s hop (by simp)), amount, hop]
    dsimp only
    omega
  case slliw =>
    rw [shiftsBy_iff (rawAmount_immediate s hop (by simp)), amount, hop, immI_amount_iff]
  case srliw =>
    obtain ⟨-, h7, -⟩ := Dec.opImm32_of_parse hop (by simp)
    rw [shiftsBy_iff (rawAmount_immediate s hop (by simp)), amount, hop, immI_amount_iff]
    exact iff_of_true (h7 rfl) trivial
  case sraiw =>
    obtain ⟨-, -, h7⟩ := Dec.opImm32_of_parse hop (by simp)
    rw [shiftsBy_iff (rawAmount_immediate s hop (by simp)), amount, hop, immI_amount_iff, h7 rfl]
    exact iff_of_false (by decide) id
  all_goals
    refine iff_of_true (fun k hk => ?_) trivial
    rw [rawAmount, hop] at hk
    cases hk

def sixtyFour : Arch FlatMemory :=
  (Hart.create (fun r => if r = 3 then 64 else 0) (FlatMemory.image [])).toArch

/-- SLL x1, x2, x3 shifts by all of the register, and SRAIW x1, x2, 0 by its
funct7 as well. -/
theorem shift_amount_exceeds :
    rawAmount (Dec.parse 0x003110B3) sixtyFour = some 64 ∧ ¬ShiftsBy 0x003110B3 sixtyFour ∧
      rawAmount (Dec.parse 0x4001509B) sixtyFour = some 1024 ∧
        ¬ShiftsBy 0x4001509B sixtyFour := by
  have hsll : rawAmount (Dec.parse 0x003110B3) sixtyFour = some 64 := by decide +kernel
  have hsraiw : rawAmount (Dec.parse 0x4001509B) sixtyFour = some 1024 := by decide +kernel
  refine ⟨hsll, fun hs => ?_, hsraiw, fun hs => ?_⟩
  · exact absurd (hs _ hsll).1 (by decide)
  · exact absurd (hs _ hsraiw).1 (by decide)

end Amounts

def immShift : InstructionOp → Option (RV64UDWord → Nat → RV64UDWord)
  | .slli => some fun a k => a <<< k
  | .srli => some fun a k => a >>> k
  | .srai => some fun a k => a.sshiftRight k
  | _ => none

/-- The sixth bit of the amount is clear, or makes no difference to the value. -/
def FiveBitsFit (op : InstructionOp) (a : RV64UDWord) (k : BitVec 6) : Prop :=
  k.toNat < 32 ∨ match op with
    | .slli => a.toNat % 2 ^ (96 - k.toNat) = 0
    | .srli => a.toNat < 2 ^ (k.toNat - 32)
    | _ => -(2 ^ (k.toNat - 32) : Int) ≤ a.toInt ∧ a.toInt < 2 ^ (k.toNat - 32)

theorem extractBits_immI (w : Word) :
    (extractBits 5 0 ((immI w).setWidth 64 : RV64UDWord)).toNat = (shamt w).toNat % 32 := by
  rw [extractBits_setWidth _ _ _ (by decide)]
  simp only [BitVec.toNat_setWidth, immI, shamt, BitVec.extractLsb'_toNat,
    Nat.shiftRight_eq_div_pow]
  omega

theorem effect_immShift [Memory M] {op : InstructionOp} {f : RV64UDWord → Nat → RV64UDWord}
    (h : immShift op = some f) (w : Word) (c : Opcode) (s : Arch M) :
    effect (Dec.parseI w op c) s = s.retire ((rd w).setWidth 8)
      (f (s.read ((rs1 w).setWidth 8)) ((shamt w).toNat % 32)) := by
  have hne : op ≠ .invOp := by
    rintro rfl
    cases h
  have hi : Dec.parseI w op c =
      ⟨(rd w).setWidth 8, (rs1 w).setWidth 8, 0, (immI w).setWidth 64, op⟩ := by
    rw [Dec.parseI_fields]
    simp [Dec.parseI, hne]
  rw [hi, ← extractBits_immI]
  cases op <;> cases h <;> rfl

theorem immShift_iff {op : InstructionOp} {f : RV64UDWord → Nat → RV64UDWord}
    (h : immShift op = some f) (a : RV64UDWord) (k : BitVec 6) :
    f a (k.toNat % 32) = f a k.toNat ↔ FiveBitsFit op a k := by
  have hk := k.isLt
  unfold FiveBitsFit
  by_cases hlt : k.toNat < 32
  · rw [Nat.mod_eq_of_lt hlt]
    exact iff_of_true rfl (.inl hlt)
  · have hmod : k.toNat % 32 = k.toNat - 32 := by omega
    have hsum : f a k.toNat = f a (k.toNat - 32 + 32) := congrArg (f a) (by omega)
    rw [or_iff_right hlt, hmod, eq_comm, hsum]
    cases op <;> cases h
    · rw [shiftLeft_again_iff a (by decide), shiftLeft_eq_zero_iff a (by omega),
        show 64 - (k.toNat - 32) = 96 - k.toNat by omega]
    · exact ushiftRight_again_iff a (by decide)
    · exact sshiftRight_again_iff a (by decide)

/-- A shift of a doubleword by an immediate comes out right exactly if it goes
to x0, or five bits of the amount are enough. -/
theorem immShift_retire_iff [Memory M] {op : InstructionOp} {f : RV64UDWord → Nat → RV64UDWord}
    (h : immShift op = some f) (w : Word) (c : Opcode) (s : Arch M) :
    (∃ s', effect (Dec.parseI w op c) s = .next s' ∧
      Writes w (f (s.read ((rs1 w).setWidth 8)) (shamt w).toNat) s' ∧ s'.pc = s.pc + 4) ↔
        rd w = 0 ∨ FiveBitsFit op (s.read ((rs1 w).setWidth 8)) (shamt w) := by
  rw [effect_immShift h, retire_iff, immShift_iff h]

theorem immShift_retire_one : ∃ s', effect (Dec.parseI 0x00119093 .slli 0x13) sixtyFour = .next s' ∧
    Writes 0x00119093 (sixtyFour.read 3 <<< 1) s' ∧ s'.pc = sixtyFour.pc + 4 :=
  (immShift_retire_iff (f := fun a k => a <<< k) rfl 0x00119093 0x13 sixtyFour).mpr
    (.inr (.inl (by decide)))

/-- SLLI x1, x3, 32 leaves the value as it is. -/
theorem immShift_lost :
    (∃ s', effect (Dec.parseI 0x02019093 .slli 0x13) sixtyFour = .next s' ∧ s'.read 1 = 64) ∧
      ¬∃ s', effect (Dec.parseI 0x02019093 .slli 0x13) sixtyFour = .next s' ∧
        Writes 0x02019093 (sixtyFour.read 3 <<< (shamt 0x02019093).toNat) s' ∧
          s'.pc = sixtyFour.pc + 4 := by
  have hf : immShift .slli = some fun a k => a <<< k := rfl
  have he := effect_immShift hf 0x02019093 0x13 sixtyFour
  refine ⟨⟨_, he, by decide +kernel⟩, ?_⟩
  rintro ⟨s', he', hw, -⟩
  have hread : s'.read 1 = 64 := by
    rw [← Effect.next.inj (he.symm.trans he')]
    decide +kernel
  have hx := hw (by decide)
  rw [show (rd 0x02019093).setWidth 8 = (1 : Register) by decide, hread] at hx
  exact absurd hx (by decide +kernel)

end Besm.Sim
