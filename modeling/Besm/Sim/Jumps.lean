import Besm.Decoder.Immediates
import Besm.Memory.Flat
import Besm.Sim.Alignment

namespace Besm.Sim

open Besm.Exec Besm.Mem Besm.Util Besm.Lib.Encoding

def Compares (op : InstructionOp) (a b : RV64UDWord) : Prop :=
  match op with
  | .beq => a = b
  | .bne => a ≠ b
  | .blt => a.toInt < b.toInt
  | .bge => b.toInt ≤ a.toInt
  | .bltu => a.toNat < b.toNat
  | .bgeu => b.toNat ≤ a.toNat
  | _ => False

instance (op : InstructionOp) (a b : RV64UDWord) : Decidable (Compares op a b) := by
  unfold Compares
  split <;> infer_instance

section Specification

variable {M : Type} (w : Word) (s : Arch M)

def BranchHolds : Prop :=
  Compares (Dec.parse w).operation (s.read ((rs1 w).setWidth 8)) (s.read ((rs2 w).setWidth 8))

instance : Decidable (BranchHolds w s) := inferInstanceAs (Decidable (Compares _ _ _))

def branchTarget : RV64Ptr :=
  if BranchHolds w s then s.pc + (offsetB w).signExtend 64 else s.pc + 4

def jumpTarget : RV64Ptr :=
  match (Dec.parse w).operation with
  | .jal => s.pc + (offsetJ w).signExtend 64
  | _ => (s.read ((rs1 w).setWidth 8) + (immI w).signExtend 64) &&& ~~~1

def upperValue : RV64UDWord :=
  let value : RV64UDWord := (immU w ++ 0#12).signExtend 64
  match (Dec.parse w).operation with
  | .lui => value
  | _ => value + s.pc

/-- The register that a word names holds the value afterwards, unless it is x0. -/
def Writes (value : RV64UDWord) (s' : Arch M) : Prop :=
  rd w ≠ 0 → s'.read ((rd w).setWidth 8) = value

end Specification

variable {M : Type} {w : Word}

theorem branchTaken_iff {i : Instruction} (s : Arch M) (h : isBranch i.operation = true) :
    branchTaken i s = true ↔ Compares i.operation (s.read i.rs1) (s.read i.rs2) := by
  unfold branchTaken Compares
  cases hop : i.operation <;> rw [hop] at h <;> dsimp only
  case beq | bne | bgeu | bltu => exact decide_eq_true_iff
  case blt => exact BitVec.slt_iff_toInt_lt
  case bge => exact BitVec.sle_iff_toInt_le
  all_goals cases h

theorem setPC_inj {s : Arch M} {a b : RV64Ptr} : s.setPC a = s.setPC b ↔ a = b := by
  refine ⟨fun h => ?_, fun h => by rw [h]⟩
  have hpc := congrArg Arch.pc h
  rwa [Arch.pc_setPC, Arch.pc_setPC] at hpc

theorem form_of_branch {op : InstructionOp} (h : isBranch op = true) :
    (∃ f3, Dec.form op = some (.b 0b1100011 f3)) ∧ Dec.loose op = false := by
  cases op
  case beq | bne | blt | bge | bltu | bgeu => exact ⟨⟨_, rfl⟩, rfl⟩
  all_goals cases h

/-- The handlers extend the offset of a branch from bit 11, not from bit 12. -/
theorem offsetB_iff (w : Word) :
    signExtend 12 ((offsetB w).setWidth 64) = (offsetB w).signExtend 64 ↔
      -2048 ≤ (offsetB w).toInt ∧ (offsetB w).toInt < 2048 := by
  rw [signExtend_eq _ (by decide), BitVec.setWidth_setWidth_of_le _ (by decide),
    signExtend_narrow_iff _ (by decide)]
  rfl

/-- The handler of JAL extends the offset from bit 19, not from bit 20. -/
theorem offsetJ_iff (w : Word) :
    signExtend 20 ((offsetJ w).setWidth 64) = (offsetJ w).signExtend 64 ↔
      -524288 ≤ (offsetJ w).toInt ∧ (offsetJ w).toInt < 524288 := by
  rw [signExtend_eq _ (by decide), BitVec.setWidth_setWidth_of_le _ (by decide),
    signExtend_narrow_iff _ (by decide)]
  rfl

theorem imm_signExtend (x : BitVec 12) : signExtend 12 (x.setWidth 64) = x.signExtend 64 := by
  rw [signExtend_eq _ (by decide), BitVec.setWidth_setWidth_of_le _ (by decide), BitVec.setWidth_eq]

theorem immI_signExtend (w : Word) :
    signExtend 12 ((immI w).setWidth 64) = (immI w).signExtend 64 := imm_signExtend (immI w)

theorem register_lt : ∀ r : BitVec 5, (r.setWidth 8 : Register) < 32 := by decide

theorem writes_iff (s : Arch M) (value res : RV64UDWord) (target : RV64Ptr) :
    Writes w value ((s.write ((rd w).setWidth 8) res).setPC target) ↔ rd w = 0 ∨ res = value := by
  have hx0 : (rd w).setWidth 8 = GPRF.x0 ↔ rd w = 0 := setWidth_eq_iff (k := 8) (y := 0) (by decide)
  rw [Writes, Arch.read_setPC _ _ (register_lt _), Arch.read_write, if_pos rfl]
  by_cases h0 : rd w = 0
  · exact iff_of_true (fun h => absurd h0 h) (.inl h0)
  · rw [if_neg (hx0.not.mpr h0), imp_iff_right h0, or_iff_right h0]

theorem writes_setPC (s : Arch M) (value : RV64UDWord) (target : RV64Ptr) :
    Writes w value ((s.write ((rd w).setWidth 8) value).setPC target) :=
  (writes_iff s value value target).mpr (.inr rfl)

/-- The handlers of LUI and AUIPC keep twenty bits of an immediate that the
parser has shifted by twelve already. -/
theorem immU_iff (x : BitVec 20) :
    extractBits 20 0 (place 12 x : BitVec 64) = (x ++ 0#12).signExtend 64 ↔ x.toNat < 256 := by
  have hx := x.isLt
  have hplace : (place 12 x : BitVec 64).toNat = x.toNat * 2 ^ 12 := by
    rw [place, BitVec.toNat_shiftLeft, BitVec.toNat_setWidth, Nat.shiftLeft_eq]
    omega
  have hlow : (extractBits 20 0 (place 12 x : BitVec 64)).toNat = x.toNat * 2 ^ 12 % 2 ^ 20 := by
    have he := extractBits_setWidth (k := 64) 20 0 (place 12 x : BitVec 64) le_rfl
    rw [BitVec.setWidth_eq] at he
    rw [he, BitVec.toNat_setWidth, BitVec.extractLsb'_toNat, Nat.shiftRight_zero, hplace]
    omega
  have happend : (x ++ 0#12).toNat = x.toNat * 2 ^ 12 := by
    rw [BitVec.toNat_append, Nat.shiftLeft_eq]
    exact Nat.or_zero _
  have hhigh : ((x ++ 0#12).signExtend 64).toNat =
      x.toNat * 2 ^ 12 + if 2 ^ 19 ≤ x.toNat then 2 ^ 64 - 2 ^ 32 else 0 := by
    rw [BitVec.toNat_signExtend, BitVec.toNat_setWidth, BitVec.msb_eq_decide, happend,
      Nat.mod_eq_of_lt (by omega)]
    simp only [decide_eq_true_eq]
    split_ifs <;> omega
  rw [← BitVec.toNat_inj, hlow, hhigh]
  split_ifs <;> omega

theorem retire_iff (s : Arch M) (value res : RV64UDWord) :
    (∃ s', s.retire ((rd w).setWidth 8) res = .next s' ∧ Writes w value s' ∧ s'.pc = s.pc + 4) ↔
      rd w = 0 ∨ res = value := by
  have hpc : (s.write ((rd w).setWidth 8) res).nextPC.pc = s.pc + 4 := by
    rw [Arch.pc_nextPC, Arch.pc_write _ _ (register_lt _)]
  rw [← writes_iff s value res ((s.write ((rd w).setWidth 8) res).pc + ialign / 8)]
  constructor
  · rintro ⟨s', he, hw, -⟩
    obtain rfl := Effect.next.inj he
    exact hw
  · exact fun hw => ⟨_, rfl, hw, hpc⟩

variable [Memory M]

theorem effect_parse_branch (s : Arch M) (h : isBranch (Dec.parse w).operation = true) :
    effect (Dec.parse w) s = .next (s.setPC (if BranchHolds w s then
      s.pc + signExtend 12 ((offsetB w).setWidth 64) else s.pc + 4)) := by
  obtain ⟨⟨f3, hf⟩, hl⟩ := form_of_branch h
  have hw := Dec.parse_b rfl hl hf
  have ht : branchTaken (Dec.parse w) s = true ↔ BranchHolds w s := by
    rw [branchTaken_iff s h, BranchHolds, hw]
  rw [effect_branch h, Arch.branch]
  by_cases hb : BranchHolds w s
  · rw [if_pos (ht.mpr hb), if_pos hb, hw]
  · rw [if_neg (ht.not.mpr hb), if_neg hb]
    rfl

/-- A branch goes where its offset says, and changes nothing else, exactly if
it is not taken or its offset lies within two KiB. -/
theorem branch_iff (s : Arch M) (h : isBranch (Dec.parse w).operation = true) :
    effect (Dec.parse w) s = .next (s.setPC (branchTarget w s)) ↔
      (BranchHolds w s → -2048 ≤ (offsetB w).toInt ∧ (offsetB w).toInt < 2048) := by
  rw [effect_parse_branch s h, Effect.next.injEq, setPC_inj, branchTarget]
  by_cases hb : BranchHolds w s
  · rw [if_pos hb, if_pos hb, BitVec.add_right_inj, offsetB_iff]
    exact (imp_iff_right hb).symm
  · rw [if_neg hb, if_neg hb]
    exact iff_of_true rfl fun h => absurd h hb

theorem branch_eight :
    let s : Arch FlatMemory := (Hart.create (fun _ => 0) (FlatMemory.image [])).toArch
    effect (Dec.parse 0x00000463) s = .next (s.setPC (branchTarget 0x00000463 s)) :=
  (branch_iff _ (by decide +kernel)).mpr fun _ => by decide +kernel

/-- A branch of 2048 bytes forwards goes as many bytes back. -/
theorem branch_backwards :
    let s : Arch FlatMemory := (Hart.create (fun _ => 0) (FlatMemory.image [])).toArch
    (Dec.parse 0x000000E3).operation = .beq ∧ branchTarget 0x000000E3 s = 2048 ∧
      effect (Dec.parse 0x000000E3) s = .next (s.setPC (-2048)) ∧
      effect (Dec.parse 0x000000E3) s ≠ .next (s.setPC (branchTarget 0x000000E3 s)) := by
  intro s
  have ht : branchTarget 0x000000E3 s = 2048 := by decide +kernel
  have he : effect (Dec.parse 0x000000E3) s = .next (s.setPC (-2048)) := by
    rw [effect_parse_branch s (by decide +kernel)]
    exact congrArg (fun a => Effect.next (s.setPC a)) (by decide +kernel)
  refine ⟨by decide +kernel, ht, he, ?_⟩
  rw [he, ht, Ne, Effect.next.injEq, setPC_inj]
  decide

/-- A jump links and goes where it says, exactly if it is a JALR or its offset
lies within 512 KiB. -/
theorem jump_iff (s : Arch M) (h : (Dec.parse w).operation = .jal ∨ (Dec.parse w).operation = .jalr) :
    (∃ s', effect (Dec.parse w) s = .next s' ∧ Writes w (s.pc + 4) s' ∧ s'.pc = jumpTarget w s) ↔
      ((Dec.parse w).operation = .jal →
        -524288 ≤ (offsetJ w).toInt ∧ (offsetJ w).toInt < 524288) := by
  obtain h | h := h
  · have hw := Dec.parse_j h rfl rfl
    have ht : jumpTarget w s = s.pc + (offsetJ w).signExtend 64 := by
      rw [jumpTarget, h]
    rw [effect_jal h, imp_iff_right h, ht, ← offsetJ_iff, hw]
    constructor
    · rintro ⟨s', he, -, hpc⟩
      obtain rfl := Effect.next.inj he
      rw [Arch.pc_setPC] at hpc
      exact (BitVec.add_right_inj _).mp hpc
    · intro ho
      exact ⟨_, rfl, writes_setPC s _ _, by rw [Arch.pc_setPC, ho]⟩
  · have hw := Dec.parse_i h rfl rfl
    have ht : jumpTarget w s =
        (s.read ((rs1 w).setWidth 8) + (immI w).signExtend 64) &&& ~~~1 := by
      rw [jumpTarget, h]
    rw [effect_jalr h, ht, ← immI_signExtend, h, hw]
    exact iff_of_true ⟨_, rfl, writes_setPC s _ _, Arch.pc_setPC _ _⟩ nofun

theorem jump_eight :
    let s : Arch FlatMemory := (Hart.create (fun _ => 0) (FlatMemory.image [])).toArch
    ∃ s', effect (Dec.parse 0x008000EF) s = .next s' ∧ Writes 0x008000EF 4 s' ∧
      s'.pc = jumpTarget 0x008000EF s :=
  (jump_iff _ (.inl (by decide +kernel))).mpr fun _ => by decide +kernel

/-- A jump of 512 KiB forwards goes as many bytes back. -/
theorem jump_backwards :
    let s : Arch FlatMemory := (Hart.create (fun _ => 0) (FlatMemory.image [])).toArch
    (Dec.parse 0x000800EF).operation = .jal ∧ jumpTarget 0x000800EF s = 524288 ∧
      ∀ s', effect (Dec.parse 0x000800EF) s = .next s' →
        s'.pc = -524288 ∧ s'.pc ≠ jumpTarget 0x000800EF s := by
  intro s
  have hop : (Dec.parse 0x000800EF).operation = .jal := by decide +kernel
  have ht : jumpTarget 0x000800EF s = 524288 := by decide +kernel
  refine ⟨hop, ht, fun s' he => ?_⟩
  rw [effect_jal hop] at he
  have hpc : s'.pc = -524288 := by
    rw [← Effect.next.inj he, Arch.pc_setPC]
    decide +kernel
  refine ⟨hpc, ?_⟩
  rw [hpc, ht]
  decide

theorem effect_lui {i : Instruction} {s : Arch M} (hop : i.operation = .lui) :
    effect i s = s.retire i.rd (extractBits 20 0 i.immidiate) := by
  unfold effect
  rw [hop]
  rfl

theorem effect_auipc {i : Instruction} {s : Arch M} (hop : i.operation = .auipc) :
    effect i s = s.retire i.rd (s.pc + extractBits 20 0 i.immidiate) := by
  unfold effect
  rw [hop]
  rfl

/-- An upper immediate comes out right exactly if it goes to x0, or is so
small that its shifted bits fit into twenty. -/
theorem upper_iff (s : Arch M)
    (h : (Dec.parse w).operation = .lui ∨ (Dec.parse w).operation = .auipc) :
    (∃ s', effect (Dec.parse w) s = .next s' ∧ Writes w (upperValue w s) s' ∧ s'.pc = s.pc + 4) ↔
      rd w = 0 ∨ (immU w).toNat < 256 := by
  obtain h | h := h
  · have hw := Dec.parse_u h rfl rfl
    have hv : upperValue w s = (immU w ++ 0#12).signExtend 64 := by
      rw [upperValue, h]
    rw [effect_lui h, hv, hw]
    refine (retire_iff s _ _).trans (or_congr_right ?_)
    exact immU_iff (immU w)
  · have hw := Dec.parse_u h rfl rfl
    have hv : upperValue w s = (immU w ++ 0#12).signExtend 64 + s.pc := by
      rw [upperValue, h]
    rw [effect_auipc h, hv, hw]
    refine (retire_iff s _ _).trans (or_congr_right ?_)
    rw [BitVec.add_comm, BitVec.add_left_inj]
    exact immU_iff (immU w)

theorem upper_one :
    let s : Arch FlatMemory := (Hart.create (fun _ => 0) (FlatMemory.image [])).toArch
    ∃ s', effect (Dec.parse 0x000010B7) s = .next s' ∧
      Writes 0x000010B7 (upperValue 0x000010B7 s) s' ∧ s'.pc = s.pc + 4 :=
  (upper_iff _ (.inl (by decide +kernel))).mpr (.inr (by decide +kernel))

/-- An upper immediate whose low eight bits are zero leaves zero. -/
theorem upper_lost :
    let s : Arch FlatMemory := (Hart.create (fun _ => 0) (FlatMemory.image [])).toArch
    (Dec.parse 0x001000B7).operation = .lui ∧ upperValue 0x001000B7 s = 0x100000 ∧
      ∀ s', effect (Dec.parse 0x001000B7) s = .next s' →
        s'.read 1 = 0 ∧ ¬Writes 0x001000B7 (upperValue 0x001000B7 s) s' := by
  intro s
  have hop : (Dec.parse 0x001000B7).operation = .lui := by decide +kernel
  have hv : upperValue 0x001000B7 s = 0x100000 := by decide +kernel
  refine ⟨hop, hv, fun s' he => ?_⟩
  rw [effect_lui hop] at he
  have hread : s'.read 1 = 0 := by
    rw [← Effect.next.inj he]
    decide +kernel
  refine ⟨hread, fun hw => ?_⟩
  have hx := hw (by decide)
  rw [hv, show (rd 0x001000B7).setWidth 8 = (1 : Register) by decide, hread] at hx
  exact absurd hx (by decide)

end Besm.Sim
