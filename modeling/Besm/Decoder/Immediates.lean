import Besm.Decoder.Selection

namespace Besm.Dec

open Besm.Util Besm.Lib.Encoding

theorem rs2_extractRegister (bytecode : RV64UWord) :
    extractRegister rs2Shift bytecode = (rs2 bytecode).setWidth 8 :=
  setWidth_extractBits 5 20 bytecode

theorem place_extractBits (bits offset k : Nat) (bytecode : RV64UWord) :
    extractBits bits offset (bytecode.setWidth 64) <<< k =
      place k (bytecode.extractLsb' offset bits) := by
  rw [extractBits_setWidth _ _ _ (by decide), place]

theorem place_extractBits_word (bits offset k : Nat) (bytecode : RV64UWord) :
    extractBits bits offset bytecode <<< k = place k (bytecode.extractLsb' offset bits) := by
  have h := setWidth_extractBits (k := 32) bits offset bytecode
  rw [BitVec.setWidth_eq] at h
  rw [h, place]

theorem parseB_immidiate (bytecode : RV64UWord) (operation : InstructionOp) :
    (parseB bytecode operation).immidiate = (offsetB bytecode).setWidth 64 := by
  have hor : ∀ x y z t : BitVec 64, t ||| z ||| y ||| x = x ||| y ||| z ||| t := by
    intro x y z t
    ac_rfl
  unfold parseB offsetB
  dsimp only
  simp (disch := omega) only [place_extractBits, BitVec.setWidth_or, setWidth_place]
  exact hor _ _ _ _

theorem parseJ_immidiate (bytecode : RV64UWord) (operation : InstructionOp) :
    (parseJ bytecode operation).immidiate = (offsetJ bytecode).setWidth 64 := by
  have hor : ∀ x y z t : BitVec 64, x ||| y ||| z ||| t = x ||| t ||| z ||| y := by
    intro x y z t
    ac_rfl
  unfold parseJ offsetJ
  dsimp only
  simp (disch := omega) only [place_extractBits_word, BitVec.setWidth_or, setWidth_place]
  exact hor _ _ _ _

theorem parseS_immidiate (bytecode : RV64UWord) (operation : InstructionOp) :
    (parseS bytecode operation).immidiate = (immS bytecode).setWidth 64 := by
  unfold parseS immS
  dsimp only
  simp (disch := omega) only [place_extractBits, BitVec.setWidth_or, setWidth_place]
  exact BitVec.or_comm _ _

theorem parseU_immidiate (bytecode : RV64UWord) (operation : InstructionOp) :
    (parseU bytecode operation).immidiate = place 12 (immU bytecode) := by
  have hmask : 0xFFFFF000#32 = bitMask 32 20 12 := by decide
  unfold parseU
  dsimp only
  rw [hmask]
  apply BitVec.eq_of_getLsbD_eq
  intro i hi
  rw [BitVec.getLsbD_setWidth, BitVec.getLsbD_and, getLsbD_bitMask, getLsbD_place, immU,
    BitVec.getLsbD_extractLsb']
  by_cases h12 : 12 ≤ i
  · rw [show 12 + (i - 12) = i by omega]
    by_cases h32 : i < 32
    · simp [hi, h12, h32, show i - 12 < 20 by omega]
    · simp [hi, h32, show ¬i - 12 < 20 by omega]
  · simp [h12]

theorem cell_s {op : InstructionOp} {c : BitVec 7} {f3 : BitVec 3} (h : form op = some (.s c f3)) :
    instrWho (c.setWidth 8) (f3.setWidth 8) = ⟨.s, op⟩ := by
  cases op <;> cases h <;> rfl

theorem cell_b {op : InstructionOp} {c : BitVec 7} {f3 : BitVec 3} (h : form op = some (.b c f3)) :
    instrWho (c.setWidth 8) (f3.setWidth 8) = ⟨.b, op⟩ := by
  cases op <;> cases h <;> rfl

theorem cell_j {op : InstructionOp} {c : BitVec 7} (h : form op = some (.j c)) (f3 : BitVec 3) :
    instrWho (c.setWidth 8) (f3.setWidth 8) = ⟨.j, op⟩ := by
  revert f3
  cases op <;> cases h
  decide

theorem cell_u {op : InstructionOp} {c : BitVec 7} (h : form op = some (.u c)) (f3 : BitVec 3) :
    instrWho (c.setWidth 8) (f3.setWidth 8) = ⟨.u, op⟩ := by
  revert f3
  cases op <;> cases h <;> decide

theorem cell_i {op : InstructionOp} {c : BitVec 7} {f3 : BitVec 3} (h : form op = some (.i c f3))
    (hl : loose op = false) : instrWho (c.setWidth 8) (f3.setWidth 8) = ⟨.i, op⟩ := by
  cases op <;> cases h
  case fence => exact absurd hl (by decide)
  all_goals rfl

section Parse

variable {w : RV64UWord} {op : InstructionOp} {c : BitVec 7} {f3 : BitVec 3}

theorem parseI_fields (w : RV64UWord) (op : InstructionOp) (c : Opcode) :
    parseI w op c = ⟨(rd w).setWidth 8, (rs1 w).setWidth 8, 0, (immI w).setWidth 64,
      (parseI w op c).operation⟩ := by
  unfold parseI
  dsimp only
  rw [rd_extractRegister, rs1_extractRegister, funct12_extractBits]
  split_ifs <;> rfl

theorem parse_fields (w : RV64UWord) : parse w =
    match (cellOf w).format with
    | .r => ⟨(rd w).setWidth 8, (rs1 w).setWidth 8, (rs2 w).setWidth 8,
        Instruction.immidiatePoison, (parse w).operation⟩
    | .i => ⟨(rd w).setWidth 8, (rs1 w).setWidth 8, 0, (immI w).setWidth 64, (parse w).operation⟩
    | .s => ⟨0, (rs1 w).setWidth 8, (rs2 w).setWidth 8, (immS w).setWidth 64,
        (parse w).operation⟩
    | .b => ⟨0, (rs1 w).setWidth 8, (rs2 w).setWidth 8, (offsetB w).setWidth 64,
        (parse w).operation⟩
    | .u => ⟨(rd w).setWidth 8, 0, 0, place 12 (immU w), (parse w).operation⟩
    | .j => ⟨(rd w).setWidth 8, 0, 0, (offsetJ w).setWidth 64, (parse w).operation⟩
    | .illegal => ⟨0, 0, 0, 0, (parse w).operation⟩ := by
  have h := parse_format w
  cases hf : (cellOf w).format <;> rw [hf] at h <;> dsimp only at h ⊢ <;> rw [h]
  case r => rw [← rd_extractRegister, ← rs1_extractRegister, ← rs2_extractRegister]; rfl
  case i => exact parseI_fields w _ _
  case s =>
    rw [← parseS_immidiate w (cellOf w).operation, ← rs1_extractRegister, ← rs2_extractRegister]
    rfl
  case b =>
    rw [← parseB_immidiate w (cellOf w).operation, ← rs1_extractRegister, ← rs2_extractRegister]
    rfl
  case u => rw [← parseU_immidiate w (cellOf w).operation, ← rd_extractRegister]; rfl
  case j => rw [← parseJ_immidiate w (cellOf w).operation, ← rd_extractRegister]; rfl

theorem parse_s (hop : (parse w).operation = op) (hl : loose op = false)
    (hf : form op = some (.s c f3)) :
    parse w = ⟨0, (rs1 w).setWidth 8, (rs2 w).setWidth 8, (immS w).setWidth 64, op⟩ := by
  obtain ⟨rfl, rfl⟩ := matches_of_parse hop hl hf
  have h := parse_fields w
  rwa [hop, cellOf, cell_s hf] at h

theorem parse_b (hop : (parse w).operation = op) (hl : loose op = false)
    (hf : form op = some (.b c f3)) :
    parse w = ⟨0, (rs1 w).setWidth 8, (rs2 w).setWidth 8, (offsetB w).setWidth 64, op⟩ := by
  obtain ⟨rfl, rfl⟩ := matches_of_parse hop hl hf
  have h := parse_fields w
  rwa [hop, cellOf, cell_b hf] at h

theorem parse_j (hop : (parse w).operation = op) (hl : loose op = false)
    (hf : form op = some (.j c)) :
    parse w = ⟨(rd w).setWidth 8, 0, 0, (offsetJ w).setWidth 64, op⟩ := by
  obtain rfl := matches_of_parse hop hl hf
  have h := parse_fields w
  rwa [hop, cellOf, cell_j hf] at h

theorem parse_u (hop : (parse w).operation = op) (hl : loose op = false)
    (hf : form op = some (.u c)) : parse w = ⟨(rd w).setWidth 8, 0, 0, place 12 (immU w), op⟩ := by
  obtain rfl := matches_of_parse hop hl hf
  have h := parse_fields w
  rwa [hop, cellOf, cell_u hf] at h

theorem parse_i (hop : (parse w).operation = op) (hl : loose op = false)
    (hf : form op = some (.i c f3)) :
    parse w = ⟨(rd w).setWidth 8, (rs1 w).setWidth 8, 0, (immI w).setWidth 64, op⟩ := by
  obtain ⟨rfl, rfl⟩ := matches_of_parse hop hl hf
  have h := parse_fields w
  rwa [hop, cellOf, cell_i hf hl] at h

theorem parse_opR (hc : opcode w = 0b0110011 ∨ opcode w = 0b0111011) :
    parse w = ⟨(rd w).setWidth 8, (rs1 w).setWidth 8, (rs2 w).setWidth 8,
      Instruction.immidiatePoison, (parse w).operation⟩ := by
  have hf : (cellOf w).format = .r := (format_r _ _).mpr hc
  have h := parse_fields w
  rwa [hf] at h

theorem parse_opI32 (hc : opcode w = 0b0011011) :
    parse w = ⟨(rd w).setWidth 8, (rs1 w).setWidth 8, 0, (immI w).setWidth 64,
      (parse w).operation⟩ := by
  have hf : (cellOf w).format = .i := format_i _ _ (.inr (.inr hc))
  have h := parse_fields w
  rwa [hf] at h

theorem parse_rd (w : RV64UWord) : (parse w).rd = (rd w).setWidth 8 ∨ (parse w).rd = 0 := by
  rw [parse_format]
  cases (cellOf w).format with
  | r => exact .inl (rd_extractRegister w)
  | i =>
    dsimp only [parseI]
    split_ifs <;> exact .inl (rd_extractRegister w)
  | u => exact .inl (rd_extractRegister w)
  | j => exact .inl (rd_extractRegister w)
  | _ => exact .inr rfl

end Parse

end Besm.Dec
