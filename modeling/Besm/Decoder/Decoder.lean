import Besm.Decoder.Instruction
import Besm.Util.BitMagic

namespace Besm.Dec

open Besm.Util

inductive Format
  | illegal | r | i | s | b | u | j
  deriving DecidableEq, Repr

structure Cell where
  format : Format
  operation : InstructionOp
  deriving DecidableEq, Repr

/-- The row of the operations matrix at an opcode, indexed by `func3`. The
opcodes left out hold eight illegal cells each. -/
def instrRow (opcode : Opcode) : List Cell :=
  match opcode with
  | 0b0000011#8 => [⟨.i, .lb⟩, ⟨.i, .lh⟩, ⟨.i, .lw⟩, ⟨.i, .ld⟩, ⟨.i, .lbu⟩, ⟨.i, .lhu⟩, ⟨.i, .lwu⟩,
      ⟨.i, .invOp⟩]
  | 0b0001111#8 => ⟨.i, .pause⟩ :: List.replicate 7 ⟨.i, .invOp⟩
  | 0b0010011#8 => [⟨.i, .addi⟩, ⟨.i, .slli⟩, ⟨.i, .slti⟩, ⟨.i, .sltiu⟩, ⟨.i, .xori⟩, ⟨.i, .srai⟩,
      ⟨.i, .ori⟩, ⟨.i, .andi⟩]
  | 0b0010111#8 => List.replicate 8 ⟨.u, .auipc⟩
  | 0b0011011#8 => ⟨.i, .addiw⟩ :: ⟨.i, .slliw⟩ :: List.replicate 6 ⟨.i, .invOp⟩
  | 0b0100011#8 => [⟨.s, .sb⟩, ⟨.s, .sh⟩, ⟨.s, .sw⟩, ⟨.s, .sd⟩] ++ List.replicate 4 ⟨.s, .invOp⟩
  | 0b0110011#8 => List.replicate 8 ⟨.r, .invOp⟩
  | 0b0110111#8 => List.replicate 8 ⟨.u, .lui⟩
  | 0b0111011#8 => List.replicate 8 ⟨.r, .invOp⟩
  | 0b1100011#8 => [⟨.b, .beq⟩, ⟨.b, .bne⟩, ⟨.b, .invOp⟩, ⟨.b, .invOp⟩, ⟨.b, .blt⟩, ⟨.b, .bge⟩,
      ⟨.b, .bltu⟩, ⟨.b, .bgeu⟩]
  | 0b1100111#8 => ⟨.i, .jalr⟩ :: List.replicate 7 ⟨.i, .invOp⟩
  | 0b1101111#8 => List.replicate 8 ⟨.j, .jal⟩
  | 0b1110011#8 => [⟨.i, .invOp⟩, ⟨.i, .csrrw⟩, ⟨.i, .csrrs⟩, ⟨.i, .csrrc⟩, ⟨.i, .invOp⟩,
      ⟨.i, .csrrwi⟩, ⟨.i, .csrrsi⟩, ⟨.i, .csrrci⟩]
  | _ => List.replicate 8 ⟨.illegal, .invOp⟩

def instrWho (opcode func3 : BitVec 8) : Cell :=
  (instrRow opcode).getD func3.toNat ⟨.illegal, .invOp⟩

def extractRegister (shift : Nat) (bytecode : RV64UWord) : Register :=
  (extractBits 5 shift bytecode).setWidth 8

def rdShift : Nat := 7
def rs1Shift : Nat := 15
def rs2Shift : Nat := 20
def func3Shift : Nat := 12

def operationOp (func10 : BitVec 16) : InstructionOp :=
  match func10 with
  | 0b0000000000#16 => .add
  | 0b0100000000#16 => .sub
  | 0b0000000001#16 => .sll
  | 0b0000000010#16 => .slt
  | 0b0000000011#16 => .sltu
  | 0b0000000100#16 => .xor
  | 0b0000000101#16 => .srl
  | 0b0100000101#16 => .sra
  | 0b0000000110#16 => .or
  | 0b0000000111#16 => .and
  | _ => .invOp

def operationOp32 (func10 : BitVec 16) : InstructionOp :=
  match func10 with
  | 0b0000000000#16 => .addw
  | 0b0100000000#16 => .subw
  | 0b0000000001#16 => .sllw
  | 0b0000000101#16 => .srlw
  | 0b0100000101#16 => .sraw
  | _ => .invOp

def parseR (bytecode : RV64UWord) (opcode : Opcode) (func3 : BitVec 8) : Instruction :=
  let func7 : BitVec 16 := ((bytecode &&& 0xFE000000#32) >>> 22).setWidth 16
  let func10 : BitVec 16 := func7 ||| func3.setWidth 16
  let operation : InstructionOp :=
    if opcode = 0b0110011 then operationOp func10
    else if opcode = 0b0111011 then operationOp32 func10
    else .invOp
  { rd := extractRegister rdShift bytecode
    rs1 := extractRegister rs1Shift bytecode
    rs2 := extractRegister rs2Shift bytecode
    immidiate := Instruction.immidiatePoison
    operation := operation }

def parseU (bytecode : RV64UWord) (operation : InstructionOp) : Instruction :=
  { rd := extractRegister rdShift bytecode
    immidiate := (bytecode &&& 0xFFFFF000#32).setWidth 64
    operation := operation }

def parseI (bytecode : RV64UWord) (operation : InstructionOp) (opcode : Opcode) : Instruction :=
  let imm : Immidiate := extractBits 12 20 (bytecode.setWidth 64)
  let rd : Register := extractRegister rdShift bytecode
  let rs1 : Register := extractRegister rs1Shift bytecode
  let func3 : BitVec 8 := (extractBits 3 func3Shift bytecode).setWidth 8
  if operation ≠ .invOp then
    { rd := rd, rs1 := rs1, immidiate := imm, operation := operation }
  else if opcode = 0b0001111 then
    -- every word of this opcode that the matrix leaves open is taken as FENCE
    { rd := rd, rs1 := rs1, immidiate := imm, operation := .fence }
  else if opcode = 0b1110011 then
    let operation : InstructionOp :=
      if rd = 0 ∧ rs1 = 0 ∧ func3 = 0 then
        if imm = 0b0 then .ecall
        else if imm = 0b1 then .ebreak
        else if imm = 0b000100000010 then .sret
        else if imm = 0b001100000010 then .mret
        else .invOp
      else .invOp
    { rd := rd, rs1 := rs1, immidiate := imm, operation := operation }
  else if opcode = 0b0011011 then
    let operation : InstructionOp :=
      if bytecode >>> 25 = 0b0 then .srliw
      else if bytecode >>> 25 = 0b0100000 then .sraiw
      else .invOp
    { rd := rd, rs1 := rs1, immidiate := imm, operation := operation }
  else
    { rd := rd, rs1 := rs1, immidiate := imm, operation := .invOp }

def parseS (bytecode : RV64UWord) (operation : InstructionOp) : Instruction :=
  let imm11_5 : Immidiate := extractBits 7 25 (bytecode.setWidth 64) <<< 5
  let imm4_0 : Immidiate := extractBits 5 7 (bytecode.setWidth 64) <<< 0
  { rs1 := extractRegister rs1Shift bytecode
    rs2 := extractRegister rs2Shift bytecode
    immidiate := imm4_0 ||| imm11_5
    operation := operation }

def parseB (bytecode : RV64UWord) (operation : InstructionOp) : Instruction :=
  let imm12 : Immidiate := extractBits 1 31 (bytecode.setWidth 64) <<< 12
  let imm5_10 : Immidiate := extractBits 6 25 (bytecode.setWidth 64) <<< 5
  let imm1_4 : Immidiate := extractBits 4 8 (bytecode.setWidth 64) <<< 1
  let imm11 : Immidiate := extractBits 1 7 (bytecode.setWidth 64) <<< 11
  { rs1 := extractRegister rs1Shift bytecode
    rs2 := extractRegister rs2Shift bytecode
    immidiate := imm1_4 ||| imm5_10 ||| imm11 ||| imm12
    operation := operation }

def parseJ (bytecode : RV64UWord) (operation : InstructionOp) : Instruction :=
  let bit20 : RV64UWord := extractBits 1 31 bytecode <<< 20
  let bit1_10 : RV64UWord := extractBits 10 21 bytecode <<< 1
  let bit11 : RV64UWord := extractBits 1 20 bytecode <<< 11
  let bit12_19 : RV64UWord := extractBits 8 12 bytecode <<< 12
  { rd := extractRegister rdShift bytecode
    immidiate := (bit20 ||| bit1_10 ||| bit11 ||| bit12_19).setWidth 64
    operation := operation }

def parse (bytecode : RV64UWord) : Instruction :=
  let opcode : Opcode := (extractBits 7 0 bytecode).setWidth 8
  let func3 : BitVec 8 := (extractBits 3 func3Shift bytecode).setWidth 8
  let cell : Cell := instrWho opcode func3
  match cell.format with
  | .r => parseR bytecode opcode func3
  | .i => parseI bytecode cell.operation opcode
  | .s => parseS bytecode cell.operation
  | .b => parseB bytecode cell.operation
  | .u => parseU bytecode cell.operation
  | .j => parseJ bytecode cell.operation
  | .illegal => { operation := .invOp }

theorem extractRegister_lt (shift : Nat) (bytecode : RV64UWord) :
    extractRegister shift bytecode < 32 := by
  have h := toNat_extractBits_lt 5 shift bytecode
  rw [extractRegister, BitVec.lt_def, BitVec.toNat_setWidth]
  exact Nat.lt_of_le_of_lt (Nat.mod_le _ _) h

theorem parseI_registers (bytecode : RV64UWord) (operation : InstructionOp) (opcode : Opcode) :
    (parseI bytecode operation opcode).rd < 32 ∧ (parseI bytecode operation opcode).rs1 < 32 ∧
      (parseI bytecode operation opcode).rs2 < 32 := by
  have h := fun shift => extractRegister_lt shift bytecode
  have h0 : (0 : Register) < 32 := by decide
  unfold parseI
  dsimp only
  split_ifs <;> exact ⟨h _, h _, h0⟩

theorem parse_registers (bytecode : RV64UWord) :
    (parse bytecode).rd < 32 ∧ (parse bytecode).rs1 < 32 ∧ (parse bytecode).rs2 < 32 := by
  have h := fun shift => extractRegister_lt shift bytecode
  have h0 : (0 : Register) < 32 := by decide
  unfold parse
  dsimp only
  split
  · exact ⟨h _, h _, h _⟩
  · exact parseI_registers _ _ _
  · exact ⟨h0, h _, h _⟩
  · exact ⟨h0, h _, h _⟩
  · exact ⟨h _, h0, h0⟩
  · exact ⟨h _, h0, h0⟩
  · exact ⟨h0, h0, h0⟩

theorem instrWho_ne_bbEnd (opcode func3 : BitVec 8) : (instrWho opcode func3).operation ≠ .bbEnd := by
  have hrow : ∀ c ∈ instrRow opcode, c.operation ≠ .bbEnd := by
    unfold instrRow
    split <;> decide
  unfold instrWho
  rw [List.getD_eq_getElem?_getD]
  cases hc : (instrRow opcode)[func3.toNat]? with
  | none => decide
  | some c => exact hrow c (List.mem_of_getElem? hc)

theorem parseR_ne_bbEnd (bytecode : RV64UWord) (opcode : Opcode) (func3 : BitVec 8) :
    (parseR bytecode opcode func3).operation ≠ .bbEnd := by
  have hop : ∀ f, operationOp f ≠ .bbEnd := by
    intro f
    unfold operationOp
    split <;> decide
  have hop32 : ∀ f, operationOp32 f ≠ .bbEnd := by
    intro f
    unfold operationOp32
    split <;> decide
  unfold parseR
  dsimp only
  split_ifs
  · exact hop _
  · exact hop32 _
  · decide

theorem parseI_ne_bbEnd (bytecode : RV64UWord) {operation : InstructionOp} (opcode : Opcode)
    (h : operation ≠ .bbEnd) : (parseI bytecode operation opcode).operation ≠ .bbEnd := by
  unfold parseI
  dsimp only
  split_ifs <;> first | exact h | exact InstructionOp.noConfusion

theorem parse_ne_bbEnd (bytecode : RV64UWord) : (parse bytecode).operation ≠ .bbEnd := by
  have h := instrWho_ne_bbEnd
  unfold parse
  dsimp only
  split
  · exact parseR_ne_bbEnd _ _ _
  · exact parseI_ne_bbEnd _ _ (h _ _)
  · exact h _ _
  · exact h _ _
  · exact h _ _
  · exact h _ _
  · decide

end Besm.Dec
