import Besm.RiscvTypes

namespace Besm

inductive InstructionOp
  | invOp
  | lui | auipc | jal | jalr
  | beq | bne | blt | bge | bltu | bgeu
  | lb | lh | lw | lbu | lhu
  | sb | sh | sw
  | addi | slti | sltiu | xori | ori | andi
  | add | sub | sll | slt | sltu | xor | srl | sra | or | and
  | fence | fenceTso | pause | ecall | ebreak
  | lwu | ld | sd
  | slli | srli | srai
  | addiw | slliw | srliw | sraiw
  | addw | subw | sllw | srlw | sraw
  | csrrw | csrrs | csrrc | csrrwi | csrrsi | csrrci
  | sret | mret
  | bbEnd
  deriving DecidableEq, Repr

abbrev Opcode := BitVec 8
abbrev Register := BitVec 8
abbrev Immidiate := RV64UDWord

/-- A decoded instruction. The fields that a format does not set are zero. -/
structure Instruction where
  rd : Register := 0
  rs1 : Register := 0
  rs2 : Register := 0
  immidiate : RV64UDWord := 0
  operation : InstructionOp
  deriving DecidableEq, Repr

namespace InstructionOp

def isJump : InstructionOp → Bool
  | jal | jalr | beq | bne | blt | bge | bltu | bgeu | mret | sret | ecall => true
  | _ => false

end InstructionOp

namespace Instruction

def immidiatePoison : RV64UDWord := 0xFFFFFFFF

def isJump (i : Instruction) : Bool := i.operation.isJump

end Instruction

end Besm
