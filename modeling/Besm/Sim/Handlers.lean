import Besm.Exec.Csrf
import Besm.Exec.Gprf
import Besm.Memory.Interface

namespace Besm.Sim

open Besm.Exec Besm.Mem Besm.Util

/-- What the guest program can see of a hart. -/
structure Arch (M : Type) where
  gprf : GPRF
  csrf : CSRF
  mem : M

/-- What a handler does once `raiseException` has returned to it. -/
inductive Resume
  | ret
  | execNextInstr
  | jumpMepc
  deriving DecidableEq, Repr

/-- How a handler leaves its own work: on to the next instruction, into an
exception, back to the caller of `run`, or out by a C++ exception. -/
inductive Effect (S : Type)
  | next (s : S)
  | raise (id : ExceptionId) (s : S) (resume : Resume)
  | ret (s : S)
  | throw (e : MemError) (s : S)
  | terminate

def Effect.map {S T : Type} (f : S → T) : Effect S → Effect T
  | .next s => .next (f s)
  | .raise id s resume => .raise id (f s) resume
  | .ret s => .ret (f s)
  | .throw e s => .throw e (f s)
  | .terminate => .terminate

def trapVector (c : CSRF) (id : ExceptionId) : RV64Ptr :=
  if MTVec.mode.get c.mtvec = MTVec.vectoredMode then (MTVec.base.get c.mtvec + id.code) * 4
  else MTVec.base.get c.mtvec * 4

def trapCSRF (c : CSRF) (id : ExceptionId) (pc : RV64Ptr) : CSRF :=
  let mstatus := (MStatus.mpie.set (MStatus.mie.get c.mstatus) c.mstatus).2
  let mstatus := (MStatus.mie.set 0 mstatus).2
  let mstatus := (MStatus.mpp.set c.privillege mstatus).2
  let mcause := (MCause.interrupt.set 0 c.mcause).2
  let mcause := (MCause.exceptionCode.set id.code mcause).2
  { c with
    privillege := privillegeMachine
    mstatus := mstatus
    mcause := mcause
    mepc := (MEPC.value.set pc c.mepc).2 }

def mretCSRF (c : CSRF) : CSRF :=
  let mstatus := (MStatus.mie.set (MStatus.mpie.get c.mstatus) c.mstatus).2
  let mstatus := (MStatus.mpie.set 1 mstatus).2
  let mstatus := (MStatus.mpp.set privillegeUser mstatus).2
  { c with privillege := MStatus.mpp.get c.mstatus, mstatus := mstatus }

namespace Arch

variable {M : Type}

def read (s : Arch M) (r : Register) : RV64UDWord := s.gprf.read r

def write (s : Arch M) (r : Register) (value : RV64UDWord) : Arch M :=
  { s with gprf := s.gprf.write r value }

def pc (s : Arch M) : RV64Ptr := s.gprf.read GPRF.pc

def setPC (s : Arch M) (value : RV64Ptr) : Arch M :=
  { s with gprf := s.gprf.write GPRF.pc value }

def nextPC (s : Arch M) : Arch M := s.setPC (s.pc + ialign / 8)

/-- The part of `raiseException` before the handler's block is fetched. -/
def raiseException (s : Arch M) (id : ExceptionId) : Arch M :=
  { s with
    csrf := trapCSRF s.csrf id s.pc
    gprf := s.gprf.write GPRF.pc (trapVector s.csrf id) }

def retire (s : Arch M) (rd : Register) (res : RV64UDWord) : Effect (Arch M) :=
  .next (s.write rd res).nextPC

def branch (s : Arch M) (i : Instruction) (taken : Bool) : Effect (Arch M) :=
  let offset := signExtend 12 i.immidiate
  .next (if taken then s.setPC (s.pc + offset) else s.nextPC)

def address (s : Arch M) (i : Instruction) : RV64Ptr :=
  s.read i.rs1 + signExtend 12 i.immidiate

def load [Memory M] (s : Arch M) (i : Instruction) (w : Width)
    (extend : BitVec (8 * w.size) → RV64UDWord) : Effect (Arch M) :=
  match Memory.load s.mem w (s.address i) with
  | (.ok value, m) => { s with mem := m }.retire i.rd (extend value)
  | (.error e, m) => .throw e { s with mem := m }

def store [Memory M] (s : Arch M) (i : Instruction) (w : Width) : Effect (Arch M) :=
  match Memory.store s.mem w (s.address i) ((s.read i.rs2).setWidth (8 * w.size)) with
  | (.ok (), m) => .next { s with mem := m }.nextPC
  | (.error e, m) => .throw e { s with mem := m }

def raiseIllegalInstruction (s : Arch M) (resume : Resume) : Effect (Arch M) :=
  .raise .illegalInstr s resume

def csrStatus (s : Arch M) (i : Instruction) (status : Option RV64UDWord × CSRF) : Effect (Arch M) :=
  match status with
  | (none, c) => { s with csrf := c }.raiseIllegalInstruction .execNextInstr
  | (some oldValue, c) => { s with csrf := c }.retire i.rd oldValue

end Arch

section Handlers

variable {M : Type}

def execINVOP (_ : Instruction) (s : Arch M) : Effect (Arch M) := s.raiseIllegalInstruction .ret

def execADDI (i : Instruction) (s : Arch M) : Effect (Arch M) :=
  s.retire i.rd (s.read i.rs1 + signExtend 12 i.immidiate)

def execSLTI (i : Instruction) (s : Arch M) : Effect (Arch M) :=
  s.retire i.rd (if (s.read i.rs1).slt (signExtend 12 i.immidiate) then 1 else 0)

def execSLTIU (i : Instruction) (s : Arch M) : Effect (Arch M) :=
  s.retire i.rd (if s.read i.rs1 < signExtend 12 i.immidiate then 1 else 0)

def execORI (i : Instruction) (s : Arch M) : Effect (Arch M) :=
  s.retire i.rd (s.read i.rs1 ||| signExtend 12 i.immidiate)

def execANDI (i : Instruction) (s : Arch M) : Effect (Arch M) :=
  s.retire i.rd (s.read i.rs1 &&& signExtend 12 i.immidiate)

def execXORI (i : Instruction) (s : Arch M) : Effect (Arch M) :=
  s.retire i.rd (s.read i.rs1 ^^^ signExtend 12 i.immidiate)

def execSLLI (i : Instruction) (s : Arch M) : Effect (Arch M) :=
  s.retire i.rd (s.read i.rs1 <<< extractBits 5 0 i.immidiate)

def execSRLI (i : Instruction) (s : Arch M) : Effect (Arch M) :=
  s.retire i.rd (s.read i.rs1 >>> extractBits 5 0 i.immidiate)

def execSRAI (i : Instruction) (s : Arch M) : Effect (Arch M) :=
  s.retire i.rd ((s.read i.rs1).sshiftRight' (extractBits 5 0 i.immidiate))

def execLUI (i : Instruction) (s : Arch M) : Effect (Arch M) :=
  s.retire i.rd (extractBits 20 0 i.immidiate)

def execAUIPC (i : Instruction) (s : Arch M) : Effect (Arch M) :=
  s.retire i.rd (s.pc + extractBits 20 0 i.immidiate)

def execADD (i : Instruction) (s : Arch M) : Effect (Arch M) :=
  s.retire i.rd (s.read i.rs1 + s.read i.rs2)

def execSLT (i : Instruction) (s : Arch M) : Effect (Arch M) :=
  s.retire i.rd (if (s.read i.rs1).slt (s.read i.rs2) then 1 else 0)

def execSLTU (i : Instruction) (s : Arch M) : Effect (Arch M) :=
  s.retire i.rd (if s.read i.rs1 < s.read i.rs2 then 1 else 0)

def execAND (i : Instruction) (s : Arch M) : Effect (Arch M) :=
  s.retire i.rd (s.read i.rs1 &&& s.read i.rs2)

def execOR (i : Instruction) (s : Arch M) : Effect (Arch M) :=
  s.retire i.rd (s.read i.rs1 ||| s.read i.rs2)

def execXOR (i : Instruction) (s : Arch M) : Effect (Arch M) :=
  s.retire i.rd (s.read i.rs1 ^^^ s.read i.rs2)

-- A shift by 64 or more is undefined in C++; here it shifts every bit out.
def execSLL (i : Instruction) (s : Arch M) : Effect (Arch M) :=
  s.retire i.rd (s.read i.rs1 <<< s.read i.rs2)

def execSRL (i : Instruction) (s : Arch M) : Effect (Arch M) :=
  s.retire i.rd (s.read i.rs1 >>> s.read i.rs2)

def execSUB (i : Instruction) (s : Arch M) : Effect (Arch M) :=
  s.retire i.rd (s.read i.rs1 - s.read i.rs2)

def execSRA (i : Instruction) (s : Arch M) : Effect (Arch M) :=
  s.retire i.rd ((s.read i.rs1).sshiftRight' (s.read i.rs2))

def execJAL (i : Instruction) (s : Arch M) : Effect (Arch M) :=
  let target := s.pc + signExtend 20 i.immidiate
  .next ((s.write i.rd (s.pc + 4)).setPC target)

def execJALR (i : Instruction) (s : Arch M) : Effect (Arch M) :=
  let target := (s.read i.rs1 + signExtend 12 i.immidiate) &&& ~~~(1 : RV64UDWord)
  .next ((s.write i.rd (s.pc + 4)).setPC target)

def execBEQ (i : Instruction) (s : Arch M) : Effect (Arch M) :=
  s.branch i (s.read i.rs1 = s.read i.rs2)

def execBNE (i : Instruction) (s : Arch M) : Effect (Arch M) :=
  s.branch i (s.read i.rs1 ≠ s.read i.rs2)

def execBLT (i : Instruction) (s : Arch M) : Effect (Arch M) :=
  s.branch i ((s.read i.rs1).slt (s.read i.rs2))

def execBLTU (i : Instruction) (s : Arch M) : Effect (Arch M) :=
  s.branch i (s.read i.rs1 < s.read i.rs2)

def execBGE (i : Instruction) (s : Arch M) : Effect (Arch M) :=
  s.branch i ((s.read i.rs2).sle (s.read i.rs1))

def execBGEU (i : Instruction) (s : Arch M) : Effect (Arch M) :=
  s.branch i (s.read i.rs1 ≥ s.read i.rs2)

-- Does nothing in in-order implementation
def execFENCE (_ : Instruction) (s : Arch M) : Effect (Arch M) := .next s.nextPC

def execFENCETSO (_ : Instruction) (s : Arch M) : Effect (Arch M) := .next s.nextPC

def execPAUSE (_ : Instruction) (s : Arch M) : Effect (Arch M) :=
  s.raiseIllegalInstruction .execNextInstr

def execECALL (_ : Instruction) (s : Arch M) : Effect (Arch M) :=
  if s.csrf.privillege = privillegeUser then .raise .ecallUmode s .execNextInstr
  else if s.csrf.privillege = privillegeSupervisor then .raise .ecallSmode s .execNextInstr
  else if s.csrf.privillege = privillegeMachine then .raise .ecallMmode s .execNextInstr
  else .terminate

def execEBREAK (_ : Instruction) (s : Arch M) : Effect (Arch M) := .ret s

def execADDIW (i : Instruction) (s : Arch M) : Effect (Arch M) :=
  s.retire i.rd (extractBits 32 0 (s.read i.rs1 + signExtend 12 i.immidiate))

def execSLLIW (i : Instruction) (s : Arch M) : Effect (Arch M) :=
  s.retire i.rd (extractBits 32 0 (s.read i.rs1 <<< signExtend 12 i.immidiate))

def execSRLIW (i : Instruction) (s : Arch M) : Effect (Arch M) :=
  s.retire i.rd (extractBits 32 0 (s.read i.rs1 >>> signExtend 12 i.immidiate))

def execSRAIW (i : Instruction) (s : Arch M) : Effect (Arch M) :=
  s.retire i.rd (extractBits 32 0 ((s.read i.rs1).sshiftRight' (signExtend 12 i.immidiate)))

def execADDW (i : Instruction) (s : Arch M) : Effect (Arch M) :=
  s.retire i.rd (extractBits 32 0 (s.read i.rs1 + s.read i.rs2))

def execSUBW (i : Instruction) (s : Arch M) : Effect (Arch M) :=
  s.retire i.rd (extractBits 32 0 (s.read i.rs1 - s.read i.rs2))

def execSLLW (i : Instruction) (s : Arch M) : Effect (Arch M) :=
  s.retire i.rd (extractBits 32 0 (s.read i.rs1 <<< s.read i.rs2))

def execSRLW (i : Instruction) (s : Arch M) : Effect (Arch M) :=
  s.retire i.rd (extractBits 32 0 (s.read i.rs1 >>> s.read i.rs2))

def execSRAW (i : Instruction) (s : Arch M) : Effect (Arch M) :=
  s.retire i.rd (extractBits 32 0 ((s.read i.rs1).sshiftRight' (s.read i.rs2)))

/-- Below machine mode the handler raises, and then overwrites the program
counter that `raiseException` has just set. -/
def execMRET (_ : Instruction) (s : Arch M) : Effect (Arch M) :=
  if s.csrf.privillege ≠ privillegeMachine then s.raiseIllegalInstruction .jumpMepc
  else .next ({ s with csrf := mretCSRF s.csrf }.setPC (MEPC.value.get s.csrf.mepc))

def execSRET (_ : Instruction) (_ : Arch M) : Effect (Arch M) := .terminate

def execCSRRW (i : Instruction) (s : Arch M) : Effect (Arch M) :=
  s.csrStatus i (s.csrf.write i.immidiate (s.read i.rs1))

def execCSRRS (i : Instruction) (s : Arch M) : Effect (Arch M) :=
  if i.rs1 = GPRF.x0 then s.csrStatus i (s.csrf.read i.immidiate, s.csrf)
  else s.csrStatus i (s.csrf.setBits i.immidiate (s.read i.rs1))

def execCSRRC (i : Instruction) (s : Arch M) : Effect (Arch M) :=
  s.csrStatus i (s.csrf.clearBits i.immidiate (s.read i.rs1))

def execCSRRWI (i : Instruction) (s : Arch M) : Effect (Arch M) :=
  s.csrStatus i (s.csrf.write i.immidiate (i.rs1.setWidth 64))

def execCSRRSI (i : Instruction) (s : Arch M) : Effect (Arch M) :=
  s.csrStatus i (s.csrf.setBits i.immidiate (i.rs1.setWidth 64))

def execCSRRCI (i : Instruction) (s : Arch M) : Effect (Arch M) :=
  s.csrStatus i (s.csrf.clearBits i.immidiate (i.rs1.setWidth 64))

variable [Memory M]

def execLB (i : Instruction) (s : Arch M) : Effect (Arch M) := s.load i .byte (BitVec.signExtend 64)

def execLH (i : Instruction) (s : Arch M) : Effect (Arch M) := s.load i .hWord (BitVec.signExtend 64)

def execLW (i : Instruction) (s : Arch M) : Effect (Arch M) := s.load i .word (BitVec.signExtend 64)

def execLD (i : Instruction) (s : Arch M) : Effect (Arch M) := s.load i .dWord (BitVec.setWidth 64)

def execLBU (i : Instruction) (s : Arch M) : Effect (Arch M) := s.load i .byte (BitVec.setWidth 64)

def execLHU (i : Instruction) (s : Arch M) : Effect (Arch M) := s.load i .hWord (BitVec.setWidth 64)

def execLWU (i : Instruction) (s : Arch M) : Effect (Arch M) := s.load i .word (BitVec.setWidth 64)

def execSB (i : Instruction) (s : Arch M) : Effect (Arch M) := s.store i .byte

def execSH (i : Instruction) (s : Arch M) : Effect (Arch M) := s.store i .hWord

def execSW (i : Instruction) (s : Arch M) : Effect (Arch M) := s.store i .word

def execSD (i : Instruction) (s : Arch M) : Effect (Arch M) := s.store i .dWord

end Handlers

/-- The handler table, indexed by the operation. The handler of a block's end
has no effect of its own: the hart fetches the next block for it. -/
def handlerArr {M : Type} [Memory M] : InstructionOp → Instruction → Arch M → Effect (Arch M)
  | .invOp => execINVOP
  | .lui => execLUI
  | .auipc => execAUIPC
  | .jal => execJAL
  | .jalr => execJALR
  | .beq => execBEQ
  | .bne => execBNE
  | .blt => execBLT
  | .bge => execBGE
  | .bltu => execBLTU
  | .bgeu => execBGEU
  | .lb => execLB
  | .lh => execLH
  | .lw => execLW
  | .lbu => execLBU
  | .lhu => execLHU
  | .sb => execSB
  | .sh => execSH
  | .sw => execSW
  | .addi => execADDI
  | .slti => execSLTI
  | .sltiu => execSLTIU
  | .xori => execXORI
  | .ori => execORI
  | .andi => execANDI
  | .add => execADD
  | .sub => execSUB
  | .sll => execSLL
  | .slt => execSLT
  | .sltu => execSLTU
  | .xor => execXOR
  | .srl => execSRL
  | .sra => execSRA
  | .or => execOR
  | .and => execAND
  | .fence => execFENCE
  | .fenceTso => execFENCETSO
  | .pause => execPAUSE
  | .ecall => execECALL
  | .ebreak => execEBREAK
  | .lwu => execLWU
  | .ld => execLD
  | .sd => execSD
  | .slli => execSLLI
  | .srli => execSRLI
  | .srai => execSRAI
  | .addiw => execADDIW
  | .slliw => execSLLIW
  | .srliw => execSRLIW
  | .sraiw => execSRAIW
  | .addw => execADDW
  | .subw => execSUBW
  | .sllw => execSLLW
  | .srlw => execSRLW
  | .sraw => execSRAW
  | .csrrw => execCSRRW
  | .csrrs => execCSRRS
  | .csrrc => execCSRRC
  | .csrrwi => execCSRRWI
  | .csrrsi => execCSRRSI
  | .csrrci => execCSRRCI
  | .sret => execSRET
  | .mret => execMRET
  | .bbEnd => fun _ s => .next s

def effect {M : Type} [Memory M] (i : Instruction) (s : Arch M) : Effect (Arch M) :=
  handlerArr i.operation i s

end Besm.Sim
