import Besm.Exec.Fields
import Besm.Sim.Handlers

namespace Besm.Sim

open Besm.Exec Besm.Mem Besm.Util

variable {M : Type}

namespace Arch

@[simp] theorem pc_setPC (s : Arch M) (value : RV64Ptr) : (s.setPC value).pc = value :=
  GPRF.read_pc_write_pc _ _

theorem pc_write (s : Arch M) {r : Register} (value : RV64UDWord) (h : r < 32) :
    (s.write r value).pc = s.pc :=
  GPRF.read_pc_write _ _ h

@[simp] theorem pc_nextPC (s : Arch M) : s.nextPC.pc = s.pc + 4 := pc_setPC _ _

theorem read_setPC (s : Arch M) {r : Register} (value : RV64Ptr) (h : r < 32) :
    (s.setPC value).read r = s.read r :=
  GPRF.read_write_of_ne _ _ fun he => absurd (he ▸ h) (by decide)

theorem read_nextPC (s : Arch M) {r : Register} (h : r < 32) : s.nextPC.read r = s.read r :=
  s.read_setPC _ h

theorem read_write (s : Arch M) (regId r : Register) (value : RV64UDWord) :
    (s.write regId value).read r =
      if r = GPRF.x0 then 0 else if r = regId then value else s.read r :=
  GPRF.read_write _ _ _ _

end Arch

def storeWidth : InstructionOp → Option Width
  | .sb => some .byte
  | .sh => some .hWord
  | .sw => some .word
  | .sd => some .dWord
  | _ => none

def isBranch : InstructionOp → Bool
  | .beq | .bne | .blt | .bge | .bltu | .bgeu => true
  | _ => false

/-- The function of its old value that a CSR operation writes to a register;
`none` for an operation that writes none. -/
def csrWrite (i : Instruction) (s : Arch M) : Option (RV64UDWord → RV64UDWord) :=
  match i.operation with
  | .csrrw => some fun _ => s.read i.rs1
  | .csrrs => if i.rs1 = GPRF.x0 then none else some fun old => old ||| s.read i.rs1
  | .csrrc => some fun old => old &&& ~~~(s.read i.rs1)
  | .csrrwi => some fun _ => i.rs1.setWidth 64
  | .csrrsi => some fun old => old ||| i.rs1.setWidth 64
  | .csrrci => some fun old => old &&& ~~~(i.rs1.setWidth 64)
  | _ => none

/-- Every way in which an instruction can go on to the next one. -/
inductive Advances [Memory M] (i : Instruction) (s : Arch M) : Arch M → Prop
  | retire (value : RV64UDWord) : Advances i s (s.write i.rd value).nextPC
  | fence : Advances i s s.nextPC
  | jal (hop : i.operation = .jal) :
      Advances i s ((s.write i.rd (s.pc + 4)).setPC (s.pc + signExtend 20 i.immidiate))
  | jalr (hop : i.operation = .jalr) :
      Advances i s ((s.write i.rd (s.pc + 4)).setPC
        ((s.read i.rs1 + signExtend 12 i.immidiate) &&& ~~~(1 : RV64UDWord)))
  | taken (hop : isBranch i.operation = true) :
      Advances i s (s.setPC (s.pc + signExtend 12 i.immidiate))
  | notTaken (hop : isBranch i.operation = true) : Advances i s s.nextPC
  | load (w : Width) (value : RV64UDWord) :
      Advances i s
        (({ s with mem := (Memory.load s.mem w (s.address i)).2 } : Arch M).write i.rd value).nextPC
  | store (w : Width) (hop : storeWidth i.operation = some w)
      (value : BitVec (8 * w.size)) :
      Advances i s { s with mem := (Memory.store s.mem w (s.address i) value).2 }.nextPC
  | csrRead (value : RV64UDWord) (h : s.csrf.fitPrivillege i.immidiate = true)
      (hreg : (CSRF.registers i.immidiate).isSome) : Advances i s (s.write i.rd value).nextPC
  | csrWrite (f : RV64UDWord → RV64UDWord) (hf : csrWrite i s = some f) (reg : ICSR)
      (h : s.csrf.fitPrivillege i.immidiate = true)
      (hreg : CSRF.registers i.immidiate = some reg) :
      Advances i s (({ s with csrf := (s.csrf.update i.immidiate f).2 } : Arch M).write i.rd
        (s.csrf.raw reg)).nextPC
  | mret (hpriv : s.csrf.privillege = privillegeMachine) (hop : i.operation = .mret) :
      Advances i s (({ s with csrf := mretCSRF s.csrf } : Arch M).setPC
        (MEPC.value.get s.csrf.mepc))

def isCSR : InstructionOp → Bool
  | .csrrw | .csrrs | .csrrc | .csrrwi | .csrrsi | .csrrci => true
  | _ => false

/-- Every exception that an instruction can raise, with what its handler does
once the exception is raised. -/
inductive Raises (i : Instruction) (s : Arch M) : ExceptionId → Resume → Prop
  | invOp (hop : i.operation = .invOp) : Raises i s .illegalInstr .ret
  | pause (hop : i.operation = .pause) : Raises i s .illegalInstr .execNextInstr
  | ecallUser (hop : i.operation = .ecall) (hpriv : s.csrf.privillege = privillegeUser) :
      Raises i s .ecallUmode .execNextInstr
  | ecallSupervisor (hop : i.operation = .ecall)
      (hpriv : s.csrf.privillege = privillegeSupervisor) :
      Raises i s .ecallSmode .execNextInstr
  | ecallMachine (hop : i.operation = .ecall) (hpriv : s.csrf.privillege = privillegeMachine) :
      Raises i s .ecallMmode .execNextInstr
  | csr (hop : isCSR i.operation = true) : Raises i s .illegalInstr .execNextInstr
  | mret (hop : i.operation = .mret) (hpriv : s.csrf.privillege ≠ privillegeMachine) :
      Raises i s .illegalInstr .jumpMepc

inductive Yields [Memory M] (i : Instruction) (s : Arch M) : Effect (Arch M) → Prop
  | next {s' : Arch M} (h : Advances i s s') : Yields i s (.next s')
  | bbEnd (hop : i.operation = .bbEnd) : Yields i s (.next s)
  | raise {id : ExceptionId} {r : Resume} (h : Raises i s id r) : Yields i s (.raise id s r)
  | ret (hop : i.operation = .ebreak) : Yields i s (.ret s)
  | load {w : Width} {e : MemError} {m : M}
      (h : Memory.load s.mem w (s.address i) = (.error e, m)) :
      Yields i s (.throw e { s with mem := m })
  | store {w : Width} {value : BitVec (8 * w.size)} {e : MemError} {m : M}
      (h : Memory.store s.mem w (s.address i) value = (.error e, m)) :
      Yields i s (.throw e { s with mem := m })
  | terminate : Yields i s .terminate

section Yields

variable [Memory M] {i : Instruction} {s s' : Arch M}

theorem yields_update {f : RV64UDWord → RV64UDWord} (hop : isCSR i.operation = true)
    (hf : csrWrite i s = some f) : Yields i s (s.csrStatus i (s.csrf.update i.immidiate f)) := by
  obtain hu | ⟨reg, hfit, hreg, hu⟩ := s.csrf.update_cases i.immidiate f
  · rw [hu]
    exact .raise (.csr hop)
  · have ha := Advances.csrWrite (i := i) (s := s) f hf reg hfit hreg
    rw [hu] at ha ⊢
    exact .next ha

theorem yields_read (hop : isCSR i.operation = true) :
    Yields i s (s.csrStatus i (s.csrf.read i.immidiate, s.csrf)) := by
  unfold CSRF.read
  by_cases hfit : s.csrf.fitPrivillege i.immidiate = true
  · cases hreg : CSRF.registers i.immidiate with
    | none =>
      simp only [hfit]
      exact .raise (.csr hop)
    | some reg =>
      simp only [hfit]
      exact .next (.csrRead _ hfit (by simp [hreg]))
  · simp only [hfit]
    exact .raise (.csr hop)

theorem yields_branch (hop : isBranch i.operation = true) (taken : Bool) :
    Yields i s (s.branch i taken) := by
  cases taken with
  | false => exact .next (.notTaken hop)
  | true => exact .next (.taken hop)

theorem yields_load (w : Width) (extend : BitVec (8 * w.size) → RV64UDWord) :
    Yields i s (s.load i w extend) := by
  unfold Arch.load
  split
  case h_1 value m hm =>
    have ha := Advances.load (i := i) (s := s) w (extend value)
    rw [hm] at ha
    exact .next ha
  case h_2 e m hm => exact .load hm

theorem yields_store {w : Width} (hop : storeWidth i.operation = some w) :
    Yields i s (s.store i w) := by
  unfold Arch.store
  split
  case h_1 m hm =>
    have ha := Advances.store (i := i) (s := s) w hop ((s.read i.rs2).setWidth (8 * w.size))
    rw [hm] at ha
    exact .next ha
  case h_2 e m hm => exact .store hm

theorem yields_effect (i : Instruction) (s : Arch M) : Yields i s (effect i s) := by
  unfold effect
  cases hop : i.operation <;> dsimp only [handlerArr]
  case bbEnd => exact .bbEnd hop
  case invOp => exact .raise (.invOp hop)
  case pause => exact .raise (.pause hop)
  case ebreak => exact .ret hop
  case sret => exact .terminate
  case ecall =>
    unfold execECALL
    split_ifs with hu hs hm
    · exact .raise (.ecallUser hop hu)
    · exact .raise (.ecallSupervisor hop hs)
    · exact .raise (.ecallMachine hop hm)
    · exact .terminate
  case mret =>
    unfold execMRET
    split_ifs with hp
    · exact .raise (.mret hop hp)
    · exact .next (.mret (not_not.mp hp) hop)
  case fence | fenceTso => exact .next .fence
  case jal => exact .next (.jal hop)
  case jalr => exact .next (.jalr hop)
  case beq | bne | blt | bge | bltu | bgeu => exact yields_branch (by rw [hop]; rfl) _
  case lb | lh | lw | lbu | lhu | lwu | ld => exact yields_load _ _
  case sb | sh | sw | sd => exact yields_store (by rw [hop]; rfl)
  case csrrw | csrrc | csrrwi | csrrsi | csrrci =>
    exact yields_update (by rw [hop]; rfl) (by simp only [csrWrite, hop])
  case csrrs =>
    unfold execCSRRS
    split_ifs with h0
    · exact yields_read (by rw [hop]; rfl)
    · exact yields_update (by rw [hop]; rfl) (by simp only [csrWrite, hop, h0, if_false])
  all_goals exact .next (.retire _)

theorem advances_of_effect (hend : i.operation ≠ .bbEnd) (h : effect i s = .next s') :
    Advances i s s' := by
  have hy := yields_effect i s
  rw [h] at hy
  cases hy with
  | next ha => exact ha
  | bbEnd hop => exact absurd hop hend

theorem raises_of_effect {id : ExceptionId} {r : Resume} (h : effect i s = .raise id s' r) :
    s' = s ∧ Raises i s id r := by
  have hy := yields_effect i s
  rw [h] at hy
  cases hy with
  | raise hr => exact ⟨rfl, hr⟩

theorem ret_of_effect (h : effect i s = .ret s') : s' = s ∧ i.operation = .ebreak := by
  have hy := yields_effect i s
  rw [h] at hy
  cases hy with
  | ret hop => exact ⟨rfl, hop⟩

/-- Only the MMU throws. -/
theorem accessed_of_throw {e : MemError} (h : effect i s = .throw e s') :
    ∃ w, Memory.load s.mem w (s.address i) = (.error e, s'.mem) ∨
      ∃ value, Memory.store s.mem w (s.address i) value = (.error e, s'.mem) := by
  have hy := yields_effect i s
  rw [h] at hy
  cases hy with
  | load hm => exact ⟨_, .inl hm⟩
  | store hm => exact ⟨_, .inr ⟨_, hm⟩⟩

theorem throw_of_effect {e : MemError} (h : effect i s = .throw e s') :
    s'.gprf = s.gprf ∧ s'.csrf = s.csrf := by
  have hy := yields_effect i s
  rw [h] at hy
  cases hy with
  | load => exact ⟨rfl, rfl⟩
  | store => exact ⟨rfl, rfl⟩

end Yields

/-- Below machine mode no instruction changes the privilege without a trap. -/
theorem privillege_of_advances [Memory M] {i : Instruction} {s s' : Arch M} (h : Advances i s s')
    (hp : s.csrf.privillege ≠ privillegeMachine) : s'.csrf.privillege = s.csrf.privillege := by
  cases h with
  | csrWrite f hf reg hfit hreg => exact CSRF.update_privillege _ _ _
  | mret hpriv => exact absurd hpriv hp
  | _ => rfl

end Besm.Sim
