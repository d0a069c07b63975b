import Besm.Exec.Fields
import Besm.Sim.Isolation
import Besm.Sim.Jumps

namespace Besm.Exec.CSRF

open Besm.Util

variable {c : CSRF} {id : RV64UDWord} {reg : ICSR}

/-- The registers are all of the highest level, which is reached by being at it. -/
theorem fitPrivillege_iff (hreg : registers id = some reg) : c.fitPrivillege id = true ↔
    registerPrivillege id ≤ c.privillege ∧ c.privillege ≤ privillegeMachine := by
  rw [fitPrivillege, decide_eq_true_iff, registers_machine hreg]
  constructor
  · intro h
    rw [← h]
    exact ⟨BitVec.le_refl _, BitVec.le_refl _⟩
  · exact fun h => BitVec.le_antisymm h.1 h.2

end Besm.Exec.CSRF

namespace Besm.Sim

open Besm.Exec Besm.Mem Besm.Util Besm.Lib.Encoding

def csrNumber (w : Word) : RV64UDWord := (immI w).setWidth 64

/-- The access reads only: it has x0 or zero to set or clear bits with. -/
def PureRead (op : InstructionOp) (w : Word) : Prop :=
  (op = .csrrs ∨ op = .csrrc ∨ op = .csrrsi ∨ op = .csrrci) ∧ rs1 w = 0

/-- The register exists, the privilege is a level that admits the access, and
the register is not written if it can only be read. -/
structure CsrLegal (op : InstructionOp) (w : Word) (c : CSRF) (reg : ICSR) : Prop where
  present : CSRF.registers (csrNumber w) = some reg
  admitted : CSRF.registerPrivillege (csrNumber w) ≤ c.privillege ∧
    c.privillege ≤ privillegeMachine
  writable : CSRF.registerReadOnly (csrNumber w) = true → PureRead op w

def csrValue (op : InstructionOp) (operand old : RV64UDWord) : RV64UDWord :=
  match op with
  | .csrrw | .csrrwi => operand
  | .csrrs | .csrrsi => old ||| operand
  | _ => old &&& ~~~operand

variable {M : Type}

def csrOperand (op : InstructionOp) (w : Word) (s : Arch M) : RV64UDWord :=
  match op with
  | .csrrw | .csrrs | .csrrc => s.read ((rs1 w).setWidth 8)
  | _ => (rs1 w).setWidth 64

/-- The old value goes into the destination, the new one into the register, and
a pure read leaves the registers as they are. -/
def Transfers (op : InstructionOp) (w : Word) (s : Arch M) (reg : ICSR) (s' : Arch M) : Prop :=
  Writes w (s.csrf.raw reg) s' ∧
    s'.csrf = s.csrf.setRaw reg
      (reg.fields.filtered (csrValue op (csrOperand op w s) (s.csrf.raw reg)) (s.csrf.raw reg)) ∧
    (PureRead op w → s'.csrf = s.csrf) ∧ s'.pc = s.pc + 4

/-- A legal access transfers, any other raises and leaves the state as it is. -/
def ImplementsZicsr [Memory M] (w : Word) (s : Arch M) : Prop :=
  (∀ reg, CsrLegal (Dec.parse w).operation w s.csrf reg →
    ∃ s', effect (Dec.parse w) s = .next s' ∧ Transfers (Dec.parse w).operation w s reg s') ∧
  ((∀ reg, ¬CsrLegal (Dec.parse w).operation w s.csrf reg) →
    effect (Dec.parse w) s = .raise .illegalInstr s .execNextInstr)

/-- A legal read of a register that can only be read, by an operation that
asks for a write all the same. -/
def ReadRefused (op : InstructionOp) (w : Word) (c : CSRF) : Prop :=
  (op = .csrrc ∨ op = .csrrsi ∨ op = .csrrci) ∧ CSRF.registerReadOnly (csrNumber w) = true ∧
    ∃ reg, CsrLegal op w c reg

section Effects

variable {w : Word} {s : Arch M}

theorem parse_csr (hop : isCSR (Dec.parse w).operation = true) : Dec.parse w =
    ⟨(rd w).setWidth 8, (rs1 w).setWidth 8, 0, csrNumber w, (Dec.parse w).operation⟩ := by
  have hform : ∃ f3, Dec.form (Dec.parse w).operation = some (.i 0b1110011 f3) ∧
      Dec.loose (Dec.parse w).operation = false := by
    revert hop
    cases (Dec.parse w).operation <;> intro hop
    case csrrw | csrrs | csrrc | csrrwi | csrrsi | csrrci => exact ⟨_, rfl, rfl⟩
    all_goals cases hop
  obtain ⟨f3, hf, hl⟩ := hform
  exact Dec.parse_i rfl hl hf

/-- Only CSRRS is told apart when it has nothing to set. -/
theorem csrWrite_parse (hop : isCSR (Dec.parse w).operation = true) : csrWrite (Dec.parse w) s =
    if (Dec.parse w).operation = .csrrs ∧ rs1 w = 0 then none
    else some (csrValue (Dec.parse w).operation (csrOperand (Dec.parse w).operation w s)) := by
  have hx0 : (rs1 w).setWidth 8 = GPRF.x0 ↔ rs1 w = 0 :=
    setWidth_eq_iff (y := 0) (by decide)
  have hrs1 : (Dec.parse w).rs1 = (rs1 w).setWidth 8 := by rw [parse_csr hop]
  have himm : ((rs1 w).setWidth 8).setWidth 64 = (rs1 w).setWidth 64 :=
    BitVec.setWidth_setWidth (by decide)
  unfold csrWrite
  rw [hrs1, himm]
  cases hi : (Dec.parse w).operation <;> rw [hi] at hop
  case csrrs =>
    dsimp only
    simp only [hx0, true_and]
    rfl
  case csrrw | csrrc | csrrwi | csrrsi | csrrci => rfl
  all_goals cases hop

theorem csrStatus_some (hop : isCSR (Dec.parse w).operation = true) (old : RV64UDWord) (c : CSRF) :
    ∃ s', s.csrStatus (Dec.parse w) (some old, c) = .next s' ∧ Writes w old s' ∧ s'.csrf = c ∧
      s'.pc = s.pc + 4 := by
  have hrd : (Dec.parse w).rd = (rd w).setWidth 8 := by rw [parse_csr hop]
  refine ⟨(({ s with csrf := c } : Arch M).write ((rd w).setWidth 8) old).nextPC, ?_, ?_, rfl, ?_⟩
  · rw [← hrd]
    rfl
  · exact writes_setPC { s with csrf := c } _ _
  · rw [Arch.pc_nextPC, Arch.pc_write _ _ (register_lt _)]
    rfl

theorem csrValue_pure {op : InstructionOp} (h : PureRead op w) (old : RV64UDWord) :
    csrValue op (csrOperand op w s) old = old := by
  obtain ⟨hop, h0⟩ := h
  have hset : old ||| (0 : RV64UDWord) = old := BitVec.or_zero
  have hclear : old &&& ~~~(0 : RV64UDWord) = old := by
    change old &&& ~~~0#64 = old
    rw [BitVec.not_zero, BitVec.and_allOnes]
  have hoperand : csrOperand op w s = 0 := by
    unfold csrOperand
    rw [h0]
    split
    · exact GPRF.read_x0 _
    · exact GPRF.read_x0 _
    · exact GPRF.read_x0 _
    · rfl
  rw [hoperand]
  obtain rfl | rfl | rfl | rfl := hop
  · exact hset
  · exact hclear
  · exact hset
  · exact hclear

variable [Memory M]

theorem effect_csr {i : Instruction} (hop : isCSR i.operation = true) :
    effect i s = s.csrStatus i (match csrWrite i s with
      | some f => s.csrf.update i.immidiate f
      | none => (s.csrf.read i.immidiate, s.csrf)) := by
  unfold effect csrWrite
  cases hi : i.operation <;> rw [hi] at hop
  case csrrs =>
    dsimp only [handlerArr, execCSRRS]
    split_ifs <;> rfl
  case csrrw | csrrc | csrrwi | csrrsi | csrrci => rfl
  all_goals cases hop

theorem effect_csr_parse (hop : isCSR (Dec.parse w).operation = true) : effect (Dec.parse w) s =
    s.csrStatus (Dec.parse w)
      (if (Dec.parse w).operation = .csrrs ∧ rs1 w = 0 then (s.csrf.read (csrNumber w), s.csrf)
      else s.csrf.update (csrNumber w)
        (csrValue (Dec.parse w).operation (csrOperand (Dec.parse w).operation w s))) := by
  have hnum : (Dec.parse w).immidiate = csrNumber w := by rw [parse_csr hop]
  rw [effect_csr hop, csrWrite_parse hop, hnum]
  split_ifs <;> rfl

theorem transfers_of_update (hop : isCSR (Dec.parse w).operation = true) {reg : ICSR}
    (hreg : CSRF.registers (csrNumber w) = some reg)
    (hfit : s.csrf.fitPrivillege (csrNumber w) = true)
    (hw : ¬((Dec.parse w).operation = .csrrs ∧ rs1 w = 0))
    (hro : CSRF.registerReadOnly (csrNumber w) = false) :
    ∃ s', effect (Dec.parse w) s = .next s' ∧ Transfers (Dec.parse w).operation w s reg s' := by
  have he := effect_csr_parse (s := s) hop
  rw [if_neg hw, CSRF.update_granted hreg hfit hro] at he
  obtain ⟨s', hs', hwrites, hcsrf, hpc⟩ := csrStatus_some (s := s) hop (s.csrf.raw reg)
    (s.csrf.setRaw reg (reg.fields.filtered (csrValue (Dec.parse w).operation
      (csrOperand (Dec.parse w).operation w s) (s.csrf.raw reg)) (s.csrf.raw reg)))
  refine ⟨s', he.trans hs', hwrites, hcsrf, fun hpure => ?_, hpc⟩
  rw [hcsrf, csrValue_pure hpure, CSRStructure.filtered_self, CSRF.setRaw_raw]

theorem transfers_of_read (hop : isCSR (Dec.parse w).operation = true) {reg : ICSR}
    (hreg : CSRF.registers (csrNumber w) = some reg)
    (hfit : s.csrf.fitPrivillege (csrNumber w) = true)
    (hr : (Dec.parse w).operation = .csrrs ∧ rs1 w = 0) :
    ∃ s', effect (Dec.parse w) s = .next s' ∧ Transfers (Dec.parse w).operation w s reg s' := by
  have he := effect_csr_parse (s := s) hop
  rw [if_pos hr, CSRF.read_granted hreg hfit] at he
  obtain ⟨s', hs', hwrites, hcsrf, hpc⟩ := csrStatus_some (s := s) hop (s.csrf.raw reg) s.csrf
  refine ⟨s', he.trans hs', hwrites, ?_, fun _ => hcsrf, hpc⟩
  rw [hcsrf, csrValue_pure ⟨.inl hr.1, hr.2⟩, CSRStructure.filtered_self, CSRF.setRaw_raw]

theorem raises_of_denied (hop : isCSR (Dec.parse w).operation = true)
    (h : s.csrf.fitPrivillege (csrNumber w) = false ∨ CSRF.registers (csrNumber w) = none ∨
      CSRF.registerReadOnly (csrNumber w) = true ∧
        ¬((Dec.parse w).operation = .csrrs ∧ rs1 w = 0)) :
    effect (Dec.parse w) s = .raise .illegalInstr s .execNextInstr := by
  rw [effect_csr_parse hop]
  split_ifs with hr
  · rw [CSRF.read_denied]
    · rfl
    · obtain h | h | h := h
      · exact .inl h
      · exact .inr h
      · exact absurd hr h.2
  · rw [CSRF.update_denied]
    · rfl
    · obtain h | h | h := h
      · exact .inl h
      · exact .inr (.inr h)
      · exact .inr (.inl h.1)

/-- The CSR instructions are those of Zicsr exactly where no pure read of a
read-only register is taken for a write. -/
theorem zicsr_iff (hop : isCSR (Dec.parse w).operation = true) :
    ImplementsZicsr w s ↔ ¬ReadRefused (Dec.parse w).operation w s.csrf := by
  constructor
  · rintro ⟨hlegal, -⟩ ⟨hclear, hro, reg, hl⟩
    obtain ⟨s', he, -⟩ := hlegal reg hl
    have hne : (Dec.parse w).operation ≠ .csrrs := by
      obtain h | h | h := hclear <;> rw [h] <;> decide
    rw [raises_of_denied hop (.inr (.inr ⟨hro, fun h => hne h.1⟩))] at he
    cases he
  · intro hnot
    constructor
    · intro reg hl
      have hfit := (CSRF.fitPrivillege_iff hl.present).mpr hl.admitted
      by_cases hr : (Dec.parse w).operation = .csrrs ∧ rs1 w = 0
      · exact transfers_of_read hop hl.present hfit hr
      · refine transfers_of_update hop hl.present hfit hr (Bool.eq_false_iff.mpr fun hro => ?_)
        obtain ⟨hs | hclear, h0⟩ := hl.writable hro
        · exact hr ⟨hs, h0⟩
        · exact hnot ⟨hclear, hro, reg, hl⟩
    · intro hno
      refine raises_of_denied hop ?_
      cases hreg : CSRF.registers (csrNumber w) with
      | none => exact .inr (.inl rfl)
      | some reg =>
        by_cases hfit : s.csrf.fitPrivillege (csrNumber w) = true
        · have hadm := (CSRF.fitPrivillege_iff hreg).mp hfit
          by_cases hro : CSRF.registerReadOnly (csrNumber w) = true
          · refine .inr (.inr ⟨hro, fun hr => ?_⟩)
            exact hno reg ⟨hreg, hadm, fun _ => ⟨.inl hr.1, hr.2⟩⟩
          · exact absurd ⟨hreg, hadm, fun h => absurd h hro⟩ (hno reg)
        · exact .inl (Bool.eq_false_iff.mpr hfit)

end Effects

theorem zicsr_csrrs :
    let s : Arch FlatMemory := (Hart.create (fun _ => 0) (FlatMemory.image [])).toArch
    ImplementsZicsr 0xF14020F3 s := by
  intro s
  have hop : (Dec.parse 0xF14020F3).operation = .csrrs := by decide +kernel
  refine (zicsr_iff (by rw [hop]; rfl)).mpr fun h => ?_
  rw [hop] at h
  obtain ⟨h | h | h, -⟩ := h <;> cases h

/-- CSRRC x1, mhartid, x0 reads as well, and raises. -/
theorem zicsr_csrrc :
    let s : Arch FlatMemory := (Hart.create (fun _ => 0) (FlatMemory.image [])).toArch
    (Dec.parse 0xF14030F3).operation = .csrrc ∧ CsrLegal .csrrc 0xF14030F3 s.csrf .mhartid ∧
      effect (Dec.parse 0xF14030F3) s = .raise .illegalInstr s .execNextInstr ∧
        ¬ImplementsZicsr 0xF14030F3 s := by
  intro s
  have hop : (Dec.parse 0xF14030F3).operation = .csrrc := by decide +kernel
  have hl : CsrLegal .csrrc 0xF14030F3 s.csrf .mhartid :=
    ⟨by decide +kernel, by decide +kernel, fun _ => ⟨by simp, by decide⟩⟩
  have he : effect (Dec.parse 0xF14030F3) s = .raise .illegalInstr s .execNextInstr :=
    raises_of_denied (by rw [hop]; rfl)
      (.inr (.inr ⟨by decide +kernel, fun h => by rw [hop] at h; cases h.1⟩))
  refine ⟨hop, hl, he, fun h => ?_⟩
  obtain ⟨s', he', -⟩ := h.1 .mhartid (hop ▸ hl)
  rw [he] at he'
  cases he'

end Besm.Sim
