import Besm.Sim.Jumps

namespace Besm.Sim

open Besm.Exec Besm.Mem Besm.Util Besm.Lib.Encoding

def alu : InstructionOp → Option (RV64UDWord → RV64UDWord → RV64UDWord)
  | .addi | .add => some fun a b => a + b
  | .sub => some fun a b => a - b
  | .slti | .slt => some fun a b => if a.toInt < b.toInt then 1 else 0
  | .sltiu | .sltu => some fun a b => if a.toNat < b.toNat then 1 else 0
  | .xori | .xor => some fun a b => a ^^^ b
  | .ori | .or => some fun a b => a ||| b
  | .andi | .and => some fun a b => a &&& b
  | _ => none

def takesImmediate : InstructionOp → Bool
  | .addi | .slti | .sltiu | .xori | .ori | .andi => true
  | _ => false

variable {M : Type} {w : Word} {op : InstructionOp} {f : RV64UDWord → RV64UDWord → RV64UDWord}

def operand (op : InstructionOp) (w : Word) (s : Arch M) : RV64UDWord :=
  if takesImmediate op then (immI w).signExtend 64 else s.read ((rs2 w).setWidth 8)

theorem targeted_of_alu (h : alu op = some f) :
    Dec.targeted op = true ∧ op ≠ .srli ∧ op ≠ .fence := by
  cases op <;> cases h <;> decide

theorem form_of_alu (h : alu op = some f) :
    if takesImmediate op then Dec.loose op = false ∧ ∃ f3, Dec.form op = some (.i 0b0010011 f3)
    else ∃ f3 f7, Dec.form op = some (.r 0b0110011 f3 f7) := by
  cases op
  case addi | slti | sltiu | xori | ori | andi =>
    exact ⟨rfl, _, rfl⟩
  case add | sub | slt | sltu | xor | or | and =>
    exact ⟨_, _, rfl⟩
  all_goals cases h

theorem effect_alu [Memory M] {i : Instruction} (s : Arch M) (h : alu i.operation = some f) :
    effect i s = s.retire i.rd (f (s.read i.rs1)
      (if takesImmediate i.operation then signExtend 12 i.immidiate else s.read i.rs2)) := by
  have hslt : ∀ a b : RV64UDWord, (if a.slt b then (1 : RV64UDWord) else 0) =
      if a.toInt < b.toInt then 1 else 0 := by
    intro a b
    simp only [BitVec.slt_iff_toInt_lt]
  unfold effect
  cases hop : i.operation <;> rw [hop] at h <;> cases h
  case slti | slt => exact congrArg (s.retire i.rd) (hslt _ _)
  all_goals rfl

/-- An integer operation comes out as it is meant, from its word to its result. -/
theorem alu_encoded [Memory M] {form : Form} (h : alu op = some f) (hf : Dec.form op = some form)
    (hm : form.Matches w) (s : Arch M) :
    ∃ s', effect (Dec.parse w) s = .next s' ∧
      Writes w (f (s.read ((rs1 w).setWidth 8)) (operand op w s)) s' ∧ s'.read GPRF.x0 = 0 ∧
      s'.pc = s.pc + 4 := by
  have hform := form_of_alu h
  have hop := Dec.parse_targeted (targeted_of_alu h) hf hm
  have hvalue : ∃ res, effect (Dec.parse w) s = s.retire ((rd w).setWidth 8) res ∧
      res = f (s.read ((rs1 w).setWidth 8)) (operand op w s) := by
    rw [effect_alu s (hop ▸ h), hop, operand]
    by_cases himm : takesImmediate op = true
    · rw [if_pos himm] at hform ⊢
      obtain ⟨hl, f3, hf3⟩ := hform
      rw [if_pos himm, Dec.parse_i hop hl hf3, ← immI_signExtend]
      exact ⟨_, rfl, rfl⟩
    · rw [if_neg himm] at hform ⊢
      obtain ⟨f3, f7, hf3⟩ := hform
      obtain rfl := Option.some.inj (hf.symm.trans hf3)
      rw [if_neg himm, Dec.parse_opR (.inl hm.1)]
      exact ⟨_, rfl, rfl⟩
  obtain ⟨res, he, hres⟩ := hvalue
  obtain ⟨s', hs', hw, hpc⟩ := (retire_iff s _ res).mpr (.inr hres)
  exact ⟨s', he.trans hs', hw, GPRF.read_x0 _, hpc⟩

theorem alu_encoded_sltiu :
    let s : Arch FlatMemory := (Hart.create (fun _ => 0) (FlatMemory.image [])).toArch
    ∃ s', effect (Dec.parse 0xFFF03093) s = .next s' ∧ s'.read 1 = 1 ∧ s'.pc = s.pc + 4 := by
  intro s
  have hm : (Form.i 0b0010011 0b011).Matches 0xFFF03093 := by decide
  have hf : Dec.form .sltiu = some (.i 0b0010011 0b011) := rfl
  obtain ⟨s', he, hw, -, hpc⟩ := alu_encoded rfl hf hm s
  exact ⟨s', he, hw (by decide), hpc⟩

end Besm.Sim
