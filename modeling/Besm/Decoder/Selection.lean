import Besm.Decoder.Decoder
import Besm.Lib.Encoding

namespace Besm.Dec

open Besm.Util Besm.Lib.Encoding

/-- The form that the instruction set gives the words of an operation. -/
def form : InstructionOp → Option Form
  | .lui => some (.u 0b0110111)
  | .auipc => some (.u 0b0010111)
  | .jal => some (.j 0b1101111)
  | .jalr => some (.i 0b1100111 0b000)
  | .beq => some (.b 0b1100011 0b000)
  | .bne => some (.b 0b1100011 0b001)
  | .blt => some (.b 0b1100011 0b100)
  | .bge => some (.b 0b1100011 0b101)
  | .bltu => some (.b 0b1100011 0b110)
  | .bgeu => some (.b 0b1100011 0b111)
  | .lb => some (.i 0b0000011 0b000)
  | .lh => some (.i 0b0000011 0b001)
  | .lw => some (.i 0b0000011 0b010)
  | .ld => some (.i 0b0000011 0b011)
  | .lbu => some (.i 0b0000011 0b100)
  | .lhu => some (.i 0b0000011 0b101)
  | .lwu => some (.i 0b0000011 0b110)
  | .sb => some (.s 0b0100011 0b000)
  | .sh => some (.s 0b0100011 0b001)
  | .sw => some (.s 0b0100011 0b010)
  | .sd => some (.s 0b0100011 0b011)
  | .addi => some (.i 0b0010011 0b000)
  | .slti => some (.i 0b0010011 0b010)
  | .sltiu => some (.i 0b0010011 0b011)
  | .xori => some (.i 0b0010011 0b100)
  | .ori => some (.i 0b0010011 0b110)
  | .andi => some (.i 0b0010011 0b111)
  | .slli => some (.shift 0b0010011 0b001 0b000000)
  | .srli => some (.shift 0b0010011 0b101 0b000000)
  | .srai => some (.shift 0b0010011 0b101 0b010000)
  | .add => some (.r 0b0110011 0b000 0b0000000)
  | .sub => some (.r 0b0110011 0b000 0b0100000)
  | .sll => some (.r 0b0110011 0b001 0b0000000)
  | .slt => some (.r 0b0110011 0b010 0b0000000)
  | .sltu => some (.r 0b0110011 0b011 0b0000000)
  | .xor => some (.r 0b0110011 0b100 0b0000000)
  | .srl => some (.r 0b0110011 0b101 0b0000000)
  | .sra => some (.r 0b0110011 0b101 0b0100000)
  | .or => some (.r 0b0110011 0b110 0b0000000)
  | .and => some (.r 0b0110011 0b111 0b0000000)
  | .addiw => some (.i 0b0011011 0b000)
  | .slliw => some (.r 0b0011011 0b001 0b0000000)
  | .srliw => some (.r 0b0011011 0b101 0b0000000)
  | .sraiw => some (.r 0b0011011 0b101 0b0100000)
  | .addw => some (.r 0b0111011 0b000 0b0000000)
  | .subw => some (.r 0b0111011 0b000 0b0100000)
  | .sllw => some (.r 0b0111011 0b001 0b0000000)
  | .srlw => some (.r 0b0111011 0b101 0b0000000)
  | .sraw => some (.r 0b0111011 0b101 0b0100000)
  | .fence => some (.i 0b0001111 0b000)
  | .fenceTso => some (.fixed 0b0001111 0b000 0b100000110011)
  | .pause => some (.fixed 0b0001111 0b000 0b000000010000)
  | .ecall => some (.fixed 0b1110011 0b000 0b000000000000)
  | .ebreak => some (.fixed 0b1110011 0b000 0b000000000001)
  | .sret => some (.fixed 0b1110011 0b000 0b000100000010)
  | .mret => some (.fixed 0b1110011 0b000 0b001100000010)
  | .csrrw => some (.i 0b1110011 0b001)
  | .csrrs => some (.i 0b1110011 0b010)
  | .csrrc => some (.i 0b1110011 0b011)
  | .csrrwi => some (.i 0b1110011 0b101)
  | .csrrsi => some (.i 0b1110011 0b110)
  | .csrrci => some (.i 0b1110011 0b111)
  | .invOp | .bbEnd => none

/-- The operations the decoder has its table for; the hints among the fences
are not told apart from them. -/
def targeted : InstructionOp → Bool
  | .invOp | .bbEnd | .fenceTso | .pause => false
  | _ => true

def cellOf (bytecode : RV64UWord) : Cell :=
  instrWho ((opcode bytecode).setWidth 8) ((funct3 bytecode).setWidth 8)

def func10 (bytecode : RV64UWord) : BitVec 10 := funct7 bytecode ++ funct3 bytecode

theorem opcode_extractBits (bytecode : RV64UWord) :
    (extractBits 7 0 bytecode).setWidth 8 = (opcode bytecode).setWidth 8 :=
  setWidth_extractBits 7 0 bytecode

theorem func3_extractBits (bytecode : RV64UWord) :
    (extractBits 3 func3Shift bytecode).setWidth 8 = (funct3 bytecode).setWidth 8 :=
  setWidth_extractBits 3 12 bytecode

theorem rd_extractRegister (bytecode : RV64UWord) :
    extractRegister rdShift bytecode = (rd bytecode).setWidth 8 :=
  setWidth_extractBits 5 7 bytecode

theorem rs1_extractRegister (bytecode : RV64UWord) :
    extractRegister rs1Shift bytecode = (rs1 bytecode).setWidth 8 :=
  setWidth_extractBits 5 15 bytecode

theorem funct12_extractBits (bytecode : RV64UWord) :
    extractBits 12 20 (bytecode.setWidth 64) = (funct12 bytecode).setWidth 64 :=
  extractBits_setWidth 12 20 bytecode (by decide)

theorem funct7_shift (bytecode : RV64UWord) : bytecode >>> 25 = (funct7 bytecode).setWidth 32 := by
  apply BitVec.eq_of_getLsbD_eq
  intro i hi
  rw [BitVec.getLsbD_ushiftRight, BitVec.getLsbD_setWidth, funct7, BitVec.getLsbD_extractLsb',
    decide_eq_true hi, Bool.true_and]
  by_cases h7 : i < 7
  · simp [h7]
  · simp [h7, BitVec.getLsbD_of_ge bytecode (25 + i) (by omega)]

theorem func10_mask (bytecode : RV64UWord) :
    ((bytecode &&& 0xFE000000#32) >>> 22).setWidth 16 |||
      ((funct3 bytecode).setWidth 8).setWidth 16 = (func10 bytecode).setWidth 16 := by
  have hmask : 0xFE000000#32 = bitMask 32 7 25 := by decide
  have happend : ∀ i, (func10 bytecode).getLsbD i =
      if i < 3 then (funct3 bytecode).getLsbD i else (funct7 bytecode).getLsbD (i - 3) :=
    fun i => BitVec.getLsbD_append
  apply BitVec.eq_of_getLsbD_eq
  intro i hi
  rw [BitVec.getLsbD_or, BitVec.getLsbD_setWidth, BitVec.getLsbD_ushiftRight, BitVec.getLsbD_and,
    hmask, getLsbD_bitMask, BitVec.getLsbD_setWidth, BitVec.getLsbD_setWidth, BitVec.getLsbD_setWidth,
    happend, funct7, BitVec.getLsbD_extractLsb']
  by_cases h3 : i < 3
  · have hlow : ¬25 ≤ 22 + i := by omega
    have h8 : i < 8 := by omega
    simp [h3, hi, hlow, h8]
  · have hhigh : (funct3 bytecode).getLsbD i = false := BitVec.getLsbD_of_ge _ _ (by omega)
    rw [show 25 + (i - 3) = 22 + i by omega, hhigh]
    by_cases h10 : i < 10
    · have hin : 25 ≤ 22 + i ∧ 22 + i < 32 ∧ i - 3 < 7 := by omega
      simp [h3, hi, hin]
    · have hout : ¬22 + i < 32 ∧ ¬i - 3 < 7 := by omega
      simp [h3, hi, hout]

theorem format_r : ∀ (opcode : BitVec 7) (func3 : BitVec 3),
    (instrWho (opcode.setWidth 8) (func3.setWidth 8)).format = .r ↔
      opcode = 0b0110011 ∨ opcode = 0b0111011 := by
  decide +kernel

theorem format_i : ∀ (opcode : BitVec 7) (func3 : BitVec 3),
    opcode = 0b0001111 ∨ opcode = 0b1110011 ∨ opcode = 0b0011011 →
      (instrWho (opcode.setWidth 8) (func3.setWidth 8)).format = .i := by
  decide +kernel

theorem operation_r : ∀ (opcode : BitVec 7) (func3 : BitVec 3),
    (instrWho (opcode.setWidth 8) (func3.setWidth 8)).format = .r ∨
      (instrWho (opcode.setWidth 8) (func3.setWidth 8)).format = .illegal →
      (instrWho (opcode.setWidth 8) (func3.setWidth 8)).operation = .invOp := by
  decide +kernel

theorem parse_format (w : RV64UWord) : parse w =
    match (cellOf w).format with
    | .r => parseR w ((opcode w).setWidth 8) ((funct3 w).setWidth 8)
    | .i => parseI w (cellOf w).operation ((opcode w).setWidth 8)
    | .s => parseS w (cellOf w).operation
    | .b => parseB w (cellOf w).operation
    | .u => parseU w (cellOf w).operation
    | .j => parseJ w (cellOf w).operation
    | .illegal => { operation := .invOp } := by
  unfold parse
  dsimp only
  rw [opcode_extractBits, func3_extractBits]
  rfl

theorem parse_cell {w : RV64UWord} (h : (cellOf w).operation ≠ .invOp) :
    (parse w).operation = (cellOf w).operation := by
  have hr := operation_r (opcode w) (funct3 w)
  rw [parse_format]
  cases hf : (cellOf w).format with
  | r => exact absurd (hr (.inl hf)) h
  | illegal => exact absurd (hr (.inr hf)) h
  | i => simp [parseI, h]
  | _ => rfl

theorem parse_op {w : RV64UWord} (h : opcode w = 0b0110011) :
    (parse w).operation = operationOp ((func10 w).setWidth 16) := by
  have hf : (cellOf w).format = .r := (format_r _ _).mpr (.inl h)
  rw [parse_format, hf, ← func10_mask, h]
  rfl

theorem parse_op32 {w : RV64UWord} (h : opcode w = 0b0111011) :
    (parse w).operation = operationOp32 ((func10 w).setWidth 16) := by
  have hf : (cellOf w).format = .r := (format_r _ _).mpr (.inr h)
  rw [parse_format, hf, ← func10_mask, h]
  rfl

theorem parse_miscMem {w : RV64UWord} (h : opcode w = 0b0001111)
    (hc : (cellOf w).operation = .invOp) : (parse w).operation = .fence := by
  have hf : (cellOf w).format = .i := format_i _ _ (.inl h)
  rw [parse_format, hf, hc, h]
  rfl

theorem parse_system {w : RV64UWord} (h : opcode w = 0b1110011)
    (hc : (cellOf w).operation = .invOp) : (parse w).operation =
      if rd w = 0 ∧ rs1 w = 0 ∧ funct3 w = 0 then
        if funct12 w = 0 then .ecall
        else if funct12 w = 1 then .ebreak
        else if funct12 w = 0b000100000010 then .sret
        else if funct12 w = 0b001100000010 then .mret
        else .invOp
      else .invOp := by
  have hf : (cellOf w).format = .i := format_i _ _ (.inr (.inl h))
  have h12 : ∀ c : BitVec 12,
      extractBits 12 20 (w.setWidth 64) = c.setWidth 64 ↔ funct12 w = c := fun c => by
    rw [funct12_extractBits, setWidth_eq_iff (by decide)]
  have hrd : extractRegister rdShift w = 0 ↔ rd w = 0 := by
    rw [rd_extractRegister]
    exact setWidth_eq_iff (y := 0) (by decide)
  have hrs1 : extractRegister rs1Shift w = 0 ↔ rs1 w = 0 := by
    rw [rs1_extractRegister]
    exact setWidth_eq_iff (y := 0) (by decide)
  have h3 : (extractBits 3 func3Shift w).setWidth 8 = (0 : BitVec 8) ↔ funct3 w = 0 := by
    rw [func3_extractBits]
    exact setWidth_eq_iff (y := 0) (by decide)
  rw [parse_format, hf, hc, h]
  simp only [← hrd, ← hrs1, ← h3, ← h12]
  rfl

theorem parse_opImm32 {w : RV64UWord} (h : opcode w = 0b0011011)
    (hc : (cellOf w).operation = .invOp) : (parse w).operation =
      if funct7 w = 0 then .srliw else if funct7 w = 0b0100000 then .sraiw else .invOp := by
  have hf : (cellOf w).format = .i := format_i _ _ (.inr (.inr h))
  have h7 : ∀ c : BitVec 7, w >>> 25 = c.setWidth 32 ↔ funct7 w = c := fun c => by
    rw [funct7_shift, setWidth_eq_iff (by decide)]
  rw [parse_format, hf, hc, h]
  simp only [← h7]
  rfl

theorem parse_illegal {w : RV64UWord} (hc : (cellOf w).operation = .invOp)
    (h : ∀ c ∈ [0b0110011, 0b0111011, 0b0001111, 0b1110011, 0b0011011], opcode w ≠ c) :
    (parse w).operation = .invOp := by
  have h8 : ∀ c : BitVec 7, (opcode w).setWidth 8 = c.setWidth 8 ↔ opcode w = c :=
    fun c => setWidth_eq_iff (by decide)
  have hr : (cellOf w).format ≠ .r := by
    rw [cellOf, Ne, format_r]
    rintro (h' | h')
    · exact h _ (by simp) h'
    · exact h _ (by simp) h'
  rw [parse_format]
  cases hf : (cellOf w).format with
  | r => exact absurd hf hr
  | i =>
    have hfence : (opcode w).setWidth 8 ≠ (0b0001111 : Opcode) :=
      (h8 0b0001111).not.mpr (h _ (by simp))
    have hsystem : (opcode w).setWidth 8 ≠ (0b1110011 : Opcode) :=
      (h8 0b1110011).not.mpr (h _ (by simp))
    have himm32 : (opcode w).setWidth 8 ≠ (0b0011011 : Opcode) :=
      (h8 0b0011011).not.mpr (h _ (by simp))
    dsimp only [parseI]
    rw [hc, if_neg (by decide), if_neg hfence, if_neg hsystem, if_neg himm32]
  | illegal => rfl
  | _ => exact hc

theorem parse_row {w : RV64UWord} {op : InstructionOp} {c : BitVec 7} {f3 : BitVec 3}
    (h : opcode w = c) (h3 : funct3 w = f3) (hne : op ≠ .invOp)
    (hcell : (instrWho (c.setWidth 8) (f3.setWidth 8)).operation = op) :
    (parse w).operation = op := by
  subst h h3 hcell
  exact parse_cell hne

theorem func10_of_matches {w : RV64UWord} {c : BitVec 7} {f3 : BitVec 3} {f7 : BitVec 7}
    (h : (Form.r c f3 f7).Matches w) : func10 w = f7 ++ f3 := by
  rw [func10, h.2.1, h.2.2]

theorem parse_of_matches {op : InstructionOp} {f : Form} {w : RV64UWord}
    (ht : targeted op = true) (hf : form op = some f) (hm : f.Matches w) :
    (parse w).operation = op ↔ op ≠ .srli ∧ op ≠ .fence := by
  have hrow : ∀ op' c, opcode w = c → op' ≠ .invOp →
      (∀ f3 : BitVec 3, (instrWho (c.setWidth 8) (f3.setWidth 8)).operation = op') →
      (parse w).operation = op' := fun op' c hc hne hall => parse_row hc rfl hne (hall _)
  cases op <;> cases hf
  case fenceTso | pause => cases ht
  case srli =>
    have hsrai : (parse w).operation = .srai := parse_row hm.1 hm.2.1 (by decide) rfl
    simp [hsrai]
  case fence =>
    have hpause : (parse w).operation = .pause := parse_row hm.1 hm.2 (by decide) rfl
    simp [hpause]
  case slli | srai | slliw =>
    exact iff_of_true (parse_row hm.1 hm.2.1 (by decide) rfl) (by decide)
  case lui | auipc | jal => exact iff_of_true (hrow _ _ hm (by decide) (by decide)) (by decide)
  case add | sub | sll | slt | sltu | xor | srl | sra | or | and =>
    refine iff_of_true ?_ (by decide)
    rw [parse_op hm.1, func10_of_matches hm]
    rfl
  case addw | subw | sllw | srlw | sraw =>
    refine iff_of_true ?_ (by decide)
    rw [parse_op32 hm.1, func10_of_matches hm]
    rfl
  case srliw | sraiw =>
    have hc : (cellOf w).operation = .invOp := by
      rw [cellOf, hm.1, hm.2.1]
      rfl
    refine iff_of_true ?_ (by decide)
    rw [parse_opImm32 hm.1 hc, hm.2.2]
    rfl
  case ecall | ebreak | sret | mret =>
    obtain ⟨hop, h3, h12, hrd, hrs1⟩ := hm
    have hc : (cellOf w).operation = .invOp := by
      rw [cellOf, hop, h3]
      rfl
    refine iff_of_true ?_ (by decide)
    rw [parse_system hop hc, hrd, hrs1, h3, h12]
    rfl
  all_goals exact iff_of_true (parse_row hm.1 hm.2 (by decide) rfl) (by decide)

theorem parse_targeted {op : InstructionOp} {f : Form} {w : RV64UWord}
    (h : targeted op = true ∧ op ≠ .srli ∧ op ≠ .fence) (hf : form op = some f)
    (hm : f.Matches w) : (parse w).operation = op :=
  (parse_of_matches h.1 hf hm).mpr h.2

/-- The decoder returns the operation of every instruction it targets, with any
operands, other than SRLI and FENCE. -/
theorem parse_encode_iff {op : InstructionOp} {f : Form} (ht : targeted op = true)
    (hf : form op = some f) (o : Operands) :
    (parse (f.encode o)).operation = op ↔ op ≠ .srli ∧ op ≠ .fence :=
  parse_of_matches ht hf (f.matches_encode o)

theorem parse_encode_srai :
    (parse ((Form.shift 0b0010011 0b101 0b010000).encode ⟨1, 2, 0, 63, 0, 0, 0, 0, 0⟩)).operation =
      .srai :=
  (parse_encode_iff (by decide) rfl _).mpr ⟨by decide, by decide⟩

/-- Every SRLI is taken for an SRAI. -/
theorem parse_srli : form .srli = some (.shift 0b0010011 0b101 0b000000) ∧
    (parse ((Form.shift 0b0010011 0b101 0b000000).encode ⟨1, 2, 0, 63, 0, 0, 0, 0, 0⟩)).operation =
      .srai := by
  decide +kernel

/-- The operation of a word is one that its fixed fields name, and a word of
no instruction has none. -/
structure Sound (w : RV64UWord) : Prop where
  named : (parse w).operation ≠ .invOp → ∃ f, form (parse w).operation = some f ∧ f.Matches w
  reserved : (∀ op f, form op = some f → ∀ o, f.encode o ≠ w) → (parse w).operation = .invOp

/-- The words in which the decoder leaves a fixed field unread. -/
inductive Unread (w : RV64UWord) : Prop
  | slli (h : opcode w = 0b0010011) (h3 : funct3 w = 0b001) (h6 : funct6 w ≠ 0b000000)
  | srai (h : opcode w = 0b0010011) (h3 : funct3 w = 0b101) (h6 : funct6 w ≠ 0b010000)
  | slliw (h : opcode w = 0b0011011) (h3 : funct3 w = 0b001) (h7 : funct7 w ≠ 0b0000000)
  | shiftW (h : opcode w = 0b0011011)
      (h3 : funct3 w ≠ 0b000 ∧ funct3 w ≠ 0b001 ∧ funct3 w ≠ 0b101)
      (h7 : funct7 w = 0b0000000 ∨ funct7 w = 0b0100000)
  | miscMem (h : opcode w = 0b0001111) (hw : w ≠ 0x0100000F)

theorem cell_form : ∀ (c : BitVec 7) (f3 : BitVec 3),
    let op := (instrWho (c.setWidth 8) (f3.setWidth 8)).operation
    op ≠ .invOp → op ≠ .slli → op ≠ .srai → op ≠ .slliw → op ≠ .pause →
      form op = some (.i c f3) ∨ form op = some (.s c f3) ∨ form op = some (.b c f3) ∨
        form op = some (.u c) ∨ form op = some (.j c) := by
  decide +kernel

theorem cell_at : ∀ (c : BitVec 7) (f3 : BitVec 3),
    let op := (instrWho (c.setWidth 8) (f3.setWidth 8)).operation
    (op = .slli → c = 0b0010011 ∧ f3 = 0b001) ∧ (op = .srai → c = 0b0010011 ∧ f3 = 0b101) ∧
      (op = .slliw → c = 0b0011011 ∧ f3 = 0b001) ∧ (op = .pause → c = 0b0001111) := by
  decide +kernel

theorem miscMem_cell : ∀ f3 : BitVec 3,
    (instrWho ((0b0001111 : BitVec 7).setWidth 8) (f3.setWidth 8)).operation =
      if f3 = 0 then .pause else .invOp := by
  decide

theorem opImm32_cell : ∀ f3 : BitVec 3,
    (instrWho ((0b0011011 : BitVec 7).setWidth 8) (f3.setWidth 8)).operation =
      if f3 = 0 then .addiw else if f3 = 1 then .slliw else .invOp := by
  decide

theorem operationOp_form : ∀ (f7 : BitVec 7) (f3 : BitVec 3),
    operationOp ((f7 ++ f3).setWidth 16) = .invOp ∨
      form (operationOp ((f7 ++ f3).setWidth 16)) = some (.r 0b0110011 f3 f7) := by
  decide +kernel

theorem operationOp32_form : ∀ (f7 : BitVec 7) (f3 : BitVec 3),
    operationOp32 ((f7 ++ f3).setWidth 16) = .invOp ∨
      form (operationOp32 ((f7 ++ f3).setWidth 16)) = some (.r 0b0111011 f3 f7) := by
  decide +kernel

theorem Sound.matches {w : RV64UWord} (h : Sound w) {op : InstructionOp} {f : Form}
    (hop : (parse w).operation = op) (hf : form op = some f) : f.Matches w := by
  have hne : (parse w).operation ≠ .invOp := by
    rintro hinv
    rw [← hop, hinv] at hf
    cases hf
  obtain ⟨f', hf', hm⟩ := h.named hne
  rw [hop, hf] at hf'
  exact Option.some.inj hf' ▸ hm

/-- The operations that words with an unread field are taken for. -/
def loose : InstructionOp → Bool
  | .slli | .srai | .slliw | .srliw | .sraiw | .pause | .fence => true
  | _ => false

theorem loose_of_unread {w : RV64UWord} (hu : Unread w) :
    ∃ op f, (parse w).operation = op ∧ loose op = true ∧ form op = some f ∧ ¬f.Matches w := by
  cases hu with
  | slli h h3 h6 => exact ⟨.slli, _, parse_row h h3 (by decide) rfl, rfl, rfl, fun hm => h6 hm.2.2⟩
  | srai h h3 h6 => exact ⟨.srai, _, parse_row h h3 (by decide) rfl, rfl, rfl, fun hm => h6 hm.2.2⟩
  | slliw h h3 h7 => exact ⟨.slliw, _, parse_row h h3 (by decide) rfl, rfl, rfl, fun hm => h7 hm.2.2⟩
  | shiftW h h3 h7 =>
    have hc : (cellOf w).operation = .invOp := by
      rw [cellOf, h, opImm32_cell, if_neg h3.1, if_neg h3.2.1]
    have hop := parse_opImm32 h hc
    obtain h7 | h7 := h7
    · rw [h7] at hop
      exact ⟨.srliw, _, hop, rfl, rfl, fun hm => h3.2.2 hm.2.1⟩
    · rw [h7] at hop
      exact ⟨.sraiw, _, hop, rfl, rfl, fun hm => h3.2.2 hm.2.1⟩
  | miscMem h hw =>
    by_cases h3 : funct3 w = 0
    · exact ⟨.pause, _, parse_row h h3 (by decide) rfl, rfl, rfl,
        fun hm => hw (Form.encode_operands hm).symm⟩
    · have hc : (cellOf w).operation = .invOp := by
        rw [cellOf, h, miscMem_cell, if_neg h3]
      exact ⟨.fence, _, parse_miscMem h hc, rfl, rfl, fun hm => h3 hm.2⟩

theorem not_sound_of_unread {w : RV64UWord} (hu : Unread w) : ¬Sound w := by
  obtain ⟨op, f, hop, -, hf, hm⟩ := loose_of_unread hu
  exact fun hs => hm (hs.matches hop hf)

theorem named_of_cell {w : RV64UWord} (hu : ¬Unread w) (hc : (cellOf w).operation ≠ .invOp) :
    ∃ f, form (parse w).operation = some f ∧ f.Matches w := by
  rw [parse_cell hc]
  obtain ⟨hslli', hsrai', hslliw', hpause'⟩ := cell_at (opcode w) (funct3 w)
  by_cases hslli : (cellOf w).operation = .slli
  · obtain ⟨hop, h3⟩ := hslli' hslli
    rw [hslli]
    exact ⟨_, rfl, hop, h3, by_contra fun h6 => hu (.slli hop h3 h6)⟩
  by_cases hsrai : (cellOf w).operation = .srai
  · obtain ⟨hop, h3⟩ := hsrai' hsrai
    rw [hsrai]
    exact ⟨_, rfl, hop, h3, by_contra fun h6 => hu (.srai hop h3 h6)⟩
  by_cases hslliw : (cellOf w).operation = .slliw
  · obtain ⟨hop, h3⟩ := hslliw' hslliw
    rw [hslliw]
    exact ⟨_, rfl, hop, h3, by_contra fun h7 => hu (.slliw hop h3 h7)⟩
  by_cases hpause : (cellOf w).operation = .pause
  · obtain rfl : w = 0x0100000F := by_contra fun hw => hu (.miscMem (hpause' hpause) hw)
    exact ⟨_, rfl, rfl, rfl, rfl, rfl, rfl⟩
  obtain hf | hf | hf | hf | hf :=
    cell_form (opcode w) (funct3 w) hc hslli hsrai hslliw hpause
  · exact ⟨_, hf, rfl, rfl⟩
  · exact ⟨_, hf, rfl, rfl⟩
  · exact ⟨_, hf, rfl, rfl⟩
  · exact ⟨_, hf, rfl⟩
  · exact ⟨_, hf, rfl⟩

theorem named_of_system {w : RV64UWord} (hop : opcode w = 0b1110011)
    (hc : (cellOf w).operation = .invOp) (hne : (parse w).operation ≠ .invOp) :
    ∃ f, form (parse w).operation = some f ∧ f.Matches w := by
  rw [parse_system hop hc] at hne ⊢
  split_ifs at hne ⊢ with hreg he hb hs hm
  · exact ⟨_, rfl, hop, hreg.2.2, he, hreg.1, hreg.2.1⟩
  · exact ⟨_, rfl, hop, hreg.2.2, hb, hreg.1, hreg.2.1⟩
  · exact ⟨_, rfl, hop, hreg.2.2, hs, hreg.1, hreg.2.1⟩
  · exact ⟨_, rfl, hop, hreg.2.2, hm, hreg.1, hreg.2.1⟩
  · exact absurd rfl hne
  · exact absurd rfl hne

theorem named_of_opImm32 {w : RV64UWord} (hu : ¬Unread w) (hop : opcode w = 0b0011011)
    (hc : (cellOf w).operation = .invOp) (hne : (parse w).operation ≠ .invOp) :
    ∃ f, form (parse w).operation = some f ∧ f.Matches w := by
  have h01 : funct3 w ≠ 0b000 ∧ funct3 w ≠ 0b001 := by
    rw [cellOf, hop, opImm32_cell] at hc
    split_ifs at hc with h0 h1
    exact ⟨h0, h1⟩
  have h5 : funct7 w = 0b0000000 ∨ funct7 w = 0b0100000 → funct3 w = 0b101 := fun h7 =>
    by_contra fun h5 => hu (.shiftW hop ⟨h01.1, h01.2, h5⟩ h7)
  rw [parse_opImm32 hop hc] at hne ⊢
  split_ifs at hne ⊢ with hl ha
  · exact ⟨_, rfl, hop, h5 (.inl hl), hl⟩
  · exact ⟨_, rfl, hop, h5 (.inr ha), ha⟩
  · exact absurd rfl hne

theorem named_of_read {w : RV64UWord} (hu : ¬Unread w) (hne : (parse w).operation ≠ .invOp) :
    ∃ f, form (parse w).operation = some f ∧ f.Matches w := by
  by_cases hc : (cellOf w).operation = .invOp
  · by_cases hop : opcode w = 0b0110011
    · rw [parse_op hop] at hne ⊢
      exact ⟨_, (operationOp_form (funct7 w) (funct3 w)).resolve_left hne, hop, rfl, rfl⟩
    by_cases hop32 : opcode w = 0b0111011
    · rw [parse_op32 hop32] at hne ⊢
      exact ⟨_, (operationOp32_form (funct7 w) (funct3 w)).resolve_left hne, hop32, rfl, rfl⟩
    by_cases hmisc : opcode w = 0b0001111
    · obtain rfl : w = 0x0100000F := by_contra fun hw => hu (.miscMem hmisc hw)
      cases hc
    by_cases hsystem : opcode w = 0b1110011
    · exact named_of_system hsystem hc hne
    by_cases himm32 : opcode w = 0b0011011
    · exact named_of_opImm32 hu himm32 hc hne
    · refine absurd (parse_illegal hc fun c hmem => ?_) hne
      simp only [List.mem_cons, List.not_mem_nil, or_false] at hmem
      obtain rfl | rfl | rfl | rfl | rfl := hmem <;> assumption
  · exact named_of_cell hu hc

theorem matches_of_parse {w : RV64UWord} {op : InstructionOp} {f : Form}
    (hop : (parse w).operation = op) (hl : loose op = false) (hf : form op = some f) : f.Matches w := by
  have hu : ¬Unread w := by
    intro hu
    obtain ⟨op', -, hop', hl', -⟩ := loose_of_unread hu
    rw [← hop'.symm.trans hop, hl'] at hl
    cases hl
  have hne : (parse w).operation ≠ .invOp := by
    intro hinv
    rw [← hop, hinv] at hf
    cases hf
  obtain ⟨f', hf', hm⟩ := named_of_read hu hne
  rw [hop, hf] at hf'
  exact Option.some.inj hf' ▸ hm

theorem opImm32_of_parse {w : RV64UWord} {op : InstructionOp} (hop : (parse w).operation = op)
    (h : op = .slliw ∨ op = .srliw ∨ op = .sraiw) :
    opcode w = 0b0011011 ∧ (op = .srliw → funct7 w = 0) ∧ (op = .sraiw → funct7 w = 0b0100000) := by
  have hother : ∀ op', (parse w).operation = op' → op' = .slliw ∨ op' = .srliw ∨ op' = .sraiw := by
    rintro op' rfl
    exact hop ▸ h
  by_cases hu : Unread w
  · cases hu with
    | slli hc h3 => exact absurd (hother .slli (parse_row hc h3 (by decide) rfl)) (by decide)
    | srai hc h3 => exact absurd (hother .srai (parse_row hc h3 (by decide) rfl)) (by decide)
    | slliw hc h3 =>
      have hrow : (parse w).operation = .slliw := parse_row hc h3 (by decide) rfl
      obtain rfl := hrow.symm.trans hop
      exact ⟨hc, nofun, nofun⟩
    | shiftW hc h3 h7 =>
      have hcell : (cellOf w).operation = .invOp := by
        rw [cellOf, hc, opImm32_cell, if_neg h3.1, if_neg h3.2.1]
      have hrow := parse_opImm32 hc hcell
      obtain h7 | h7 := h7
      · rw [if_pos h7] at hrow
        obtain rfl := hrow.symm.trans hop
        exact ⟨hc, fun _ => h7, nofun⟩
      · rw [if_neg (by rw [h7]; decide), if_pos h7] at hrow
        obtain rfl := hrow.symm.trans hop
        exact ⟨hc, nofun, fun _ => h7⟩
    | miscMem hc =>
      by_cases h3 : funct3 w = 0
      · exact absurd (hother .pause (parse_row hc h3 (by decide) rfl)) (by decide)
      · have hcell : (cellOf w).operation = .invOp := by
          rw [cellOf, hc, miscMem_cell, if_neg h3]
        exact absurd (hother _ (parse_miscMem hc hcell)) (by decide)
  · have hne : (parse w).operation ≠ .invOp := fun hinv => absurd (hother _ hinv) (by decide)
    obtain ⟨f, hf, hm⟩ := named_of_read hu hne
    rw [hop] at hf
    obtain rfl | rfl | rfl := h <;> cases hf
    · exact ⟨hm.1, nofun, nofun⟩
    · exact ⟨hm.1, fun _ => hm.2.2, nofun⟩
    · exact ⟨hm.1, nofun, fun _ => hm.2.2⟩

/-- The decoder is sound on the words whose fixed fields it reads, and only on these. -/
theorem parse_sound_iff (w : RV64UWord) : Sound w ↔ ¬Unread w := by
  constructor
  · exact fun hs hu => not_sound_of_unread hu hs
  · intro hu
    refine ⟨named_of_read hu, fun hnone => ?_⟩
    by_contra hne
    obtain ⟨f, hf, hm⟩ := named_of_read hu hne
    exact hnone _ f hf (operands w) (Form.encode_operands hm)

/-- A word with a bit set above the shift amount is of no instruction, and is
taken for an SLLI. -/
theorem parse_slli_unread : (parse 0x40001013).operation = .slli ∧ ¬Sound 0x40001013 :=
  ⟨by decide +kernel, not_sound_of_unread (.slli (by decide) (by decide) (by decide))⟩

end Besm.Dec
