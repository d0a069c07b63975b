import Besm.Decoder.Immediates

namespace Besm.Dec

open Besm.Util Besm.Lib.Encoding

/-! The assertions of the decoder, each on the values of its function. -/

def assertR (bytecode : RV64UWord) (func3 : BitVec 8) : Bool :=
  let func7 : BitVec 16 := ((bytecode &&& 0xFE000000#32) >>> 22).setWidth 16
  let func10 : BitVec 16 := func7 ||| func3.setWidth 16
  func10 < 0b10000000000

def assertS (bytecode : RV64UWord) : Bool :=
  let imm11_5 : Immidiate := extractBits 7 25 (bytecode.setWidth 64) <<< 5
  let imm4_0 : Immidiate := extractBits 5 7 (bytecode.setWidth 64) <<< 0
  imm4_0 &&& imm11_5 = 0

def assertB (bytecode : RV64UWord) : Bool :=
  let imm12 : Immidiate := extractBits 1 31 (bytecode.setWidth 64) <<< 12
  let imm5_10 : Immidiate := extractBits 6 25 (bytecode.setWidth 64) <<< 5
  let imm1_4 : Immidiate := extractBits 4 8 (bytecode.setWidth 64) <<< 1
  let imm11 : Immidiate := extractBits 1 7 (bytecode.setWidth 64) <<< 11
  imm1_4 &&& imm5_10 &&& imm11 &&& imm12 = 0

def assertJ (bytecode : RV64UWord) : Bool :=
  let bit20 : RV64UWord := extractBits 1 31 bytecode <<< 20
  let bit1_10 : RV64UWord := extractBits 10 21 bytecode <<< 1
  let bit11 : RV64UWord := extractBits 1 20 bytecode <<< 11
  let bit12_19 : RV64UWord := extractBits 8 12 bytecode <<< 12
  bit20 &&& bit1_10 &&& bit11 &&& bit12_19 = 0

/-- No assertion fires while a word is parsed. -/
def asserts (bytecode : RV64UWord) : Bool :=
  let opcode : Opcode := (extractBits 7 0 bytecode).setWidth 8
  let func3 : BitVec 8 := (extractBits 3 func3Shift bytecode).setWidth 8
  opcode < 128 && func3 < 8 && match (instrWho opcode func3).format with
    | .r => assertR bytecode func3
    | .s => assertS bytecode
    | .b => assertB bytecode
    | .j => assertJ bytecode
    | _ => true

theorem assertR_holds (w : RV64UWord) : assertR w ((funct3 w).setWidth 8) = true := by
  have h := (func10 w).isLt
  unfold assertR
  dsimp only
  rw [func10_mask, decide_eq_true_iff, BitVec.lt_def, BitVec.toNat_setWidth]
  exact Nat.lt_of_le_of_lt (Nat.mod_le _ _) h

theorem assertS_holds (w : RV64UWord) : assertS w = true := by
  unfold assertS
  dsimp only
  rw [decide_eq_true_iff, place_extractBits, place_extractBits]
  exact place_and_place _ _ (by decide)

theorem assertB_holds (w : RV64UWord) : assertB w = true := by
  unfold assertB
  dsimp only
  rw [decide_eq_true_iff, place_extractBits, place_extractBits, place_extractBits,
    place_extractBits, place_and_place _ _ (by decide), BitVec.zero_and, BitVec.zero_and]
  rfl

theorem assertJ_holds (w : RV64UWord) : assertJ w = true := by
  unfold assertJ
  dsimp only
  rw [decide_eq_true_iff, place_extractBits_word, place_extractBits_word, place_extractBits_word,
    place_extractBits_word, BitVec.and_comm (place 20 _), place_and_place _ _ (by decide),
    BitVec.zero_and, BitVec.zero_and]
  rfl

theorem asserts_hold (w : RV64UWord) : asserts w = true := by
  have hop : (opcode w).setWidth 8 < (128 : Opcode) := by
    have h := (opcode w).isLt
    rw [BitVec.lt_def, BitVec.toNat_setWidth]
    exact Nat.lt_of_le_of_lt (Nat.mod_le _ _) h
  have h3 : (funct3 w).setWidth 8 < (8 : BitVec 8) := by
    have h := (funct3 w).isLt
    rw [BitVec.lt_def, BitVec.toNat_setWidth]
    exact Nat.lt_of_le_of_lt (Nat.mod_le _ _) h
  unfold asserts
  dsimp only
  rw [opcode_extractBits, func3_extractBits, decide_eq_true hop, decide_eq_true h3]
  split
  · exact assertR_holds w
  · exact assertS_holds w
  · exact assertB_holds w
  · exact assertJ_holds w
  · rfl

/-- The layout that the table gives a word, with what the word has in the
fields that are no operands. -/
def layout (w : RV64UWord) : Option Form :=
  match (cellOf w).format with
  | .r => some (.r (opcode w) (funct3 w) (funct7 w))
  | .i => some (.i (opcode w) (funct3 w))
  | .s => some (.s (opcode w) (funct3 w))
  | .b => some (.b (opcode w) (funct3 w))
  | .u => some (.u (opcode w))
  | .j => some (.j (opcode w))
  | .illegal => none

/-- The choices that a decoded instruction makes; its immediate is read as that
of every format. -/
def choices (i : Instruction) : Operands :=
  ⟨i.rd.setWidth 5, i.rs1.setWidth 5, i.rs2.setWidth 5, i.immidiate.setWidth 6,
    i.immidiate.setWidth 12, i.immidiate.setWidth 12, i.immidiate.extractLsb' 12 20,
    i.immidiate.setWidth 13, i.immidiate.setWidth 21⟩

/-- The fields of an instruction are those that a layout has in a word. -/
def ReadsAs (f : Form) (w : RV64UWord) (i : Instruction) : Prop :=
  match f with
  | .r .. => i.rd.toNat = (rd w).toNat ∧ i.rs1.toNat = (rs1 w).toNat ∧ i.rs2.toNat = (rs2 w).toNat
  | .i .. => i.rd.toNat = (rd w).toNat ∧ i.rs1.toNat = (rs1 w).toNat ∧
      i.immidiate.toNat = (immI w).toNat
  | .s .. => i.rs1.toNat = (rs1 w).toNat ∧ i.rs2.toNat = (rs2 w).toNat ∧
      i.immidiate.toNat = (immS w).toNat
  | .b .. => i.rs1.toNat = (rs1 w).toNat ∧ i.rs2.toNat = (rs2 w).toNat ∧
      i.immidiate.toNat = (offsetB w).toNat ∧ i.immidiate.toNat % 2 = 0
  | .u .. => i.rd.toNat = (rd w).toNat ∧ i.immidiate.toNat = (immU w).toNat * 2 ^ 12
  | .j .. => i.rd.toNat = (rd w).toNat ∧ i.immidiate.toNat = (offsetJ w).toNat ∧
      i.immidiate.toNat % 2 = 0
  | _ => False

theorem layout_matches {w : RV64UWord} {f : Form} (h : layout w = some f) : f.Matches w := by
  unfold layout at h
  split at h <;> cases h
  · exact ⟨rfl, rfl, rfl⟩
  · exact ⟨rfl, rfl⟩
  · exact ⟨rfl, rfl⟩
  · exact ⟨rfl, rfl⟩
  · exact rfl
  · exact rfl

theorem even_of_bit {n : Nat} {x : BitVec n} (h : x.getLsbD 0 = false) : x.toNat % 2 = 0 := by
  rw [BitVec.getLsbD, Nat.testBit_zero, decide_eq_false_iff_not] at h
  omega

theorem setWidth_back {n k : Nat} (x : BitVec n) (h : n ≤ k) : (x.setWidth k).setWidth n = x := by
  rw [BitVec.setWidth_setWidth_of_le _ h, BitVec.setWidth_eq]

theorem reads_of_layout {w : RV64UWord} {f : Form} (h : layout w = some f) :
    ReadsAs f w (parse w) := by
  have h8 : ∀ x : BitVec 5, (x.setWidth 8).toNat = x.toNat := fun x =>
    BitVec.toNat_setWidth_of_le (by decide)
  have hp := parse_fields w
  unfold layout at h
  split at h <;> rename_i hf <;> cases h <;> rw [hf] at hp <;> dsimp only at hp <;> rw [hp]
  · exact ⟨h8 _, h8 _, h8 _⟩
  · exact ⟨h8 _, h8 _, BitVec.toNat_setWidth_of_le (by decide)⟩
  · exact ⟨h8 _, h8 _, BitVec.toNat_setWidth_of_le (by decide)⟩
  · have hb : ((offsetB w).setWidth 64).toNat = (offsetB w).toNat :=
      BitVec.toNat_setWidth_of_le (by decide)
    exact ⟨h8 _, h8 _, hb, by rw [hb]; exact even_of_bit (offsetB_even w)⟩
  · have hu := (immU w).isLt
    refine ⟨h8 _, ?_⟩
    rw [place, BitVec.toNat_shiftLeft, BitVec.toNat_setWidth, Nat.shiftLeft_eq]
    omega
  · have hj : ((offsetJ w).setWidth 64).toNat = (offsetJ w).toNat :=
      BitVec.toNat_setWidth_of_le (by decide)
    exact ⟨h8 _, hj, by rw [hj]; exact even_of_bit (offsetJ_even w)⟩

theorem encode_choices {w : RV64UWord} {f : Form} (h : layout w = some f) :
    f.encode (choices (parse w)) = w := by
  have hw := Form.encode_operands (layout_matches h)
  have hp := parse_fields w
  unfold layout at h
  split at h <;> rename_i hf <;> cases h <;> rw [hf] at hp <;> dsimp only at hp <;> rw [hp]
  case h_5 =>
    refine Eq.trans ?_ hw
    simp (disch := decide) only [Form.encode, choices, operands, setWidth_back, extract_place]
  all_goals
    refine Eq.trans ?_ hw
    simp (disch := decide) only [Form.encode, choices, operands, setWidth_back]

/-- Decoded fields lose nothing: they are those of the layout, and the layout
makes the word of them again. -/
theorem parse_lossless {w : RV64UWord} {f : Form} (h : layout w = some f) :
    asserts w = true ∧ ReadsAs f w (parse w) ∧
      ((parse w).rd < 32 ∧ (parse w).rs1 < 32 ∧ (parse w).rs2 < 32) ∧
        f.encode (choices (parse w)) = w :=
  ⟨asserts_hold w, reads_of_layout h, parse_registers w, encode_choices h⟩

theorem parse_lossless_beq :
    (Form.b 0b1100011 0b000).encode (choices (parse 0xFE208FE3)) = 0xFE208FE3 :=
  (parse_lossless (f := .b 0b1100011 0b000) (by decide +kernel)).2.2.2

end Besm.Dec
