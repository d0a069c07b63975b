import Mathlib.Data.Nat.Basic

namespace Besm.Lib.Encoding

def place {w n : Nat} (offset : Nat) (x : BitVec n) : BitVec w := x.setWidth w <<< offset

section Place

variable {w n : Nat}

theorem getLsbD_place (offset : Nat) (x : BitVec n) (k : Nat) :
    (place offset x : BitVec w).getLsbD k =
      (decide (offset ≤ k ∧ k < w) && x.getLsbD (k - offset)) := by
  rw [place, BitVec.getLsbD_shiftLeft, BitVec.getLsbD_setWidth, Bool.eq_iff_iff]
  simp only [Bool.and_eq_true, decide_eq_true_eq, Bool.not_eq_true', decide_eq_false_iff_not]
  constructor
  · rintro ⟨⟨hk, hle⟩, -, hx⟩
    exact ⟨⟨Nat.not_lt.mp hle, hk⟩, hx⟩
  · rintro ⟨⟨hle, hk⟩, hx⟩
    exact ⟨⟨hk, Nat.not_lt.mpr hle⟩, by omega, hx⟩

theorem extract_place (offset : Nat) (x : BitVec n) (h : offset + n ≤ w) :
    (place offset x : BitVec w).extractLsb' offset n = x := by
  apply BitVec.eq_of_getLsbD_eq
  intro k hk
  rw [BitVec.getLsbD_extractLsb', getLsbD_place, Nat.add_sub_cancel_left, decide_eq_true hk,
    decide_eq_true (by omega), Bool.true_and, Bool.true_and]

theorem extract_place_apart {offset start m : Nat} (x : BitVec n)
    (h : start + m ≤ offset ∨ offset + n ≤ start) :
    (place offset x : BitVec w).extractLsb' start m = 0#m := by
  apply BitVec.eq_of_getLsbD_eq
  intro k hk
  rw [BitVec.getLsbD_extractLsb', getLsbD_place]
  obtain h | h := h
  · simp [show ¬offset ≤ start + k by omega]
  · simp [BitVec.getLsbD_of_ge x (start + k - offset) (by omega)]

theorem place_or_place (v : BitVec w) {offset m : Nat} (offset' m' : Nat) (h : offset' = offset + m) :
    place offset' (v.extractLsb' offset' m') ||| place offset (v.extractLsb' offset m) =
      (place offset (v.extractLsb' offset (m + m')) : BitVec w) := by
  subst h
  apply BitVec.eq_of_getLsbD_eq
  intro k hk
  rw [Bool.eq_iff_iff]
  simp only [BitVec.getLsbD_or, getLsbD_place, BitVec.getLsbD_extractLsb', Bool.or_eq_true,
    Bool.and_eq_true, decide_eq_true_eq]
  constructor
  · rintro (⟨⟨hle, -⟩, hlt, hv⟩ | ⟨⟨hle, -⟩, hlt, hv⟩)
    · have hi : offset + (k - offset) = offset + m + (k - (offset + m)) := by omega
      exact ⟨⟨by omega, hk⟩, by omega, by rwa [hi]⟩
    · exact ⟨⟨hle, hk⟩, by omega, hv⟩
  · rintro ⟨⟨hle, -⟩, hlt, hv⟩
    by_cases hm : k - offset < m
    · exact .inr ⟨⟨hle, hk⟩, hm, hv⟩
    · have hi : offset + m + (k - (offset + m)) = offset + (k - offset) := by omega
      exact .inl ⟨⟨by omega, hk⟩, by omega, by rwa [hi]⟩

theorem place_and_place {m : Nat} {offset offset' : Nat} (x : BitVec n) (y : BitVec m)
    (h : offset + n ≤ offset') : (place offset x &&& place offset' y : BitVec w) = 0#w := by
  apply BitVec.eq_of_getLsbD_eq
  intro k hk
  rw [BitVec.getLsbD_and, getLsbD_place, getLsbD_place]
  by_cases hle : offset' ≤ k
  · rw [BitVec.getLsbD_of_ge x _ (by omega)]
    simp
  · simp [hle]

theorem place_zero (v : BitVec w) : place 0 (v.extractLsb' 0 w) = v := by
  apply BitVec.eq_of_getLsbD_eq
  intro k hk
  rw [getLsbD_place, BitVec.getLsbD_extractLsb', Nat.sub_zero, Nat.zero_add]
  simp [hk]

theorem setWidth_place {m : Nat} {offset : Nat} (x : BitVec n) (h : offset + n ≤ w) :
    (place offset x : BitVec w).setWidth m = place offset x := by
  apply BitVec.eq_of_getLsbD_eq
  intro k hk
  rw [BitVec.getLsbD_setWidth, getLsbD_place, getLsbD_place, decide_eq_true hk, Bool.true_and]
  by_cases hw : k < w
  · rw [decide_eq_decide.mpr (by omega : offset ≤ k ∧ k < w ↔ offset ≤ k ∧ k < m)]
  · rw [BitVec.getLsbD_of_ge x _ (by omega), Bool.and_false, Bool.and_false]

end Place

abbrev Word := BitVec 32

section Fields

variable (w : Word)

def opcode : BitVec 7 := w.extractLsb' 0 7
def rd : BitVec 5 := w.extractLsb' 7 5
def funct3 : BitVec 3 := w.extractLsb' 12 3
def rs1 : BitVec 5 := w.extractLsb' 15 5
def rs2 : BitVec 5 := w.extractLsb' 20 5
def funct7 : BitVec 7 := w.extractLsb' 25 7
def funct6 : BitVec 6 := w.extractLsb' 26 6
def funct12 : BitVec 12 := w.extractLsb' 20 12

def shamt : BitVec 6 := w.extractLsb' 20 6
def immI : BitVec 12 := w.extractLsb' 20 12
def immS : BitVec 12 := place 5 (w.extractLsb' 25 7) ||| place 0 (w.extractLsb' 7 5)
def immU : BitVec 20 := w.extractLsb' 12 20

def offsetB : BitVec 13 :=
  place 12 (w.extractLsb' 31 1) ||| place 11 (w.extractLsb' 7 1) |||
    place 5 (w.extractLsb' 25 6) ||| place 1 (w.extractLsb' 8 4)

def offsetJ : BitVec 21 :=
  place 20 (w.extractLsb' 31 1) ||| place 12 (w.extractLsb' 12 8) |||
    place 11 (w.extractLsb' 20 1) ||| place 1 (w.extractLsb' 21 10)

theorem offsetB_even : (offsetB w).getLsbD 0 = false := by
  simp only [offsetB, BitVec.getLsbD_or, getLsbD_place]
  rfl

theorem offsetJ_even : (offsetJ w).getLsbD 0 = false := by
  simp only [offsetJ, BitVec.getLsbD_or, getLsbD_place]
  rfl

end Fields

/-- What an instruction fixes in its words. A shift of words has its five-bit
shift amount where the format `r` has the second source, and in the words of
`fixed` nothing is left to choose. -/
inductive Form
  | r (opcode : BitVec 7) (funct3 : BitVec 3) (funct7 : BitVec 7)
  | i (opcode : BitVec 7) (funct3 : BitVec 3)
  | shift (opcode : BitVec 7) (funct3 : BitVec 3) (funct6 : BitVec 6)
  | s (opcode : BitVec 7) (funct3 : BitVec 3)
  | b (opcode : BitVec 7) (funct3 : BitVec 3)
  | u (opcode : BitVec 7)
  | j (opcode : BitVec 7)
  | fixed (opcode : BitVec 7) (funct3 : BitVec 3) (funct12 : BitVec 12)
  deriving DecidableEq, Repr

/-- The choices an instruction leaves open. Each form takes those it has room
for; the lowest bit of an offset has no place in a word. -/
structure Operands where
  rd : BitVec 5
  rs1 : BitVec 5
  rs2 : BitVec 5
  shamt : BitVec 6
  immI : BitVec 12
  immS : BitVec 12
  immU : BitVec 20
  offsetB : BitVec 13
  offsetJ : BitVec 21
  deriving DecidableEq, Repr

namespace Form

def encode : Form → Operands → Word
  | r opcode funct3 funct7, o =>
    place 25 funct7 ||| place 20 o.rs2 ||| place 15 o.rs1 ||| place 12 funct3 ||| place 7 o.rd |||
      place 0 opcode
  | i opcode funct3, o =>
    place 20 o.immI ||| place 15 o.rs1 ||| place 12 funct3 ||| place 7 o.rd ||| place 0 opcode
  | shift opcode funct3 funct6, o =>
    place 26 funct6 ||| place 20 o.shamt ||| place 15 o.rs1 ||| place 12 funct3 ||| place 7 o.rd |||
      place 0 opcode
  | s opcode funct3, o =>
    place 25 (o.immS.extractLsb' 5 7) ||| place 20 o.rs2 ||| place 15 o.rs1 ||| place 12 funct3 |||
      place 7 (o.immS.extractLsb' 0 5) ||| place 0 opcode
  | b opcode funct3, o =>
    place 31 (o.offsetB.extractLsb' 12 1) ||| place 25 (o.offsetB.extractLsb' 5 6) |||
      place 20 o.rs2 ||| place 15 o.rs1 ||| place 12 funct3 |||
      place 8 (o.offsetB.extractLsb' 1 4) ||| place 7 (o.offsetB.extractLsb' 11 1) ||| place 0 opcode
  | u opcode, o => place 12 o.immU ||| place 7 o.rd ||| place 0 opcode
  | j opcode, o =>
    place 31 (o.offsetJ.extractLsb' 20 1) ||| place 21 (o.offsetJ.extractLsb' 1 10) |||
      place 20 (o.offsetJ.extractLsb' 11 1) ||| place 12 (o.offsetJ.extractLsb' 12 8) |||
      place 7 o.rd ||| place 0 opcode
  | fixed opcode funct3 funct12, _ => place 20 funct12 ||| place 12 funct3 ||| place 0 opcode

def Matches (w : Word) : Form → Prop
  | r op f3 f7 => opcode w = op ∧ funct3 w = f3 ∧ funct7 w = f7
  | i op f3 => opcode w = op ∧ funct3 w = f3
  | shift op f3 f6 => opcode w = op ∧ funct3 w = f3 ∧ funct6 w = f6
  | s op f3 => opcode w = op ∧ funct3 w = f3
  | b op f3 => opcode w = op ∧ funct3 w = f3
  | u op => opcode w = op
  | j op => opcode w = op
  | fixed op f3 f12 => opcode w = op ∧ funct3 w = f3 ∧ funct12 w = f12 ∧ rd w = 0 ∧ rs1 w = 0

instance (w : Word) (f : Form) : Decidable (f.Matches w) := by
  cases f <;> unfold Matches <;> infer_instance

theorem matches_encode (f : Form) (o : Operands) : f.Matches (f.encode o) := by
  cases f <;>
    simp (disch := omega) [Matches, encode, opcode, rd, funct3, rs1, funct7, funct6, funct12,
      BitVec.extractLsb'_or, extract_place, extract_place_apart]

end Form

def operands (w : Word) : Operands :=
  ⟨rd w, rs1 w, rs2 w, shamt w, immI w, immS w, immU w, offsetB w, offsetJ w⟩

/-- A word whose fixed fields are those of a form is one of the form's words. -/
theorem Form.encode_operands {f : Form} {w : Word} (h : f.Matches w) : f.encode (operands w) = w := by
  have happend : f.encode (operands w) = place 0 (w.extractLsb' 0 32) := by
    cases f with
    | r op f3 f7 =>
      obtain ⟨rfl, rfl, rfl⟩ := h
      simp (disch := rfl) only [encode, operands, opcode, rd, funct3, rs1, rs2, funct7,
        place_or_place]
    | i op f3 =>
      obtain ⟨rfl, rfl⟩ := h
      simp (disch := rfl) only [encode, operands, opcode, rd, funct3, rs1, immI, place_or_place]
    | shift op f3 f6 =>
      obtain ⟨rfl, rfl, rfl⟩ := h
      simp (disch := rfl) only [encode, operands, opcode, rd, funct3, rs1, shamt, funct6,
        place_or_place]
    | s op f3 =>
      obtain ⟨rfl, rfl⟩ := h
      simp (disch := omega) only [encode, operands, opcode, funct3, rs1, rs2, immS,
        BitVec.extractLsb'_or, extract_place, extract_place_apart, BitVec.or_zero, BitVec.zero_or]
      simp (disch := rfl) only [place_or_place]
    | b op f3 =>
      obtain ⟨rfl, rfl⟩ := h
      simp (disch := omega) only [encode, operands, opcode, funct3, rs1, rs2, offsetB,
        BitVec.extractLsb'_or, extract_place, extract_place_apart, BitVec.or_zero, BitVec.zero_or]
      simp (disch := rfl) only [place_or_place]
    | u op =>
      obtain rfl := h
      simp (disch := rfl) only [encode, operands, opcode, rd, immU, place_or_place]
    | j op =>
      obtain rfl := h
      simp (disch := omega) only [encode, operands, opcode, rd, offsetJ,
        BitVec.extractLsb'_or, extract_place, extract_place_apart, BitVec.or_zero, BitVec.zero_or]
      simp (disch := rfl) only [place_or_place]
    | fixed op f3 f12 =>
      obtain ⟨rfl, rfl, rfl, hrd, hrs1⟩ := h
      have h0 : ∀ k, place k (0 : BitVec 5) = 0#32 := fun k => by simp [place]
      have hopen : (Form.fixed (opcode w) (funct3 w) (funct12 w)).encode (operands w) =
          place 20 (funct12 w) ||| place 15 (rs1 w) ||| place 12 (funct3 w) ||| place 7 (rd w) |||
            place 0 (opcode w) := by
        rw [encode, hrd, hrs1, h0, h0, BitVec.or_zero, BitVec.or_zero]
      rw [hopen]
      simp (disch := rfl) only [opcode, rd, funct3, rs1, funct12, place_or_place]
  rw [happend, place_zero]

end Besm.Lib.Encoding
