import Besm.Lib.Numeral
import Besm.Sim.Machine

namespace Besm.Standalone

open Besm.Lib Besm.Sim Besm.Util

inductive ParseError
  | invalidArgument (message : String)
  | outOfRange (message : String)
  deriving DecidableEq, Repr

/-- Blanks and the control characters from tab to carriage return. -/
def isSpace (c : Char) : Bool := c = ' ' || (9 ≤ c.toNat && c.toNat ≤ 13)

def decimal (cs : List Char) : Nat := Numeral.value 10 (fun c => c.toNat - 48) cs

/-- The digits that a sign may stand before, and whether it is a minus. -/
def signed : List Char → Bool × List Char
  | '-' :: cs => (true, cs)
  | '+' :: cs => (false, cs)
  | cs => (false, cs)

/-- `std::stoull` in base ten: blanks, a sign, digits, and anything after them. -/
def stoull (cs : List Char) : Except ParseError RV64UDWord :=
  let s := signed (cs.dropWhile isSpace)
  let digits := s.2.takeWhile Char.isDigit
  if digits.isEmpty then .error (.invalidArgument "stoull")
  else if 2 ^ 64 ≤ decimal digits then .error (.outOfRange "stoull")
  else
    let value := BitVec.ofNat 64 (decimal digits)
    .ok (if s.1 then -value else value)

def parseRange (rangeString : List Char) : Except ParseError (Range RV64Ptr) :=
  match rangeString.dropWhile (· ≠ ',') with
  | [] => .error (.invalidArgument "Invalid range")
  | _ :: rightBorderString =>
    match stoull (rangeString.takeWhile (· ≠ ',')) with
    | .error e => .error e
    | .ok leftBorder =>
      match stoull rightBorderString with
      | .error e => .error e
      | .ok size => .ok ⟨leftBorder, leftBorder + size⟩

/-- The options of the standalone program, less those that make it verbose. -/
structure Options where
  executable : String
  ram : String := "0,1073741824"
  ramPageSize : RV64Size := 4096
  ramChunkSize : RV64Size := 2 * 1024 * 1024
  a0Validation : Bool := false

/-- The callback of `--ram`. A range that cannot be parsed is dropped with a message. -/
def Options.setRam (options : Options) (b : ConfigBuilder) : ConfigBuilder :=
  match parseRange options.ram.toList with
  | .ok range => b.addRamRange range
  | .error _ => b

def Options.config (options : Options) (ramPageSize ramChunkSize : RV64Size) :
    Except InvalidConfiguration Config :=
  let b := (ConfigBuilder.create ramPageSize ramChunkSize).setExecutablePath options.executable
  (((options.setRam b).setRamPageSize options.ramPageSize).setRamChunkSize options.ramChunkSize).build

structure Number (cs blanks sign digits rest : List Char) : Prop where
  text : cs = blanks ++ (sign ++ (digits ++ rest))
  blanks : ∀ c ∈ blanks, isSpace c = true
  sign : sign = [] ∨ sign = ['+'] ∨ sign = ['-']
  nonempty : digits ≠ []
  digits : ∀ c ∈ digits, c.isDigit = true
  rest : ∀ c, rest.head? = some c → c.isDigit = false

theorem not_isSpace_of_isDigit {c : Char} (h : c.isDigit = true) : isSpace c = false := by
  have hc : 48 ≤ c.toNat := by
    simp only [Char.isDigit, Bool.and_eq_true, decide_eq_true_eq] at h
    exact h.1
  have hne : c ≠ ' ' := by
    rintro rfl
    exact absurd hc (by decide)
  simp only [isSpace, hne, decide_false, Bool.false_or, Bool.and_eq_false_iff, decide_eq_false_iff_not]
  omega

theorem signed_of_isDigit {d : Char} (h : d.isDigit = true) (ds : List Char) :
    signed (d :: ds) = (false, d :: ds) := by
  unfold signed
  split
  case h_1 heq =>
    obtain ⟨rfl, -⟩ := List.cons.inj heq
    cases h
  case h_2 heq =>
    obtain ⟨rfl, -⟩ := List.cons.inj heq
    cases h
  case h_3 => rfl

theorem signed_append (cs : List Char) : ∃ sign, cs = sign ++ (signed cs).2 ∧
    (sign = [] ∨ sign = ['+'] ∨ sign = ['-']) := by
  unfold signed
  split
  · exact ⟨['-'], rfl, .inr (.inr rfl)⟩
  · exact ⟨['+'], rfl, .inr (.inl rfl)⟩
  · exact ⟨[], rfl, .inl rfl⟩

theorem Number.signed_drop {cs blanks sign digits rest : List Char}
    (h : Number cs blanks sign digits rest) :
    signed (cs.dropWhile isSpace) = (decide (sign = ['-']), digits ++ rest) := by
  obtain ⟨d, ds, hds⟩ := List.exists_cons_of_ne_nil h.nonempty
  have hd := h.digits d (hds ▸ List.mem_cons_self)
  have hdrop : cs.dropWhile isSpace = sign ++ (digits ++ rest) := by
    rw [h.text]
    refine (Numeral.span_append h.blanks fun c hc => ?_).2
    obtain rfl | rfl | rfl := h.sign
    · rw [hds] at hc
      obtain rfl := Option.some.inj hc
      exact not_isSpace_of_isDigit hd
    · obtain rfl := Option.some.inj hc
      rfl
    · obtain rfl := Option.some.inj hc
      rfl
  rw [hdrop]
  obtain rfl | rfl | rfl := h.sign
  · rw [hds]
    exact signed_of_isDigit hd _
  · rfl
  · rfl

theorem stoull_of_number {cs blanks sign digits rest : List Char}
    (h : Number cs blanks sign digits rest) : stoull cs =
      if 2 ^ 64 ≤ decimal digits then .error (.outOfRange "stoull")
      else .ok (if sign = ['-'] then -BitVec.ofNat 64 (decimal digits)
        else BitVec.ofNat 64 (decimal digits)) := by
  have hspan := (Numeral.span_append h.digits h.rest).1
  have hne : digits.isEmpty = false := by simpa using h.nonempty
  unfold stoull
  rw [h.signed_drop]
  dsimp only
  rw [hspan, hne]
  simp

theorem head_dropWhile {p : Char → Bool} {cs : List Char} {c : Char}
    (h : (cs.dropWhile p).head? = some c) : p c = false := by
  have hnot := cs.head?_dropWhile_not p
  rw [h] at hnot
  exact hnot

theorem number_or_invalid (cs : List Char) :
    (∃ blanks sign digits rest, Number cs blanks sign digits rest) ∨
      stoull cs = .error (.invalidArgument "stoull") := by
  obtain ⟨sign, htext, hsign⟩ := signed_append (cs.dropWhile isSpace)
  by_cases hne : (signed (cs.dropWhile isSpace)).2.takeWhile Char.isDigit = []
  · refine .inr ?_
    unfold stoull
    dsimp only
    rw [hne]
    rfl
  · refine .inl ⟨cs.takeWhile isSpace, sign, _, (signed (cs.dropWhile isSpace)).2.dropWhile Char.isDigit,
      ?_, fun c hc => List.mem_takeWhile_imp hc, hsign, hne, fun c hc => List.mem_takeWhile_imp hc,
      fun c hc => head_dropWhile hc⟩
    rw [List.takeWhile_append_dropWhile, ← htext, List.takeWhile_append_dropWhile]

/-- The value of a text that begins with a number. -/
def Denotes (cs : List Char) (value : RV64UDWord) : Prop :=
  ∃ blanks sign digits rest, Number cs blanks sign digits rest ∧ decimal digits < 2 ^ 64 ∧
    value = if sign = ['-'] then -BitVec.ofNat 64 (decimal digits)
      else BitVec.ofNat 64 (decimal digits)

theorem stoull_ok_iff {cs : List Char} {value : RV64UDWord} :
    stoull cs = .ok value ↔ Denotes cs value := by
  constructor
  · intro h
    obtain ⟨blanks, sign, digits, rest, hn⟩ | hnone := number_or_invalid cs
    · rw [stoull_of_number hn] at h
      split_ifs at h with hlt <;>
        exact ⟨blanks, sign, digits, rest, hn, Nat.not_le.mp hlt, by simp_all⟩
    · exact nomatch h.symm.trans hnone
  · rintro ⟨blanks, sign, digits, rest, hn, hlt, rfl⟩
    rw [stoull_of_number hn, if_neg (Nat.not_le.mpr hlt)]

theorem number_toDigits (n : Nat) {rest : List Char}
    (h : ∀ c, rest.head? = some c → c.isDigit = false) :
    Number (Nat.toDigits 10 n ++ rest) [] [] (Nat.toDigits 10 n) rest where
  text := rfl
  blanks := nofun
  sign := .inl rfl
  nonempty := Nat.toDigits_ne_nil
  digits c hc := Nat.isDigit_of_mem_toDigits (by decide) (by decide) hc
  rest := h

theorem decimal_toDigits (n : Nat) : decimal (Nat.toDigits 10 n) = n :=
  Numeral.value_toDigits (by decide) (by decide) n

theorem denotes_toDigits (v : RV64UDWord) : Denotes (Nat.toDigits 10 v.toNat) v := by
  refine ⟨[], [], _, [], ?_, (decimal_toDigits v.toNat).trans_lt v.isLt, ?_⟩
  · have hn := number_toDigits v.toNat fun c (h : [].head? = some c) => nomatch h
    rwa [List.append_nil] at hn
  · rw [decimal_toDigits, if_neg (by decide), BitVec.ofNat_toNat, BitVec.setWidth_eq]

theorem parseRange_eq_ok {rangeString : List Char} {range : Range RV64Ptr} :
    parseRange rangeString = .ok range ↔ ∃ left right address size,
      rangeString = left ++ ',' :: right ∧ ',' ∉ left ∧ Denotes left address ∧
        Denotes right size ∧ range = ⟨address, address + size⟩ := by
  simp only [← stoull_ok_iff]
  constructor
  · intro h
    unfold parseRange at h
    cases hd : rangeString.dropWhile (· ≠ ',') with
    | nil =>
      rw [hd] at h
      cases h
    | cons c right =>
      rw [hd] at h
      have hc : c = ',' := by simpa using head_dropWhile (p := fun c => c ≠ ',') (congrArg List.head? hd)
      have hsplit := List.takeWhile_append_dropWhile (p := fun c => decide (c ≠ ',')) (l := rangeString)
      cases hl : stoull (rangeString.takeWhile (· ≠ ',')) with
      | error e =>
        rw [hl] at h
        cases h
      | ok address =>
        rw [hl] at h
        cases hr : stoull right with
        | error e =>
          dsimp only at h
          rw [hr] at h
          cases h
        | ok size =>
          dsimp only at h
          rw [hr] at h
          refine ⟨_, right, address, size, ?_, ?_, hl, hr, (Except.ok.inj h).symm⟩
          · subst hc
            rw [← hd, hsplit]
          · exact fun hmem => absurd (List.mem_takeWhile_imp hmem) (by simp)
  · rintro ⟨left, right, address, size, rfl, hleft, hl, hr, rfl⟩
    have hne : ∀ c ∈ left, decide (c ≠ ',') = true := fun c hc =>
      decide_eq_true fun h => hleft (h ▸ hc)
    obtain ⟨ht, hd⟩ := Numeral.span_append hne (by simp : ∀ y, (',' :: right).head? = some y → _)
    unfold parseRange
    rw [ht, hd]
    dsimp only
    rw [hl, hr]

theorem parseRange_toDigits (address size : RV64UDWord) :
    parseRange (Nat.toDigits 10 address.toNat ++ ',' :: Nat.toDigits 10 size.toNat) =
      .ok ⟨address, address + size⟩ := by
  refine parseRange_eq_ok.mpr ⟨_, _, address, size, rfl, fun h => ?_, denotes_toDigits address,
    denotes_toDigits size, rfl⟩
  exact absurd (Nat.isDigit_of_mem_toDigits (by decide) (by decide) h) (by decide)

/-- The ranges that are accepted: two numbers, parted by the first comma. Those that
are written in decimal are among them. -/
theorem parseRange_ok_iff :
    (∀ rangeString range, parseRange rangeString = .ok range ↔ ∃ left right address size,
      rangeString = left ++ ',' :: right ∧ ',' ∉ left ∧ Denotes left address ∧
        Denotes right size ∧ range = ⟨address, address + size⟩) ∧
    ∀ address size : RV64UDWord,
      parseRange (Nat.toDigits 10 address.toNat ++ ',' :: Nat.toDigits 10 size.toNat) =
        .ok ⟨address, address + size⟩ :=
  ⟨fun _ _ => parseRange_eq_ok, parseRange_toDigits⟩

/-- With its defaults the program has a gigabyte of RAM from address 0 on. -/
theorem config_default {path : String} (h : path ≠ "") (a0Validation : Bool)
    (ramPageSize ramChunkSize : RV64Size) :
    ({ executable := path, a0Validation } : Options).config ramPageSize ramChunkSize =
      .ok (Machine.usual path) := by
  have hram : parseRange "0,1073741824".toList = .ok ⟨0, 0x40000000⟩ := by decide +kernel
  unfold Options.config Options.setRam
  dsimp only
  rw [hram]
  unfold ConfigBuilder.build
  rw [if_neg]
  · rfl
  · exact fun h0 => h (String.isEmpty_iff.mp h0)

end Besm.Standalone
