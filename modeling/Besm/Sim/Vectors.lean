import Besm.Sim.Warl

namespace Besm.Exec

open Besm.Util

theorem mtvec_get (raw : RV64UDWord) : MTVec.mode.get raw = extractBits 2 0 raw ∧
    MTVec.base.get raw = extractBits 62 2 raw := by
  constructor
  · exact CSRField.get_bits (by decide) (by decide) raw
  · exact CSRField.get_bits (by decide) (by decide) raw

theorem mtvec_toNat (raw : RV64UDWord) : (MTVec.mode.get raw).toNat = raw.toNat % 4 ∧
    (MTVec.base.get raw).toNat = raw.toNat / 4 := by
  rw [(mtvec_get raw).1, (mtvec_get raw).2, toNat_extractBits, toNat_extractBits]
  exact ⟨by omega, by omega⟩

theorem mtvec_ext {raw raw' : RV64UDWord} (hmode : MTVec.mode.get raw = MTVec.mode.get raw')
    (hbase : MTVec.base.get raw = MTVec.base.get raw') : raw = raw' := by
  rw [← BitVec.toNat_inj, (mtvec_toNat _).1, (mtvec_toNat _).1] at hmode
  rw [← BitVec.toNat_inj, (mtvec_toNat _).2, (mtvec_toNat _).2] at hbase
  apply BitVec.eq_of_toNat_eq
  omega

theorem mode_accepts {value : RV64UDWord} (h : value.toNat % 4 < 2) :
    MTVec.mode.accepts value = true := by
  have hle : (MTVec.mode.get value).toNat ≤ 1 := by
    rw [(mtvec_toNat _).1]
    omega
  exact decide_eq_true hle

/-- The validator sees the base without its two clear bits. -/
theorem base_accepts_iff (value : RV64UDWord) :
    MTVec.base.accepts value = true ↔ value.toNat % 16 < 4 := by
  have hval : MTVec.base.accepts value = MTVec.baseValidator (MTVec.base.get value) := rfl
  rw [hval, MTVec.baseValidator, decide_eq_true_iff, ← BitVec.toNat_inj, BitVec.toNat_umod,
    (mtvec_toNat _).2]
  change value.toNat / 4 % 4 = 0 ↔ _
  omega

/-- The register takes a value with a legal mode if it accepts the base or has it already. -/
theorem mtvec_filtered_iff {value : RV64UDWord} (raw : RV64UDWord) (h : value.toNat % 4 < 2) :
    (ICSR.fields .mtvec).filtered value raw = value ↔
      value.toNat % 16 < 4 ∨ value >>> 2 = raw >>> 2 := by
  obtain ⟨hmode, hbase⟩ := mtvec_mem
  have hapart := ICSR.fields_apart .mtvec
  have hshift : value >>> 2 = raw >>> 2 ↔ MTVec.base.get raw = MTVec.base.get value := by
    rw [← BitVec.toNat_inj, ← BitVec.toNat_inj, (mtvec_toNat _).2, (mtvec_toNat _).2,
      BitVec.toNat_ushiftRight, BitVec.toNat_ushiftRight, Nat.shiftRight_eq_div_pow,
      Nat.shiftRight_eq_div_pow]
    exact eq_comm
  have hgetMode := CSRStructure.get_filtered hapart hmode value raw
  have hgetBase := CSRStructure.get_filtered hapart hbase value raw
  rw [if_pos (mode_accepts h)] at hgetMode
  rw [hshift, ← base_accepts_iff]
  constructor
  · intro he
    by_cases ha : MTVec.base.accepts value = true
    · exact .inl ha
    · rw [he, if_neg ha] at hgetBase
      exact .inr hgetBase.symm
  · intro ha
    refine mtvec_ext hgetMode (hgetBase.trans ?_)
    split_ifs with hb
    · rfl
    · exact ha.resolve_left hb

theorem registers_mtvec : CSRF.registers (ICSR.id .mtvec) = some .mtvec := by decide

theorem CSRF.write_mtvec {c : CSRF} (hpriv : c.privillege = privillegeMachine)
    (value : RV64UDWord) : (c.write (ICSR.id .mtvec) value).2 =
      c.setRaw .mtvec ((ICSR.fields .mtvec).filtered value c.mtvec) := by
  have hfit : c.fitPrivillege (ICSR.id .mtvec) = true := by
    rw [fitPrivillege, hpriv]
    decide
  rw [write, update_granted registers_mtvec hfit (by decide)]
  rfl

end Besm.Exec

namespace Besm.Sim

open Besm.Exec Besm.Mem Besm.Util

def handlerAddress (mtvec : RV64UDWord) (id : ExceptionId) : RV64Ptr :=
  let base := mtvec &&& ~~~3
  if mtvec.toNat % 4 = 1 then base + 4 * id.code else base

theorem base_mul_four (mtvec : RV64UDWord) : MTVec.base.get mtvec * 4 = mtvec &&& ~~~3 := by
  have hmask : bitMask 64 62 2 = ~~~3 := by decide
  refine (BitVec.shiftLeft_eq_mul_twoPow (MTVec.base.get mtvec) 2).symm.trans ?_
  rw [(mtvec_get mtvec).2, extractBits_shiftLeft, hmask]

theorem trapVector_eq (c : CSRF) (id : ExceptionId) :
    trapVector c id = handlerAddress c.mtvec id := by
  have hmode : MTVec.mode.get c.mtvec = MTVec.vectoredMode ↔ c.mtvec.toNat % 4 = 1 := by
    rw [← BitVec.toNat_inj, (mtvec_toNat _).1]
    rfl
  unfold trapVector handlerAddress
  dsimp only
  rw [← base_mul_four]
  simp only [hmode]
  split_ifs
  · rw [BitVec.mul_comm, BitVec.mul_add, BitVec.mul_comm]
  · rfl

namespace Hart

variable {M : Type} [Memory M]

/-- A write to `mtvec` is read back, and moves the handlers until the next one. -/
structure TakesEffect (h : Hart M) (value : RV64UDWord) : Prop where
  read : (h.csrf.write (ICSR.id .mtvec) value).2.read (ICSR.id .mtvec) = some value
  vector : ∀ (h' : Hart M) (id : ExceptionId),
    h'.csrf.mtvec = (h.csrf.write (ICSR.id .mtvec) value).2.mtvec →
      (h'.raiseException id).2.pc = handlerAddress value id

variable {h : Hart M}

/-- A write takes effect exactly if its base is a multiple of sixteen bytes, or
the register has that base already. -/
theorem takesEffect_iff {value : RV64UDWord} (hpriv : h.csrf.privillege = privillegeMachine)
    (hmode : value.toNat % 4 < 2) : h.TakesEffect value ↔
      value.toNat % 16 < 4 ∨ value >>> 2 = h.csrf.mtvec >>> 2 := by
  rw [← mtvec_filtered_iff h.csrf.mtvec hmode]
  have hw := CSRF.write_mtvec hpriv value
  have hfit : (h.csrf.write (ICSR.id .mtvec) value).2.fitPrivillege (ICSR.id .mtvec) = true := by
    rw [hw, CSRF.fitPrivillege, CSRF.setRaw, hpriv]
    decide
  have hread := CSRF.read_granted registers_mtvec hfit
  have hraw : (h.csrf.write (ICSR.id .mtvec) value).2.mtvec =
      (ICSR.fields .mtvec).filtered value h.csrf.mtvec := by
    rw [hw]
    rfl
  constructor
  · intro ht
    have hsome := hread.symm.trans ht.read
    exact hraw.symm.trans (Option.some.inj hsome)
  · intro he
    refine ⟨hread.trans (congrArg some (hraw.trans he)), fun h' id hm => ?_⟩
    rw [pc_raiseException, trapVector_eq, hm, hraw, he]

theorem takesEffect_sixteen :
    (Hart.create (fun _ => 0) (FlatMemory.image [])).TakesEffect 0x11 :=
  (takesEffect_iff rfl (by decide)).mpr (.inl (by decide))

/-- A base of four bytes is dropped, and traps still go to zero. -/
theorem takesEffect_four :
    let h : Hart FlatMemory := Hart.create (fun _ => 0) (FlatMemory.image [])
    let c := (h.csrf.write (ICSR.id .mtvec) 4).2
    h.csrf.privillege = privillegeMachine ∧ c.read (ICSR.id .mtvec) = some 0 ∧
      (Hart.raiseException { h with csrf := c } .illegalInstr).2.pc = 0 ∧
      handlerAddress 4 .illegalInstr = 4 ∧ ¬h.TakesEffect 4 := by
  intro h c
  have hread : c.read (ICSR.id .mtvec) = some 0 := by decide +kernel
  refine ⟨rfl, hread, ?_, by decide, fun ht => ?_⟩
  · rw [pc_raiseException]
    decide +kernel
  · have hsome := hread.symm.trans ht.read
    cases hsome

end Hart

end Besm.Sim
