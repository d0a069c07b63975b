import Besm.Sim.Accesses
import Besm.Sim.Privillege
import Besm.Sim.Warl

namespace Besm.Exec

open Besm.Util

/-- The fields of `mstatus` that no trap of this hart uses. -/
theorem mstatus_unused {raw raw' : RV64UDWord}
    (h : ∀ k, k ≠ 3 → k ≠ 7 → k ≠ 11 → k ≠ 12 → raw.getLsbD k = raw'.getLsbD k) :
    MStatus.sie.get raw = MStatus.sie.get raw' ∧ MStatus.spie.get raw = MStatus.spie.get raw' ∧
      MStatus.spp.get raw = MStatus.spp.get raw' := by
  have hget : ∀ (f : CSRField) (k : Nat), f ∈ ICSR.fields .mstatus → f.mask = bitMask 64 1 k →
      (k ≠ 3 ∧ k ≠ 7 ∧ k ≠ 11 ∧ k ≠ 12) → f.get raw = f.get raw' := by
    intro f k hf hmask hk
    refine f.get_congr fun i hi => ?_
    rw [hmask, getLsbD_bitMask, decide_eq_true_iff] at hi
    obtain rfl : i = k := by omega
    exact h i hk.1 hk.2.1 hk.2.2.1 hk.2.2.2
  exact ⟨hget _ 1 (by simp [ICSR.fields, MStatus.fields]) (by decide) (by decide),
    hget _ 5 (by simp [ICSR.fields, MStatus.fields]) (by decide) (by decide),
    hget _ 8 (by simp [ICSR.fields, MStatus.fields]) (by decide) (by decide)⟩

theorem CSRF.Legal.toNat_lt {c : CSRF} (h : c.Legal) : c.privillege.toNat < 4 := by
  obtain h | h | h := h <;> rw [h] <;> decide

end Besm.Exec

namespace Besm.Sim

open Besm.Exec Besm.Mem Besm.Util

theorem mstatus_mretCSRF (c : CSRF) : (mretCSRF c).mstatus =
    changeBits 2 11 (changeBits 1 7 (changeBits 1 3 c.mstatus (extractBits 1 7 c.mstatus)) 1)
      privillegeUser := by
  unfold mretCSRF
  dsimp only
  rw [(mstatus_mpp _ _).2, (mstatus_mpie _ _).2, (mstatus_mie _ _).2, (mstatus_mpie 0 _).1]

structure TrapLeft (c c' : CSRF) : Prop where
  privillege : c'.privillege = MStatus.mpp.get c.mstatus
  mie : MStatus.mie.get c'.mstatus = MStatus.mpie.get c.mstatus
  mtvec : c'.mtvec = c.mtvec
  mhartid : c'.mhartid = c.mhartid
  others : ∀ i, i ≠ 3 → i ≠ 7 → i ≠ 11 → i ≠ 12 → c'.mstatus.getLsbD i = c.mstatus.getLsbD i

theorem trapLeft_mretCSRF (c : CSRF) : TrapLeft c (mretCSRF c) where
  privillege := rfl
  mie := by
    rw [mstatus_mretCSRF, (mstatus_mie 0 _).1, (mstatus_mpie 0 _).1,
      extractBits_changeBits_apart _ _ (by omega) (by omega),
      extractBits_changeBits_apart _ _ (by omega) (by omega), extractBits_changeBits _ _ (by omega),
      extractBits_of_lt _ (toNat_extractBits_lt _ _ _)]
  mtvec := rfl
  mhartid := rfl
  others := by
    intro i h3 h7 h11 h12
    rw [mstatus_mretCSRF]
    by_cases hi : i < 64
    · rw [getLsbD_changeBits _ _ _ _ _ hi, if_neg (by omega), getLsbD_changeBits _ _ _ _ _ hi,
        if_neg (by omega), getLsbD_changeBits _ _ _ _ _ hi, if_neg (by omega)]
    · rw [BitVec.getLsbD_of_ge _ _ (by omega), BitVec.getLsbD_of_ge _ _ (by omega)]

namespace Hart

variable {M : Type} [Memory M]

/-- The context of the trap of `id`, as the handler finds it. -/
structure ContextSaved (h : Hart M) (id : ExceptionId) (t : Hart M) : Prop where
  mepc : t.csrf.mepc = h.pc
  interrupt : MCause.interrupt.get t.csrf.mcause = 0
  exceptionCode : MCause.exceptionCode.get t.csrf.mcause = id.code
  mie : MStatus.mie.get t.csrf.mstatus = 0
  mpie : MStatus.mpie.get t.csrf.mstatus = MStatus.mie.get h.csrf.mstatus
  mpp : MStatus.mpp.get t.csrf.mstatus = h.csrf.privillege
  privillege : t.csrf.privillege = privillegeMachine
  mtvec : t.csrf.mtvec = h.csrf.mtvec
  mhartid : t.csrf.mhartid = h.csrf.mhartid

/-- The context of before the trap, after the MRET at `u` that leaves its handler. -/
structure ContextRestored (h u u' : Hart M) : Prop where
  pc : u'.pc = h.pc
  privillege : u'.csrf.privillege = h.csrf.privillege
  mie : MStatus.mie.get u'.csrf.mstatus = MStatus.mie.get h.csrf.mstatus
  sie : MStatus.sie.get u'.csrf.mstatus = MStatus.sie.get h.csrf.mstatus
  spie : MStatus.spie.get u'.csrf.mstatus = MStatus.spie.get h.csrf.mstatus
  spp : MStatus.spp.get u'.csrf.mstatus = MStatus.spp.get h.csrf.mstatus
  mtvec : u'.csrf.mtvec = u.csrf.mtvec
  mhartid : u'.csrf.mhartid = u.csrf.mhartid

variable {h u : Hart M}

theorem contextSaved (hpc : h.pc.toNat % 4 = 0) (hp : h.csrf.Legal) (id : ExceptionId) :
    h.ContextSaved id (h.raiseException id).2 := by
  have ht := trapEntered_trapCSRF id h.pc hp.toNat_lt
  rw [← csrf_raiseException h id] at ht
  have hcode : id.code.toNat < 2 ^ 63 := by cases id <;> decide
  refine ⟨?_, ?_, ?_, ht.mie, ht.mpie, ht.mpp, ht.privillege, ht.mtvec, ht.mhartid⟩
  · rw [ht.mepc, if_pos ((valueValidator_iff _).mpr hpc)]
  · rw [(mcause_interrupt 0 _).1, ht.mcause]
    cases id <;> decide
  · rw [(mcause_exceptionCode 0 _).1, ht.mcause, extractBits_of_lt _ hcode]

theorem contextRestored (hpc : h.pc.toNat % 4 = 0) (hp : h.csrf.Legal) (id : ExceptionId)
    {i : Instruction} (hcur : u.current = some i) (hop : i.operation = .mret)
    (hpriv : u.csrf.privillege = privillegeMachine)
    (hmepc : u.csrf.mepc = (h.raiseException id).2.csrf.mepc)
    (hmstatus : u.csrf.mstatus = (h.raiseException id).2.csrf.mstatus) :
    ∃ u', u.step = .running u' ∧ h.ContextRestored u u' := by
  have hsaved := contextSaved hpc hp id
  have ht := trapEntered_trapCSRF id h.pc hp.toNat_lt
  rw [← csrf_raiseException h id] at ht
  have hl := trapLeft_mretCSRF u.csrf
  have hne : i.operation ≠ .bbEnd := by
    rw [hop]
    decide
  obtain ⟨u', hstep, hs⟩ := apply_next hcur
    (({ u.toArch with csrf := mretCSRF u.csrf } : Arch M).setPC (MEPC.value.get u.csrf.mepc))
  rw [← effect_mret hop hpriv, ← step_instr hcur hne] at hstep
  have hcsrf : u'.csrf = mretCSRF u.csrf := by
    rw [hs]
    rfl
  rw [← hcsrf] at hl
  have hbits : ∀ k, k ≠ 3 → k ≠ 7 → k ≠ 11 → k ≠ 12 →
      u'.csrf.mstatus.getLsbD k = h.csrf.mstatus.getLsbD k := by
    intro k h3 h7 h11 h12
    rw [hl.others k h3 h7 h11 h12, hmstatus, ht.others k h3 h7 h11 h12]
  obtain ⟨hsie, hspie, hspp⟩ := mstatus_unused hbits
  refine ⟨u', hstep, ?_, ?_, ?_, hsie, hspie, hspp, hl.mtvec, hl.mhartid⟩
  · rw [hs, Arch.pc_setPC, mepc_get, hmepc, hsaved.mepc]
  · rw [hl.privillege, hmstatus, hsaved.mpp]
  · rw [hl.mie, hmstatus, hsaved.mpie]

/-- Trap entry and MRET are inverse on the context that was interrupted. -/
theorem trap_return (hpc : h.pc.toNat % 4 = 0) (hp : h.csrf.Legal) (id : ExceptionId) :
    h.ContextSaved id (h.raiseException id).2 ∧
      ∀ (u : Hart M) i, u.current = some i → i.operation = .mret →
        u.csrf.privillege = privillegeMachine →
        u.csrf.mepc = (h.raiseException id).2.csrf.mepc →
        u.csrf.mstatus = (h.raiseException id).2.csrf.mstatus →
        ∃ u', u.step = .running u' ∧ h.ContextRestored u u' :=
  ⟨contextSaved hpc hp id, fun _ _ => contextRestored hpc hp id⟩

theorem trap_return_user :
    ∃ h u u' : Hart FlatMemory, h.csrf.privillege = privillegeUser ∧
      u.csrf.privillege = privillegeMachine ∧ u.step = .running u' ∧ h.ContextRestored u u' := by
  let h₀ := Hart.create (fun _ => 0) (FlatMemory.image [0x30200073])
  have hsome : (h₀.runFor 0).isSome = true := by decide +kernel
  obtain ⟨v, hr⟩ := Option.isSome_iff_exists.mp hsome
  have hcur : v.current = some ⟨0, 0, 0, 0x302, .mret⟩ :=
    of_runFor (f := fun h => h.current) hr (by decide +kernel)
  let h : Hart FlatMemory := { v with csrf := { v.csrf with privillege := privillegeUser } }
  let u : Hart FlatMemory := { v with csrf := (h.raiseException .ecallUmode).2.csrf }
  have hpc : h.pc = 0 := of_runFor (f := fun h => h.pc) hr (by decide +kernel)
  have hpriv : u.csrf.privillege = privillegeMachine := by
    change (h.raiseException .ecallUmode).2.csrf.privillege = _
    rw [csrf_raiseException]
    rfl
  obtain ⟨u', hstep, hres⟩ := (trap_return (h := h) (by rw [hpc]; rfl) (.inl rfl) .ecallUmode).2 u _
    hcur rfl hpriv rfl rfl
  exact ⟨h, u, u', rfl, hpriv, hstep, hres⟩

end Hart

end Besm.Sim
