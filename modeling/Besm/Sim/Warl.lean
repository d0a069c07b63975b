import Besm.Sim.Alignment
import Besm.Sim.Zicsr

namespace Besm.Exec

open Besm.Util

theorem CSRF.registers_mhartid {id : RV64UDWord} (h : registers id = some .mhartid) :
    registerReadOnly id = true := by
  by_cases h1 : id = ICSR.id .mhartid
  · rw [h1]
    decide
  · rw [registers, if_neg h1] at h
    split_ifs at h <;> cases h

structure CSRF.Warl (c : CSRF) : Prop where
  valid : ∀ reg : ICSR, reg.fields.Valid (c.raw reg)
  clear : ∀ reg : ICSR, reg.fields.Clear (c.raw reg)
  mhartid : c.mhartid = 0

structure CSRF.LegalValues (c : CSRF) : Prop where
  mepc : c.mepc.toNat % 4 = 0
  mode : MTVec.mode.get c.mtvec = 0 ∨ MTVec.mode.get c.mtvec = 1
  base : MTVec.baseValidator (MTVec.base.get c.mtvec) = true
  mhartid : c.mhartid = 0
  mstatus : c.mstatus &&& ~~~(mstatusSie ||| mstatusMie ||| mstatusSpie ||| mstatusMpie |||
    mstatusSpp ||| mstatusMpp) = 0

theorem CSRStructure.valid_of_unchecked {fields : CSRStructure} (h : ∀ f ∈ fields, f.spec ≠ .warl)
    (raw : RV64UDWord) : fields.Valid raw := fun f hf hspec => absurd hspec (h f hf)

theorem CSRStructure.clear_zero (fields : CSRStructure) : fields.Clear 0 := fun i _ => by simp

theorem mepc_valid (raw : RV64UDWord) :
    (ICSR.fields .mepc).Valid raw ↔ MEPC.valueValidator raw = true := by
  have hget : MEPC.value.val (MEPC.value.get raw) = MEPC.valueValidator raw := by
    rw [mepc_get]
    rfl
  constructor
  · intro h
    rw [← hget]
    exact h MEPC.value (List.mem_singleton.mpr rfl) rfl
  · intro h f hf hspec
    obtain rfl := List.mem_singleton.mp hf
    exact hget.trans h

theorem mtvec_mem : MTVec.mode ∈ ICSR.fields .mtvec ∧ MTVec.base ∈ ICSR.fields .mtvec := by
  simp [ICSR.fields, MTVec.fields]

namespace CSRF.Warl

variable {c : CSRF}

theorem raw_create (reg : ICSR) : CSRF.create.raw reg = 0 := by
  cases reg <;> decide +kernel

theorem create : CSRF.create.Warl where
  valid reg := by
    rw [raw_create]
    unfold CSRStructure.Valid
    cases reg <;> decide +kernel
  clear reg := by
    rw [raw_create]
    exact CSRStructure.clear_zero _
  mhartid := raw_create .mhartid

theorem update (h : c.Warl) (id : RV64UDWord) (f : RV64UDWord → RV64UDWord) :
    (c.update id f).2.Warl := by
  by_cases hno : c.fitPrivillege id = false ∨ registerReadOnly id = true ∨ registers id = none
  · rw [update_denied hno]
    exact h
  · simp only [not_or, Bool.not_eq_false, Bool.not_eq_true] at hno
    obtain ⟨hfit, hro, hsome⟩ := hno
    obtain ⟨reg, hreg⟩ := Option.ne_none_iff_exists'.mp hsome
    have hne : reg ≠ .mhartid := by
      rintro rfl
      rw [registers_mhartid hreg] at hro
      cases hro
    rw [update_granted hreg hfit hro]
    refine ⟨fun reg' => ?_, fun reg' => ?_, ?_⟩
    · rw [raw_setRaw]
      split_ifs with he
      · subst he
        exact (h.valid _).filtered (ICSR.fields_apart _) _
      · exact h.valid reg'
    · rw [raw_setRaw]
      split_ifs with he
      · subst he
        exact (h.clear _).filtered _
      · exact h.clear reg'
    · have hraw := raw_setRaw c reg .mhartid
        (reg.fields.filtered (f (c.raw reg)) (c.raw reg))
      rw [if_neg hne.symm] at hraw
      exact hraw.trans h.mhartid

theorem mstatus (h : c.Warl) : c.mstatus &&& ~~~(mstatusSie ||| mstatusMie ||| mstatusSpie |||
    mstatusMpie ||| mstatusSpp ||| mstatusMpp) = 0 := by
  apply BitVec.eq_of_getLsbD_eq
  intro i hi
  rw [BitVec.getLsbD_and, BitVec.getLsbD_not, decide_eq_true hi, Bool.true_and]
  by_cases hm : (mstatusSie ||| mstatusMie ||| mstatusSpie ||| mstatusMpie ||| mstatusSpp |||
    mstatusMpp).getLsbD i = true
  · rw [hm, Bool.not_true, Bool.and_false]
    exact BitVec.getLsbD_zero.symm
  · have hclear : c.mstatus.getLsbD i = false := by
      refine h.clear .mstatus i fun f hf => ?_
      simp only [BitVec.getLsbD_or, Bool.or_eq_true, not_or, Bool.not_eq_true] at hm
      obtain ⟨⟨⟨⟨⟨hsie, hmie⟩, hspie⟩, hmpie⟩, hspp⟩, hmpp⟩ := hm
      simp only [ICSR.fields, MStatus.fields, List.mem_cons, List.not_mem_nil, or_false] at hf
      obtain rfl | rfl | rfl | rfl | rfl | rfl := hf
      · exact hsie
      · exact hmie
      · exact hspie
      · exact hmpie
      · exact hspp
      · exact hmpp
    rw [hclear, Bool.false_and]
    exact BitVec.getLsbD_zero.symm

theorem legalValues (h : c.Warl) : c.LegalValues where
  mepc := (valueValidator_iff _).mp ((mepc_valid _).mp (h.valid .mepc))
  mode := by
    have hmode : MTVec.modeValidator (MTVec.mode.get c.mtvec) = true :=
      h.valid .mtvec MTVec.mode mtvec_mem.1 rfl
    rw [MTVec.modeValidator, decide_eq_true_iff, BitVec.le_def] at hmode
    rw [← BitVec.toNat_inj, ← BitVec.toNat_inj]
    change (MTVec.mode.get c.mtvec).toNat ≤ 1 at hmode
    change (MTVec.mode.get c.mtvec).toNat = 0 ∨ (MTVec.mode.get c.mtvec).toNat = 1
    omega
  base := h.valid .mtvec MTVec.base mtvec_mem.2 rfl
  mhartid := h.mhartid
  mstatus := h.mstatus

end CSRF.Warl

end Besm.Exec

namespace Besm.Sim

open Besm.Exec Besm.Mem Besm.Lib.Transition

theorem raw_trapCSRF_mstatus (c : CSRF) (id : ExceptionId) (pc : RV64Ptr) :
    (trapCSRF c id pc).raw .mstatus = (MStatus.mpp.set c.privillege (MStatus.mie.set 0
      (MStatus.mpie.set (MStatus.mie.get c.mstatus) (c.raw .mstatus)).2).2).2 := by
  unfold trapCSRF CSRF.raw
  dsimp only

theorem raw_trapCSRF_mcause (c : CSRF) (id : ExceptionId) (pc : RV64Ptr) :
    (trapCSRF c id pc).raw .mcause =
      (MCause.exceptionCode.set id.code (MCause.interrupt.set 0 (c.raw .mcause)).2).2 := by
  unfold trapCSRF CSRF.raw
  dsimp only

theorem raw_mretCSRF_mstatus (c : CSRF) :
    (mretCSRF c).raw .mstatus = (MStatus.mpp.set privillegeUser (MStatus.mpie.set 1
      (MStatus.mie.set (MStatus.mpie.get c.mstatus) (c.raw .mstatus)).2).2).2 := by
  unfold mretCSRF CSRF.raw
  dsimp only

theorem mstatus_unchecked : ∀ f ∈ ICSR.fields .mstatus, f.spec ≠ .warl := by decide

theorem mcause_unchecked : ∀ f ∈ ICSR.fields .mcause, f.spec ≠ .warl := by decide

theorem mstatus_mem : MStatus.mie ∈ ICSR.fields .mstatus ∧ MStatus.mpie ∈ ICSR.fields .mstatus ∧
    MStatus.mpp ∈ ICSR.fields .mstatus := by
  simp [ICSR.fields, MStatus.fields]

theorem mcause_mem : MCause.interrupt ∈ ICSR.fields .mcause ∧
    MCause.exceptionCode ∈ ICSR.fields .mcause := by
  simp [ICSR.fields, MCause.fields]

theorem warl_trapCSRF {c : CSRF} (h : c.Warl) (id : ExceptionId) (pc : RV64Ptr) :
    (trapCSRF c id pc).Warl where
  valid reg := by
    cases reg with
    | mhartid => exact h.valid .mhartid
    | mtvec => exact h.valid .mtvec
    | mstatus => exact CSRStructure.valid_of_unchecked mstatus_unchecked _
    | mcause => exact CSRStructure.valid_of_unchecked mcause_unchecked _
    | mepc =>
      have hold := (mepc_valid c.mepc).mp (h.valid .mepc)
      refine (mepc_valid _).mpr ?_
      change MEPC.valueValidator (trapCSRF c id pc).mepc = true
      rw [mepc_trapCSRF]
      split_ifs with hv
      · exact hv
      · exact hold
  clear reg := by
    cases reg with
    | mhartid => exact h.clear .mhartid
    | mtvec => exact h.clear .mtvec
    | mepc => exact (h.clear .mepc).set (List.mem_singleton.mpr rfl) pc
    | mstatus =>
      obtain ⟨hmie, hmpie, hmpp⟩ := mstatus_mem
      rw [raw_trapCSRF_mstatus]
      exact (((h.clear .mstatus).set hmpie _).set hmie _).set hmpp _
    | mcause =>
      obtain ⟨hinterrupt, hcode⟩ := mcause_mem
      rw [raw_trapCSRF_mcause]
      exact ((h.clear .mcause).set hinterrupt _).set hcode _
  mhartid := h.mhartid

theorem warl_mretCSRF {c : CSRF} (h : c.Warl) : (mretCSRF c).Warl where
  valid reg := by
    cases reg with
    | mstatus => exact CSRStructure.valid_of_unchecked mstatus_unchecked _
    | mhartid => exact h.valid .mhartid
    | mepc => exact h.valid .mepc
    | mtvec => exact h.valid .mtvec
    | mcause => exact h.valid .mcause
  clear reg := by
    cases reg with
    | mstatus =>
      obtain ⟨hmie, hmpie, hmpp⟩ := mstatus_mem
      rw [raw_mretCSRF_mstatus]
      exact (((h.clear .mstatus).set hmie _).set hmpie _).set hmpp _
    | mhartid => exact h.clear .mhartid
    | mepc => exact h.clear .mepc
    | mtvec => exact h.clear .mtvec
    | mcause => exact h.clear .mcause
  mhartid := h.mhartid

variable {M : Type} [Memory M]

theorem warl_of_advances {i : Instruction} {s s' : Arch M} (ha : Advances i s s')
    (h : s.csrf.Warl) : s'.csrf.Warl := by
  cases ha with
  | csrWrite f => exact h.update i.immidiate f
  | mret => exact warl_mretCSRF h
  | _ => exact h

namespace Hart

variable {h h' : Hart M}

theorem warl_of_moves (hm : Moves h h') (hw : h.csrf.Warl) : h'.csrf.Warl := by
  cases hm with
  | fetch => exact (csrf_fetchBB h).symm ▸ hw
  | next hcur hop he => exact warl_of_advances (advances_of_effect hop he) hw
  | ret hcur hop he =>
    obtain ⟨rfl, -⟩ := ret_of_effect he
    exact hw
  | throw hcur hop he =>
    exact (throw_of_effect he).2.symm ▸ hw
  | raise hcur hop he => exact (csrf_raiseException h _).symm ▸ warl_trapCSRF hw _ _
  | resume hcur hop he hok hres =>
    obtain ⟨-, -, -, hc, -⟩ := resume_running hres
    exact hc.symm ▸ (csrf_raiseException h _).symm ▸ warl_trapCSRF hw _ _

theorem warl_reachable (hr : Reachable h) : h.csrf.Warl := by
  refine hr.invariant (fun s hs => ?_) fun s t hs hn => warl_of_moves (moves_of_next hn) hs
  obtain ⟨garbage, mem, rfl⟩ := hs
  exact .create

/-- No run leaves an illegal value in a register, or leads off the words by a trap or MRET. -/
theorem warl_legal (hr : Reachable h) : h.csrf.LegalValues ∧
    (∀ id, (trapVector h.csrf id).toNat % 4 = 0) ∧ (MEPC.value.get h.csrf.mepc).toNat % 4 = 0 := by
  have hlegal := (warl_reachable hr).legalValues
  refine ⟨hlegal, trapVector_mod_four h.csrf, ?_⟩
  rw [mepc_get]
  exact hlegal.mepc

theorem warl_legal_ones :
    ∃ h : Hart FlatMemory,
      (Hart.create (fun _ => 0)
        (FlatMemory.image [0xFFF00093, 0x30509073, 0x30009073])).runFor 3 = some h ∧
      h.csrf.mstatus = 0x19AA ∧ h.csrf.LegalValues := by
  let h₀ := Hart.create (fun _ => 0) (FlatMemory.image [0xFFF00093, 0x30509073, 0x30009073])
  have hsome : (h₀.runFor 3).isSome = true := by decide +kernel
  obtain ⟨h, hr⟩ := Option.isSome_iff_exists.mp hsome
  exact ⟨h, hr, of_runFor (f := fun h => h.csrf.mstatus) hr (by decide +kernel),
    (warl_legal (reachable_runFor ⟨_, _, rfl⟩ hr)).1⟩

end Hart

end Besm.Sim
