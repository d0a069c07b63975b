import Besm.Memory.Flat
import Besm.Sim.Isolation

namespace Besm.Exec

def CSRF.Legal (c : CSRF) : Prop :=
  c.privillege = privillegeUser ∨ c.privillege = privillegeSupervisor ∨
    c.privillege = privillegeMachine

end Besm.Exec

namespace Besm.Sim

open Besm.Exec Besm.Mem Besm.Util Besm.Lib.Transition

variable {M : Type}

/-- The level that MRET restores is held in two bits, one value of which is no level. -/
theorem legal_mretCSRF (c : CSRF) : (mretCSRF c).Legal ↔ MStatus.mpp.get c.mstatus ≠ 2 := by
  have hlt : (MStatus.mpp.get c.mstatus).toNat < 2 ^ 2 := by
    rw [(mstatus_mpp 0 _).1]
    exact toNat_extractBits_lt 2 11 c.mstatus
  have hpriv : (mretCSRF c).privillege = MStatus.mpp.get c.mstatus := rfl
  rw [CSRF.Legal, hpriv]
  generalize MStatus.mpp.get c.mstatus = level at hlt
  simp only [privillegeUser, privillegeSupervisor, privillegeMachine, BitVec.toNat_eq, Ne]
  change level.toNat = 0 ∨ level.toNat = 1 ∨ level.toNat = 3 ↔ ¬level.toNat = 2
  omega

/-- The default branch of the handler of ECALL is for an illegal level. -/
theorem execECALL_terminate_iff (i : Instruction) (s : Arch M) :
    execECALL i s ≠ .terminate ↔ s.csrf.Legal := by
  unfold execECALL CSRF.Legal
  split_ifs with hu hs hm
  · exact iff_of_true nofun (.inl hu)
  · exact iff_of_true nofun (.inr (.inl hs))
  · exact iff_of_true nofun (.inr (.inr hm))
  · refine iff_of_false (fun h => h rfl) ?_
    rintro (h | h | h)
    · exact hu h
    · exact hs h
    · exact hm h

theorem legal_of_advances [Memory M] {i : Instruction} {s s' : Arch M} (h : Advances i s s')
    (hlegal : s.csrf.Legal)
    (hmret : i.operation = .mret → s.csrf.privillege = privillegeMachine →
      MStatus.mpp.get s.csrf.mstatus ≠ 2) : s'.csrf.Legal := by
  cases h with
  | csrWrite f hf reg =>
    have hp := CSRF.update_privillege s.csrf i.immidiate f
    change (s.csrf.update i.immidiate f).2.Legal
    rw [CSRF.Legal, hp]
    exact hlegal
  | mret hpriv hop => exact (legal_mretCSRF s.csrf).mpr (hmret hop hpriv)
  | _ => exact hlegal

namespace Hart

variable [Memory M] {h h' : Hart M}

/-- If the instruction about to be executed is an MRET in machine mode, then
the level it restores is not the reserved one. -/
def RestoresLegal (h : Hart M) : Prop :=
  ∀ i, h.current = some i → i.operation = .mret → h.csrf.privillege = privillegeMachine →
    MStatus.mpp.get h.csrf.mstatus ≠ 2

theorem legal_of_moves (hm : Moves h h') (hlegal : h.csrf.Legal) (hr : h.RestoresLegal) :
    h'.csrf.Legal := by
  cases hm with
  | fetch => exact (csrf_fetchBB h).symm ▸ hlegal
  | next hcur hop he => exact legal_of_advances (advances_of_effect hop he) hlegal (hr _ hcur)
  | ret hcur hop he =>
    obtain ⟨rfl, -⟩ := ret_of_effect he
    exact hlegal
  | throw hcur hop he =>
    have hc := (throw_of_effect he).2
    change CSRF.Legal _
    exact hc.symm ▸ hlegal
  | raise hcur hop he => exact .inr (.inr (by rw [csrf_raiseException]; rfl))
  | resume hcur hop he hok hres =>
    obtain ⟨-, -, -, hc, -⟩ := resume_running hres
    exact .inr (.inr (by rw [hc, csrf_raiseException]; rfl))

def KeepsLegal (p : Hart M × Hart M) : Prop := p.1.step.hart? = some p.2 → p.1.RestoresLegal

theorem effect_mret {i : Instruction} {s : Arch M} (hop : i.operation = .mret)
    (hpriv : s.csrf.privillege = privillegeMachine) :
    effect i s = .next (({ s with csrf := mretCSRF s.csrf } : Arch M).setPC
      (MEPC.value.get s.csrf.mepc)) := by
  unfold effect
  rw [hop]
  exact if_neg (not_not.mpr hpriv)

theorem legal_of_mret {i : Instruction} (hcur : h.current = some i) (hop : i.operation = .mret)
    (hpriv : h.csrf.privillege = privillegeMachine) (hstep : h.step.hart? = some h') :
    h'.csrf.Legal ↔ MStatus.mpp.get h.csrf.mstatus ≠ 2 := by
  have hne : i.operation ≠ .bbEnd := by
    rw [hop]
    decide
  rw [step_instr hcur hne, effect_mret hop hpriv] at hstep
  obtain ⟨p, j, -, -, rfl⟩ := execNextInstr_running (execNextInstr_hart? hstep)
  exact legal_mretCSRF h.csrf

theorem legal_next_iff (hlegal : h.csrf.Legal) (hn : h.Next h') :
    h'.csrf.Legal ↔ KeepsLegal (h, h') := by
  constructor
  · exact fun hlegal' hstep i hcur hop hpriv => (legal_of_mret hcur hop hpriv hstep).mp hlegal'
  · intro hk
    by_cases hstep : h.step.hart? = some h'
    · exact legal_of_moves (moves_of_step hstep) hlegal (hk hstep)
    · have hrun := hn.resolve_left hstep
      rw [run, hart?_execBBEND] at hrun
      exact Option.some.inj hrun ▸ (csrf_fetchBB h).symm ▸ hlegal

/-- The privilege is legal in every state of a run, and ECALL never ends the
process there, exactly if no MRET in machine mode finds the reserved level in
the field it restores from. -/
theorem privillege_legal_iff {h₀ : Hart M} {ls : List (Hart M × Hart M)} (hinit : Initial h₀)
    (hrun : Run Joins h₀ ls h) :
    (∀ p ∈ ls, p.2.csrf.Legal ∧ ∀ i, execECALL i p.2.toArch ≠ .terminate) ↔
      ∀ p ∈ ls, KeepsLegal p := by
  have hlegal : h₀.csrf.Legal := by
    obtain ⟨garbage, mem, rfl⟩ := hinit
    exact .inr (.inr rfl)
  have hiff := (hrun.pairs_iff (I := fun h => h.csrf.Legal) (C := KeepsLegal) (by
    rintro s ls t ⟨-⟩
    rfl) (by
    rintro s t hs ⟨hn⟩
    exact legal_next_iff hs hn) hlegal).1
  rw [← hiff]
  refine ⟨fun hall p hp => (hall p hp).1, fun hall p hp => ⟨hall p hp, fun i => ?_⟩⟩
  exact (execECALL_terminate_iff i p.2.toArch).mpr (hall p hp)

/-- A guest that writes `mstatus`, returns to user mode, traps there and returns again. -/
theorem privillege_legal_returns :
    ∃ h : Hart FlatMemory, (Hart.create (fun _ => 0) (FlatMemory.image
        [0x30585073, 0x30005073, 0x30200073, 0x00000013, 0x00000013, 0x30200073])).runFor 6 =
          some h ∧
      h.csrf.privillege = privillegeUser ∧ h.csrf.mcause = 2 ∧
      h.csrf.Legal ∧ ∀ i, execECALL i h.toArch ≠ .terminate := by
  let h₀ := Hart.create (fun _ => 0) (FlatMemory.image
    [0x30585073, 0x30005073, 0x30200073, 0x00000013, 0x00000013, 0x30200073])
  have hsome : (h₀.runFor 6).isSome = true := by decide +kernel
  obtain ⟨h, hr⟩ := Option.isSome_iff_exists.mp hsome
  have hmret : ∀ p ∈ h₀.joinsFor 6, ∀ i ∈ p.1.current, i.operation = .mret →
      p.1.csrf.privillege = privillegeMachine → MStatus.mpp.get p.1.csrf.mstatus ≠ 2 := by
    decide +kernel
  have hrun := runs_joinsFor hr
  have hlast : ∃ g, (g, h) ∈ h₀.joinsFor 6 := by
    obtain ⟨g, hg, -⟩ := Option.bind_eq_some_iff.mp hr
    refine ⟨g, ?_⟩
    rw [joinsFor, hg, hr]
    exact List.mem_append_right _ (List.mem_singleton.mpr rfl)
  obtain ⟨g, hg⟩ := hlast
  refine ⟨h, hr, of_runFor (f := fun h => h.csrf.privillege) hr (by decide +kernel),
    of_runFor (f := fun h => h.csrf.mcause) hr (by decide +kernel), ?_⟩
  exact (privillege_legal_iff ⟨_, _, rfl⟩ hrun).mpr (fun p hp _ => hmret p hp) (g, h) hg

/-- A guest that returns to the reserved level, and ends the process by an ECALL there. -/
theorem privillege_reserved :
    ∃ h : Hart FlatMemory,
      (Hart.create (fun _ => 0) (FlatMemory.image
        [0x00009A63, 0x00100093, 0x00C09093, 0x30009073, 0x30200073, 0x00000073])).runFor 9 = some h ∧
      Reachable h ∧ h.csrf.privillege = 2 ∧ ¬h.csrf.Legal ∧ h.step = .terminated := by
  let h₀ := Hart.create (fun _ => 0) (FlatMemory.image
    [0x00009A63, 0x00100093, 0x00C09093, 0x30009073, 0x30200073, 0x00000073])
  have hsome : (h₀.runFor 9).isSome = true := by decide +kernel
  obtain ⟨h, hr⟩ := Option.isSome_iff_exists.mp hsome
  have hpriv : h.csrf.privillege = 2 :=
    of_runFor (f := fun h => h.csrf.privillege) hr (by decide +kernel)
  have hcur : h.current = some ⟨0, 0, 0, 0, .ecall⟩ :=
    of_runFor (f := fun h => h.current) hr (by decide +kernel)
  have hillegal : ¬h.csrf.Legal := by
    rw [CSRF.Legal, hpriv]
    decide
  refine ⟨h, hr, reachable_runFor ⟨_, _, rfl⟩ hr, hpriv, hillegal, ?_⟩
  have he : execECALL ⟨0, 0, 0, 0, .ecall⟩ h.toArch = .terminate :=
    not_not.mp ((execECALL_terminate_iff _ _).not.mpr hillegal)
  rw [step_instr hcur (by decide)]
  change h.apply (execECALL ⟨0, 0, 0, 0, .ecall⟩ h.toArch) = _
  rw [he]
  rfl

end Hart

end Besm.Sim
