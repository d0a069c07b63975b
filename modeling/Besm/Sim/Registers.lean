import Besm.Sim.Stack

namespace Besm.Exec.GPRF

variable {D : Set Register}

open Classical in
/-- What is left of the registers when all but the program counter and those of
a set are cleared. -/
noncomputable def restrict (D : Set Register) (g : GPRF) : GPRF :=
  ⟨fun r => if r = pc ∨ r ∈ D then g.registers r else 0⟩

theorem read_restrict (g : GPRF) {r : Register} (hr : r = x0 ∨ r = pc ∨ r ∈ D) :
    (g.restrict D).read r = g.read r := by
  unfold read
  split_ifs with h0
  · rfl
  · exact if_pos (hr.resolve_left h0)

theorem restrict_write_pc (g : GPRF) (v : RV64UDWord) :
    (g.write pc v).restrict D = (g.restrict D).write pc v := by
  unfold restrict write
  congr 1
  funext r
  dsimp only
  by_cases hr : r = pc
  · rw [if_pos (.inl hr), if_pos hr, if_pos hr]
  · rw [if_neg hr, if_neg hr]

theorem restrict_write {E : Set Register} (g : GPRF) (v : RV64UDWord) {rd : Register}
    (h : ∀ r ∈ E, r ∈ D ∨ r = rd) :
    ((g.restrict D).write rd v).restrict E = (g.write rd v).restrict E := by
  unfold restrict write
  congr 1
  funext r
  dsimp only
  split_ifs with hr hrd hD
  · rfl
  · rfl
  · obtain rfl | hE := hr
    · exact absurd (.inl rfl) hD
    · exact absurd (.inr ((h r hE).resolve_right hrd)) hD
  · rfl

theorem restrict_restrict {E : Set Register} (g : GPRF) (h : E ⊆ D) :
    (g.restrict D).restrict E = g.restrict E := by
  unfold restrict
  congr 1
  funext r
  dsimp only
  split_ifs with hr hD
  · rfl
  · exact absurd (hr.imp_right fun hE => h hE) hD
  · rfl

theorem restrict_create (garbage garbage' : Register → RV64UDWord) :
    (create garbage').restrict ∅ = (create garbage).restrict ∅ := by
  unfold restrict create
  congr 1
  funext r
  dsimp only
  split_ifs with hr h0
  · rfl
  · exact absurd hr (by simp [h0])
  · rfl

end Besm.Exec.GPRF

namespace Besm.Sim

open Besm.Exec Besm.Mem Besm.Lib.Transition

def sources (i : Instruction) : List Register :=
  match i.operation with
  | .jalr | .lb | .lh | .lw | .lbu | .lhu | .lwu | .ld | .addi | .slti | .sltiu | .xori | .ori
  | .andi | .slli | .srli | .srai | .addiw | .slliw | .srliw | .sraiw | .csrrw | .csrrs
  | .csrrc => [i.rs1]
  | .beq | .bne | .blt | .bge | .bltu | .bgeu | .sb | .sh | .sw | .sd | .add | .sub | .sll | .slt
  | .sltu | .xor | .srl | .sra | .or | .and | .addw | .subw | .sllw | .srlw | .sraw =>
    [i.rs1, i.rs2]
  | _ => []

theorem sources_subset (i : Instruction) : sources i ⊆ [i.rs1, i.rs2] := by
  unfold sources
  split <;> simp

def target (i : Instruction) : Option Register :=
  match i.operation with
  | .beq | .bne | .blt | .bge | .bltu | .bgeu | .sb | .sh | .sw | .sd | .fence | .fenceTso | .pause
  | .ecall | .ebreak | .sret | .mret | .invOp | .bbEnd => none
  | _ => some i.rd

variable {M : Type} {D E : Set Register}

namespace Arch

noncomputable def restrict (D : Set Register) (s : Arch M) : Arch M :=
  { s with gprf := s.gprf.restrict D }

theorem pc_restrict (s : Arch M) : (s.restrict D).pc = s.pc :=
  GPRF.read_restrict _ (.inr (.inl rfl))

theorem restrict_setPC (s : Arch M) (v : RV64Ptr) :
    (s.setPC v).restrict D = (s.restrict D).setPC v := by
  unfold restrict setPC
  rw [GPRF.restrict_write_pc]

theorem restrict_write (s : Arch M) (v : RV64UDWord) {rd : Register}
    (h : ∀ r ∈ E, r ∈ D ∨ r = rd) :
    ((s.restrict D).write rd v).restrict E = (s.write rd v).restrict E := by
  unfold restrict write
  dsimp only
  rw [GPRF.restrict_write _ _ h]

theorem restrict_restrict (s : Arch M) (h : E ⊆ D) :
    (s.restrict D).restrict E = s.restrict E := by
  unfold restrict
  dsimp only
  rw [GPRF.restrict_restrict _ h]

theorem restrict_nextPC (s : Arch M) : s.nextPC.restrict D = (s.restrict D).nextPC := by
  rw [nextPC, nextPC, restrict_setPC, pc_restrict]

theorem restrict_raiseException (s : Arch M) (id : ExceptionId) :
    (s.raiseException id).restrict D = (s.restrict D).raiseException id := by
  unfold raiseException
  rw [pc_restrict]
  unfold restrict
  dsimp only
  rw [GPRF.restrict_write_pc]

end Arch

theorem retire_restrict (s : Arch M) (v : RV64UDWord) {rd : Register}
    (h : ∀ r ∈ E, r ∈ D ∨ r = rd) :
    ((s.restrict D).retire rd v).map (Arch.restrict E) = (s.retire rd v).map (Arch.restrict E) := by
  unfold Arch.retire
  refine congrArg Effect.next ?_
  rw [Arch.restrict_nextPC, Arch.restrict_write s v h, Arch.restrict_nextPC]

theorem branch_restrict (s : Arch M) (i : Instruction) (taken : Bool) (h : E ⊆ D) :
    ((s.restrict D).branch i taken).map (Arch.restrict E) =
      (s.branch i taken).map (Arch.restrict E) := by
  cases taken with
  | false =>
    refine congrArg Effect.next ?_
    change (s.restrict D).nextPC.restrict E = s.nextPC.restrict E
    rw [Arch.restrict_nextPC, Arch.restrict_restrict s h, Arch.restrict_nextPC]
  | true =>
    refine congrArg Effect.next ?_
    change ((s.restrict D).setPC _).restrict E = (s.setPC _).restrict E
    rw [Arch.pc_restrict, Arch.restrict_setPC, Arch.restrict_restrict s h, Arch.restrict_setPC]

theorem csrStatus_restrict (s : Arch M) (i : Instruction) (status : Option RV64UDWord × CSRF)
    (h : ∀ r ∈ E, r ∈ D ∨ r = i.rd ∧ ∃ s', s.csrStatus i status = .next s') :
    ((s.restrict D).csrStatus i status).map (Arch.restrict E) =
      (s.csrStatus i status).map (Arch.restrict E) := by
  obtain ⟨_ | oldValue, c⟩ := status
  · have hsub : E ⊆ D := fun r hr => (h r hr).resolve_right fun ⟨_, _, he⟩ => nomatch he
    refine congrArg (Effect.raise .illegalInstr · .execNextInstr) ?_
    exact Arch.restrict_restrict { s with csrf := c } hsub
  · exact retire_restrict { s with csrf := c } oldValue fun r hr => (h r hr).imp_right And.left

def Call.reads : Call M → Set Register
  | .step h => {r | ∃ i, h.current = some i ∧ r ∈ sources i}
  | .run _ => ∅

noncomputable def Hart.restrict (D : Set Register) (h : Hart M) : Hart M :=
  h.withArch (h.toArch.restrict D)

noncomputable def Outcome.restrict (D : Set Register) : Outcome M → Outcome M
  | .running h => .running (h.restrict D)
  | .returned h => .returned (h.restrict D)
  | .thrown e h => .thrown e (h.restrict D)
  | .terminated => .terminated
  | .undefined => .undefined

noncomputable def Call.restrict (D : Set Register) : Call M → Call M
  | .step h => .step (h.restrict D)
  | .run h => .run (h.restrict D)

theorem Outcome.caller?_restrict (o : Outcome M) :
    (o.restrict D).caller? = o.caller?.map (Hart.restrict D) := by
  cases o <;> rfl

namespace Hart

variable (h : Hart M)

theorem restrict_restrict {h : Hart M} (hE : E ⊆ D) : (h.restrict D).restrict E = h.restrict E :=
  congrArg h.withArch (h.toArch.restrict_restrict hE)

theorem current_restrict : (h.restrict D).current = h.current := rfl

theorem execNextInstr_restrict : (h.restrict D).execNextInstr = h.execNextInstr.restrict D := by
  unfold execNextInstr
  rw [current_restrict, show (h.restrict D).currentInstr = h.currentInstr from rfl]
  obtain _ | p := h.currentInstr
  · rfl
  · obtain _ | i := h.current <;> rfl

theorem resume_restrict (r : Resume) : (h.restrict D).resume r = (h.resume r).restrict D := by
  cases r with
  | ret => rfl
  | execNextInstr => exact h.execNextInstr_restrict
  | jumpMepc =>
    unfold resume
    rw [← execNextInstr_restrict]
    refine congrArg execNextInstr (congrArg h.withArch ?_)
    exact (h.toArch.restrict_setPC _).symm

end Hart

variable [Memory M]

theorem load_restrict (s : Arch M) (i : Instruction) (w : Width)
    (extend : BitVec (8 * w.size) → RV64UDWord)
    (hsrc : (s.restrict D).read i.rs1 = s.read i.rs1)
    (h : ∀ r ∈ E, r ∈ D ∨ r = i.rd ∧ ∃ s', s.load i w extend = .next s') :
    ((s.restrict D).load i w extend).map (Arch.restrict E) =
      (s.load i w extend).map (Arch.restrict E) := by
  have haddr : (s.restrict D).address i = s.address i := congrArg (· + _) hsrc
  unfold Arch.load at h ⊢
  rw [haddr, show (s.restrict D).mem = s.mem from rfl]
  revert h
  obtain ⟨e | value, m⟩ := Memory.load s.mem w (s.address i) <;> intro h
  · have hsub : E ⊆ D := fun r hr => (h r hr).resolve_right fun ⟨_, _, he⟩ => nomatch he
    refine congrArg (Effect.throw e) ?_
    exact Arch.restrict_restrict { s with mem := m } hsub
  · exact retire_restrict { s with mem := m } (extend value) fun r hr => (h r hr).imp_right And.left

theorem store_restrict (s : Arch M) (i : Instruction) (w : Width)
    (hsrc : (s.restrict D).read i.rs1 = s.read i.rs1)
    (hsrc' : (s.restrict D).read i.rs2 = s.read i.rs2) (h : E ⊆ D) :
    ((s.restrict D).store i w).map (Arch.restrict E) = (s.store i w).map (Arch.restrict E) := by
  have haddr : (s.restrict D).address i = s.address i := congrArg (· + _) hsrc
  unfold Arch.store
  rw [haddr, hsrc', show (s.restrict D).mem = s.mem from rfl]
  obtain ⟨e | _, m⟩ := Memory.store s.mem w (s.address i) ((s.read i.rs2).setWidth (8 * w.size))
  · exact congrArg (Effect.throw e) (Arch.restrict_restrict { s with mem := m } h)
  · refine congrArg Effect.next ?_
    rw [Arch.restrict_nextPC, Arch.restrict_nextPC]
    exact congrArg Arch.nextPC (Arch.restrict_restrict { s with mem := m } h)

/-- The register that an instruction has written, if it goes on to the next one. -/
def writes (i : Instruction) (s : Arch M) : Set Register :=
  {r | target i = some r ∧ ∃ s', effect i s = .next s'}

/-- No handler depends on a register that is not one of its sources. -/
theorem effect_restrict (i : Instruction) (s : Arch M)
    (hsrc : ∀ r ∈ sources i, r = GPRF.x0 ∨ r ∈ D) (hE : E ⊆ D ∪ writes i s) :
    (effect i (s.restrict D)).map (Arch.restrict E) = (effect i s).map (Arch.restrict E) := by
  have hread : ∀ r ∈ sources i, (s.restrict D).read r = s.read r := fun r hr =>
    GPRF.read_restrict _ ((hsrc r hr).imp_right .inr)
  have hpc := s.pc_restrict (D := D)
  have hcsrf : (s.restrict D).csrf = s.csrf := rfl
  have hnone : target i = none → E ⊆ D := fun ht r hr =>
    (hE hr).resolve_right fun hw => nomatch ht.symm.trans hw.1
  have hsome : target i = some i.rd →
      ∀ r ∈ E, r ∈ D ∨ r = i.rd ∧ ∃ s', effect i s = .next s' := fun ht r hr =>
    (hE hr).imp_right fun hw => ⟨Option.some.inj (hw.1.symm.trans ht), hw.2⟩
  unfold sources at hread
  unfold target at hnone hsome
  unfold effect at hsome ⊢
  cases hop : i.operation <;> rw [hop] at hread hnone hsome <;>
    dsimp only [handlerArr] at hread hnone hsome ⊢
  case lb | lh | lw | lbu | lhu | lwu | ld =>
    exact load_restrict s i _ _ (hread _ (by simp)) (hsome rfl)
  case sb | sh | sw | sd =>
    exact store_restrict s i _ (hread _ (by simp)) (hread _ (by simp)) (hnone rfl)
  case beq | bne | blt | bge | bltu | bgeu =>
    have h1 := hread i.rs1 (by simp)
    have h2 := hread i.rs2 (by simp)
    simp only [execBEQ, execBNE, execBLT, execBGE, execBLTU, execBGEU, h1, h2]
    exact branch_restrict s i _ (hnone rfl)
  case add | sub | sll | slt | sltu | xor | srl | sra | or | and | addw | subw | sllw | srlw
  | sraw =>
    have h1 := hread i.rs1 (by simp)
    have h2 := hread i.rs2 (by simp)
    simp only [execADD, execSUB, execSLL, execSLT, execSLTU, execXOR, execSRL, execSRA, execOR,
      execAND, execADDW, execSUBW, execSLLW, execSRLW, execSRAW, h1, h2]
    exact retire_restrict s _ fun r hr => (hsome rfl r hr).imp_right And.left
  case addi | slti | sltiu | xori | ori | andi | slli | srli | srai | addiw | slliw | srliw
  | sraiw =>
    have h1 := hread i.rs1 (by simp)
    simp only [execADDI, execSLTI, execSLTIU, execXORI, execORI, execANDI, execSLLI, execSRLI,
      execSRAI, execADDIW, execSLLIW, execSRLIW, execSRAIW, h1]
    exact retire_restrict s _ fun r hr => (hsome rfl r hr).imp_right And.left
  case lui => exact retire_restrict s _ fun r hr => (hsome rfl r hr).imp_right And.left
  case auipc =>
    rw [execAUIPC, hpc]
    exact retire_restrict s _ fun r hr => (hsome rfl r hr).imp_right And.left
  case jal =>
    rw [execJAL, hpc]
    refine congrArg Effect.next ?_
    rw [Arch.restrict_setPC, Arch.restrict_write s _ fun r hr => (hsome rfl r hr).imp_right And.left,
      Arch.restrict_setPC]
  case jalr =>
    rw [execJALR, hpc, hread i.rs1 (by simp)]
    refine congrArg Effect.next ?_
    rw [Arch.restrict_setPC, Arch.restrict_write s _ fun r hr => (hsome rfl r hr).imp_right And.left,
      Arch.restrict_setPC]
  case csrrw =>
    rw [execCSRRW, hread i.rs1 (by simp)]
    exact csrStatus_restrict s i _ (hsome rfl)
  case csrrc =>
    rw [execCSRRC, hread i.rs1 (by simp)]
    exact csrStatus_restrict s i _ (hsome rfl)
  case csrrs =>
    unfold execCSRRS at hsome ⊢
    rw [hread i.rs1 (by simp)]
    split_ifs at hsome ⊢ <;> exact csrStatus_restrict s i _ (hsome rfl)
  case csrrwi | csrrsi | csrrci => exact csrStatus_restrict s i _ (hsome rfl)
  case fence | fenceTso =>
    refine congrArg Effect.next ?_
    rw [Arch.restrict_nextPC, Arch.restrict_restrict s (hnone rfl), Arch.restrict_nextPC]
  case ecall =>
    have hs := s.restrict_restrict (hnone rfl)
    unfold execECALL
    rw [hcsrf]
    split_ifs
    · exact congrArg (Effect.raise _ · _) hs
    · exact congrArg (Effect.raise _ · _) hs
    · exact congrArg (Effect.raise _ · _) hs
    · rfl
  case mret =>
    unfold execMRET
    rw [hcsrf]
    split_ifs
    · exact congrArg (Effect.raise _ · _) (s.restrict_restrict (hnone rfl))
    · refine congrArg Effect.next ?_
      rw [Arch.restrict_setPC, Arch.restrict_setPC]
      exact congrArg (Arch.setPC · _)
        (Arch.restrict_restrict { s with csrf := mretCSRF s.csrf } (hnone rfl))
  case sret => rfl
  case invOp | pause => exact congrArg (Effect.raise _ · _) (s.restrict_restrict (hnone rfl))
  case ebreak => exact congrArg Effect.ret (s.restrict_restrict (hnone rfl))
  case bbEnd => exact congrArg Effect.next (s.restrict_restrict (hnone rfl))

theorem writes_restrict {i : Instruction} {s : Arch M}
    (hsrc : ∀ r ∈ sources i, r = GPRF.x0 ∨ r ∈ D) : writes i (s.restrict D) = writes i s := by
  have he := effect_restrict (E := ∅) i s hsrc (Set.empty_subset _)
  refine Set.ext fun r => and_congr_right fun _ => ?_
  revert he
  generalize effect i (s.restrict D) = e
  generalize effect i s = e'
  intro he
  constructor
  · rintro ⟨t, rfl⟩
    cases e' with
    | next t' => exact ⟨t', rfl⟩
    | _ => cases he
  · rintro ⟨t, rfl⟩
    cases e with
    | next t' => exact ⟨t', rfl⟩
    | _ => cases he

def Call.writes : Call M → Set Register
  | .step h => {r | ∃ i, h.current = some i ∧ r ∈ Sim.writes i h.toArch}
  | .run _ => ∅

namespace Hart

variable (h : Hart M)

theorem fetchBB_restrict :
    (h.restrict D).fetchBB = (h.fetchBB.1, h.fetchBB.2.restrict D) := by
  have hpc : (h.restrict D).pc = h.pc := h.toArch.pc_restrict
  unfold fetchBB
  rw [hpc, show (h.restrict D).bbCache = h.bbCache from rfl,
    show (h.restrict D).mem = h.mem from rfl]
  obtain ⟨_ | _, index, cache⟩ := h.bbCache.lookup h.pc
  · dsimp only
    obtain ⟨_ | _, bb, mem⟩ := assembleBB (cache.bbs index) h.pc h.mem <;> rfl
  · rfl

theorem execBBEND_restrict : (h.restrict D).execBBEND = h.execBBEND.restrict D := by
  unfold execBBEND
  rw [fetchBB_restrict]
  obtain ⟨_ | _, t⟩ := h.fetchBB <;> rfl

theorem apply_restrict (e : Effect (Arch M)) :
    (h.restrict D).apply (e.map (Arch.restrict D)) = (h.apply e).restrict D := by
  cases e with
  | next s => exact (h.withArch s).execNextInstr_restrict
  | ret s => rfl
  | throw e s => rfl
  | terminate => rfl
  | raise id s r =>
    have hr : ((h.restrict D).withArch (s.restrict D)).raiseException id =
        (((h.withArch s).raiseException id).1, ((h.withArch s).raiseException id).2.restrict D) := by
      unfold raiseException
      rw [← fetchBB_restrict]
      refine congrArg fetchBB (congrArg h.withArch ?_)
      exact (s.restrict_raiseException id).symm
    simp only [Effect.map, apply, hr]
    obtain ⟨_ | _, t⟩ := (h.withArch s).raiseException id
    · rfl
    · exact t.resume_restrict r

theorem apply_withArch (s : Arch M) (e : Effect (Arch M)) : (h.withArch s).apply e = h.apply e := by
  cases e <;> rfl

theorem writes_of_current {i : Instruction} (hcur : h.current = some i) :
    (Call.step h).writes = Sim.writes i h.toArch := by
  refine Set.ext fun r => ⟨?_, fun hr => ⟨i, hcur, hr⟩⟩
  rintro ⟨j, hj, hr⟩
  cases hcur.symm.trans hj
  exact hr

theorem step_restrict (hsrc : (Call.step h).reads ⊆ insert GPRF.x0 D)
    (hE : E ⊆ D ∪ (Call.step h).writes) :
    (h.restrict D).step.restrict E = h.step.restrict E := by
  unfold step
  rw [current_restrict]
  cases hcur : h.current with
  | none => rfl
  | some i =>
    rw [writes_of_current h hcur] at hE
    dsimp only
    split_ifs with hop
    · have hsub : E ⊆ D := fun r hr => (hE hr).resolve_right fun ⟨ht, _⟩ => by
        rw [target, hop] at ht
        cases ht
      rw [execBBEND_restrict, ← execBBEND_restrict, ← execBBEND_restrict, ← execBBEND_restrict,
        restrict_restrict hsub]
    · have he := effect_restrict i h.toArch (fun r hr => hsrc ⟨i, hcur, hr⟩) hE
      rw [← apply_restrict, ← apply_restrict]
      change ((h.restrict D).restrict E).apply ((effect i (h.toArch.restrict D)).map _) = _
      rw [he]
      exact (h.apply_withArch _ _).trans (h.apply_withArch _ _).symm

theorem writes_step_restrict (hsrc : (Call.step h).reads ⊆ insert GPRF.x0 D) :
    (Call.step (h.restrict D)).writes = (Call.step h).writes := by
  refine Set.ext fun r => exists_congr fun i => and_congr_right fun hcur => ?_
  exact Set.ext_iff.mp (writes_restrict fun r hr => hsrc ⟨i, hcur, hr⟩) r

/-- Two harts that agree on the registers that a call reads come to the same, but
for the registers that neither they agreed on nor the call has written. -/
theorem step_agrees {k : Hart M} (hk : k.restrict D = h.restrict D)
    (hsrc : (Call.step h).reads ⊆ insert GPRF.x0 D) :
    k.step.restrict (D ∪ (Call.step h).writes) = h.step.restrict (D ∪ (Call.step h).writes) := by
  have hreads : (Call.step k).reads = (Call.step h).reads := by
    change (Call.step (k.restrict D)).reads = (Call.step (h.restrict D)).reads
    rw [hk]
  have hwrites : (Call.step k).writes = (Call.step h).writes := by
    rw [← writes_step_restrict k (hreads ▸ hsrc), hk, writes_step_restrict h hsrc]
  rw [← step_restrict h hsrc subset_rfl, ← step_restrict k (hreads ▸ hsrc) (hwrites ▸ subset_rfl), hk]

end Hart

def written (ls : List (Call M)) : Set Register := {r | ∃ c ∈ ls, r ∈ c.writes}

theorem written_nil : written ([] : List (Call M)) = ∅ :=
  Set.eq_empty_iff_forall_notMem.mpr fun _ ⟨_, hc, _⟩ => nomatch hc

theorem written_append_singleton (ls : List (Call M)) (c : Call M) :
    written (ls ++ [c]) = written ls ∪ c.writes := by
  refine Set.ext fun r => ?_
  simp only [written, List.mem_append, List.mem_singleton, or_and_right, exists_or, exists_eq_left,
    Set.mem_ofPred_eq, Set.mem_union]

/-- No call reads a register that no call before it has written. -/
def Initialised (ls : List (Call M)) : Prop :=
  ∀ pre c post, ls = pre ++ c :: post → c.reads ⊆ insert GPRF.x0 (written pre)

theorem initialised_nil : Initialised ([] : List (Call M)) :=
  fun _ _ _ h => absurd h.symm (List.append_ne_nil_of_right_ne_nil _ (List.cons_ne_nil _ _))

theorem initialised_append_singleton {ls : List (Call M)} {c : Call M} :
    Initialised (ls ++ [c]) ↔ Initialised ls ∧ c.reads ⊆ insert GPRF.x0 (written ls) := by
  constructor
  · refine fun h => ⟨?_, h ls c [] rfl⟩
    rintro pre d post rfl
    exact h pre d (post ++ [c]) (by simp)
  · rintro ⟨h, hc⟩ pre d post heq
    obtain rfl | ⟨post, e, rfl⟩ := post.eq_nil_or_concat
    · obtain ⟨rfl, hd⟩ := List.append_inj' heq rfl
      exact List.singleton_inj.mp hd ▸ hc
    · rw [List.concat_eq_append, ← List.cons_append, ← List.append_assoc] at heq
      exact h pre d post (List.append_inj' heq rfl).1

section Alike

variable {N : Type} [Memory N] {R : M → N → Prop} {c : Call M} {d : Call N} {ls : List (Call M)}
  {ks : List (Call N)}

omit [Memory M] [Memory N] in
theorem pcs_alike (h : List.Forall₂ (Call.Alike R) ls ks) :
    ls.map (fun c => c.before.pc) = ks.map fun d => d.before.pc := by
  induction h with
  | nil => rfl
  | cons hc _ ih => rw [List.map_cons, List.map_cons, hc.pc, ih]

omit [Memory M] [Memory N] in
theorem Call.Alike.reads (h : c.Alike R d) : c.reads = d.reads := by
  cases h with
  | step hh =>
    refine Set.ext fun r => exists_congr fun i => ?_
    rw [hh.current]
  | run hh => rfl

theorem Call.Alike.writes (hm : Memory.Alike R) (h : c.Alike R d) : c.writes = d.writes := by
  cases h with
  | run hh => rfl
  | @step h k hh =>
    refine Set.ext fun r => exists_congr fun i => ?_
    rw [hh.current]
    refine and_congr_right fun _ => and_congr_right fun _ => ?_
    have he := effect_alike hm i hh.toAlike
    generalize effect i h.toArch = e at he
    generalize effect i k.toArch = e' at he
    cases he with
    | next => exact iff_of_true ⟨_, rfl⟩ ⟨_, rfl⟩
    | _ => exact iff_of_false nofun nofun

theorem written_alike (hm : Memory.Alike R) (h : List.Forall₂ (Call.Alike R) ls ks) :
    written ls = written ks := by
  induction h with
  | nil => rw [written_nil, written_nil]
  | @cons c d ls ks hc _ ih =>
    refine Set.ext fun r => ?_
    have hr := Set.ext_iff.mp ih r
    simp only [written, Set.mem_ofPred_eq, List.mem_cons, exists_eq_or_imp] at hr ⊢
    rw [hc.writes hm, hr]

theorem initialised_alike (hm : Memory.Alike R) (h : List.Forall₂ (Call.Alike R) ls ks)
    (hi : Initialised ks) : Initialised ls := by
  rintro pre c post rfl
  have hpre := List.forall₂_take pre.length h
  have hpost := List.forall₂_drop pre.length h
  rw [List.take_left] at hpre
  rw [List.drop_left] at hpost
  generalize hrest : ks.drop pre.length = rest at hpost
  cases hpost with
  | @cons _ d _ post' hc _ =>
    have hks : ks = ks.take pre.length ++ d :: post' := by
      rw [← hrest, List.take_append_drop]
    rw [hc.reads, written_alike hm hpre]
    exact hi _ _ _ hks

end Alike

/-- Two harts that differ in their registers only run alike, as long as no call
reads a register that was not written. -/
theorem runs_agree {h₀ k₀ : Hart M} (hk : k₀.restrict ∅ = h₀.restrict ∅) {ls : List (Call M)}
    {o : Outcome M} (hrun : Run Calls (.returned h₀) ls o) (hi : Initialised ls) :
    ∃ ks p, Run Calls (.returned k₀) ks p ∧
      ks.map (Call.restrict ∅) = ls.map (Call.restrict ∅) ∧
      p.restrict (written ls) = o.restrict (written ls) := by
  induction hrun with
  | refl =>
    refine ⟨[], _, .refl _, rfl, ?_⟩
    rw [written_nil]
    exact congrArg Outcome.returned hk
  | @tail t u ls _ hrun hstep ih =>
    have hempty : ∀ {h k : Hart M}, k.restrict (written ls) = h.restrict (written ls) →
        k.restrict ∅ = h.restrict ∅ := by
      intro h k hk
      rw [← Hart.restrict_restrict (Set.empty_subset (written ls)), hk,
        Hart.restrict_restrict (Set.empty_subset _)]
    cases hstep with
    | step h =>
      obtain ⟨hi, hlast⟩ := initialised_append_singleton.mp hi
      obtain ⟨ks, p, hrun', hmap, hp⟩ := ih hi
      cases p with
      | running k =>
        have hk := Outcome.running.inj hp
        refine ⟨ks ++ [.step k], _, hrun'.tail (.step k), ?_, ?_⟩
        · rw [List.map_append, List.map_append, hmap]
          exact congrArg (ls.map _ ++ [Call.step ·]) (hempty hk)
        · rw [written_append_singleton]
          exact h.step_agrees hk hlast
      | _ => cases hp
    | @run _ h hcaller =>
      obtain ⟨ks, p, hrun', hmap, hp⟩ := ih (initialised_append_singleton.mp hi).1
      have hc := congrArg Outcome.caller? hp
      rw [Outcome.caller?_restrict, Outcome.caller?_restrict, hcaller] at hc
      obtain ⟨k, hpk, hk⟩ := Option.map_eq_some_iff.mp hc
      refine ⟨ks ++ [.run k], _, hrun'.tail (.run hpk), ?_, ?_⟩
      · rw [List.map_append, List.map_append, hmap]
        exact congrArg (ls.map _ ++ [Call.run ·]) (hempty hk)
      · have hnone : (Call.run h).writes = ∅ := rfl
        rw [written_append_singleton, hnone, Set.union_empty]
        unfold Hart.run
        rw [← Hart.execBBEND_restrict, hk, Hart.execBBEND_restrict]

/-- What the registers held when the hart was constructed cannot be told from a
run that reads no register before it was written. -/
theorem Hart.registers_unobservable (garbage garbage' : Register → RV64UDWord) (mem : M)
    {ls : List (Call M)} {o : Outcome M} (hrun : Run Calls (.returned (create garbage mem)) ls o)
    (hi : Initialised ls) : ∃ ks p, Run Calls (.returned (create garbage' mem)) ks p ∧
      ks.map (Call.restrict ∅) = ls.map (Call.restrict ∅) ∧
      p.restrict (written ls) = o.restrict (written ls) := by
  have hk : (create garbage' mem).restrict ∅ = (create garbage mem).restrict ∅ :=
    congrArg (fun g => (create garbage mem).withArch ⟨g, CSRF.create, mem⟩)
      (GPRF.restrict_create garbage garbage')
  exact runs_agree hk hrun hi

theorem Hart.registers_unobservable_addi : ∃ ks, ∃ k : Hart Prefetcher,
    Run Calls (.returned (create (fun r => r.setWidth 64) (Prefetcher.create ⟨addiMem⟩))) ks
      (.running k) ∧ k.read 1 = 5 := by
  let h₀ := create (fun _ => 0) (Prefetcher.create ⟨addiMem⟩)
  have hsome : (h₀.runFor 1).isSome = true := by decide +kernel
  obtain ⟨h, hr⟩ := Option.isSome_iff_exists.mp hsome
  have h5 : h.read 1 = 5 := of_runFor (f := fun h => h.read 1) hr (by decide +kernel)
  obtain ⟨h₁, hr₁, hrun, -⟩ := runs_of_runFor_one hr rfl (by decide +kernel)
  have hcur : h₁.current = some ⟨1, 0, 0, 5, .addi⟩ :=
    of_runFor (f := fun h => h.current) hr₁ (by decide +kernel)
  have hreads : (Call.step h₁).reads ⊆ {GPRF.x0} := by
    rintro r ⟨i, hi, hr⟩
    cases hcur.symm.trans hi
    exact List.mem_singleton.mp hr
  have hi : Initialised ([.run h₀] ++ [.step h₁]) := by
    have hfirst : Initialised ([] ++ [Call.run h₀]) :=
      initialised_append_singleton.mpr ⟨initialised_nil, Set.empty_subset _⟩
    refine initialised_append_singleton.mpr ⟨hfirst, ?_⟩
    exact hreads.trans (Set.singleton_subset_iff.mpr (Set.mem_insert _ _))
  obtain ⟨ks, p, hrun', -, hp⟩ :=
    registers_unobservable (fun _ => 0) (fun r => r.setWidth 64) _ hrun hi
  cases p with
  | running k =>
    refine ⟨ks, k, hrun', ?_⟩
    have h1 : (1 : Register) ∈ written ([.run h₀] ++ [.step h₁]) :=
      ⟨.step h₁, by simp, _, hcur, rfl, _, rfl⟩
    have hk := congrArg (fun h => h.gprf.read 1) (Outcome.running.inj hp)
    exact (GPRF.read_restrict k.gprf (.inr (.inr h1))).symm.trans
      (hk.trans ((GPRF.read_restrict h.gprf (.inr (.inr h1))).trans h5))
  | _ => cases hp

end Besm.Sim
