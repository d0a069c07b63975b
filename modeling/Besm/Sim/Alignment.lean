import Besm.Memory.Prefetcher
import Besm.Sim.Traps

namespace Besm.Exec

open Besm.Util

theorem valueValidator_iff (value : RV64UDWord) :
    MEPC.valueValidator value = true ↔ value.toNat % 4 = 0 := by
  have h : (ialign / 8 : RV64UDWord) = 4 := by decide
  rw [MEPC.valueValidator, decide_eq_true_eq, h, BitVec.toNat_eq, BitVec.toNat_umod]
  rfl

theorem mepc_write (value raw : RV64UDWord) : ((ICSR.fields .mepc).write value raw).2 =
    if MEPC.valueValidator value = true then value else raw := by
  have hmask : extractMasked MEPC.value.mask value = value := extractMasked_full value
  have hset := mepc_set value raw
  change (CSRStructure.write [MEPC.value] value raw).2 = _
  unfold CSRStructure.write CSRField.extract
  rw [hmask]
  revert hset
  obtain ⟨_ | _, raw'⟩ := MEPC.value.set value raw <;> exact id

theorem CSRF.mepc_setRaw (c : CSRF) (reg : ICSR) (value : RV64UDWord) :
    (c.setRaw reg value).mepc = if reg = .mepc then value else c.mepc := by
  cases reg <;> rfl

theorem CSRF.mepc_update {c : CSRF} (h : c.mepc.toNat % 4 = 0) (id : RV64UDWord)
    (f : RV64UDWord → RV64UDWord) : (c.update id f).2.mepc.toNat % 4 = 0 := by
  obtain hu | ⟨reg, -, -, hu⟩ := c.update_cases id f
  · rwa [hu]
  · rw [hu, mepc_setRaw]
    split_ifs with hreg
    · rw [hreg, mepc_write]
      split_ifs with hv
      · exact (valueValidator_iff _).mp hv
      · exact h
    · exact h

end Besm.Exec

namespace Besm.Sim

open Besm.Exec Besm.Mem Besm.Util Besm.Lib.Transition

theorem add_mod_four (a b : BitVec 64) : (a + b).toNat % 4 = (a.toNat + b.toNat) % 4 := by
  rw [BitVec.toNat_add]
  omega

theorem signExtend_mod_four {signBits : Nat} (value : BitVec 64) (hlow : 2 < signBits)
    (hfit : signBits ≤ 64) : (signExtend signBits value).toNat % 4 = value.toNat % 4 :=
  toNat_signExtend_mod (k := 2) value hlow hfit

theorem clear_lowest_mod_four (a : BitVec 64) :
    (a &&& ~~~(1 : RV64UDWord)).toNat % 4 = 0 ↔ a.toNat % 4 < 2 := by
  have hand : ∀ r < 4, r &&& 2 = 0 ↔ r < 2 := by decide
  have hmod : (a &&& ~~~(1 : RV64UDWord)).toNat % 2 ^ 2 = a.toNat % 2 ^ 2 &&& 2 := by
    rw [BitVec.toNat_and, Nat.and_mod_two_pow]
    rfl
  rw [show (4 : Nat) = 2 ^ 2 from rfl, hmod]
  exact hand _ (Nat.mod_lt _ (by decide))

theorem trapVector_mod_four (c : CSRF) (id : ExceptionId) : (trapVector c id).toNat % 4 = 0 := by
  have hmul : ∀ a : BitVec 64, (a * 4).toNat % 4 = 0 := fun a => by
    rw [BitVec.toNat_mul]
    change a.toNat * 4 % 2 ^ 64 % 4 = 0
    omega
  unfold trapVector
  split_ifs
  · exact hmul _
  · exact hmul _

theorem mepc_trapCSRF_aligned {c : CSRF} (h : c.mepc.toNat % 4 = 0) (id : ExceptionId)
    (pc : RV64Ptr) : (trapCSRF c id pc).mepc.toNat % 4 = 0 := by
  rw [mepc_trapCSRF]
  split_ifs with hv
  · exact (valueValidator_iff pc).mp hv
  · exact h

variable {M : Type}

def branchTaken (i : Instruction) (s : Arch M) : Bool :=
  match i.operation with
  | .beq => s.read i.rs1 = s.read i.rs2
  | .bne => s.read i.rs1 ≠ s.read i.rs2
  | .blt => (s.read i.rs1).slt (s.read i.rs2)
  | .bge => (s.read i.rs2).sle (s.read i.rs1)
  | .bltu => s.read i.rs1 < s.read i.rs2
  | .bgeu => s.read i.rs1 ≥ s.read i.rs2
  | _ => false

/-- The instruction goes by whole words if it jumps by its immediate, and if it
jumps to a register's value then the bit that JALR does not clear is clear. -/
structure JumpsToWord (i : Instruction) (s : Arch M) : Prop where
  jal : i.operation = .jal → i.immidiate.toNat % 4 = 0
  jalr : i.operation = .jalr → (s.read i.rs1 + i.immidiate).toNat % 4 < 2
  branch : branchTaken i s = true → i.immidiate.toNat % 4 = 0

section Effects

variable {i : Instruction} {s s' : Arch M}

theorem isBranch_of_taken (h : branchTaken i s = true) : isBranch i.operation = true := by
  unfold branchTaken at h
  split at h
  case h_7 => cases h
  all_goals
    rename_i hop
    rw [hop]
    rfl

theorem jump_mod_four (hpc : s.pc.toNat % 4 = 0) {signBits : Nat} (hlow : 2 < signBits)
    (hfit : signBits ≤ 64) :
    (s.pc + signExtend signBits i.immidiate).toNat % 4 = i.immidiate.toNat % 4 := by
  rw [add_mod_four, Nat.add_mod, hpc, signExtend_mod_four _ hlow hfit, Nat.zero_add, Nat.mod_mod]

theorem jalr_mod_four : ((s.read i.rs1 + signExtend 12 i.immidiate) &&&
    ~~~(1 : RV64UDWord)).toNat % 4 = 0 ↔ (s.read i.rs1 + i.immidiate).toNat % 4 < 2 := by
  rw [clear_lowest_mod_four, add_mod_four, Nat.add_mod, signExtend_mod_four _ (by decide) (by decide),
    ← Nat.add_mod, ← add_mod_four]

theorem nextPC_mod_four (hpc : s.pc.toNat % 4 = 0) : s.nextPC.pc.toNat % 4 = 0 := by
  rw [Arch.pc_nextPC, add_mod_four, Nat.add_mod, hpc]
  rfl

variable [Memory M]

theorem effect_jal (hop : i.operation = .jal) :
    effect i s = .next ((s.write i.rd (s.pc + 4)).setPC (s.pc + signExtend 20 i.immidiate)) := by
  unfold effect
  rw [hop]
  rfl

theorem effect_jalr (hop : i.operation = .jalr) :
    effect i s = .next ((s.write i.rd (s.pc + 4)).setPC
      ((s.read i.rs1 + signExtend 12 i.immidiate) &&& ~~~(1 : RV64UDWord))) := by
  unfold effect
  rw [hop]
  rfl

theorem effect_branch (hop : isBranch i.operation = true) :
    effect i s = s.branch i (branchTaken i s) := by
  unfold effect branchTaken
  cases hi : i.operation <;> rw [hi] at hop <;>
    first | exact absurd hop Bool.false_ne_true | rfl

theorem jumps_off (hpc : s.pc.toNat % 4 = 0) (hj : ¬JumpsToWord i s) :
    ∃ s', effect i s = .next s' ∧ s'.pc.toNat % 4 ≠ 0 := by
  by_cases hjal : i.operation = .jal ∧ i.immidiate.toNat % 4 ≠ 0
  · refine ⟨_, effect_jal hjal.1, ?_⟩
    rw [Arch.pc_setPC, jump_mod_four hpc (by decide) (by decide)]
    exact hjal.2
  · by_cases hjalr : i.operation = .jalr ∧ ¬(s.read i.rs1 + i.immidiate).toNat % 4 < 2
    · refine ⟨_, effect_jalr hjalr.1, ?_⟩
      rw [Arch.pc_setPC, Ne, jalr_mod_four]
      exact hjalr.2
    · by_cases hbr : branchTaken i s = true ∧ i.immidiate.toNat % 4 ≠ 0
      · refine ⟨s.setPC (s.pc + signExtend 12 i.immidiate), ?_, ?_⟩
        · rw [effect_branch (isBranch_of_taken hbr.1), hbr.1]
          rfl
        · rw [Arch.pc_setPC, jump_mod_four hpc (by decide) (by decide)]
          exact hbr.2
      · refine absurd ⟨fun hop => ?_, fun hop => ?_, fun ht => ?_⟩ hj
        · exact by_contra fun hne => hjal ⟨hop, hne⟩
        · exact by_contra fun hne => hjalr ⟨hop, hne⟩
        · exact by_contra fun hne => hbr ⟨ht, hne⟩

theorem pc_of_next (hrd : i.rd < 32) (hend : i.operation ≠ .bbEnd) (hpc : s.pc.toNat % 4 = 0)
    (hmepc : s.csrf.mepc.toNat % 4 = 0) (hj : JumpsToWord i s) (he : effect i s = .next s') :
    s'.pc.toNat % 4 = 0 := by
  have hwrite : ∀ (t : Arch M) value, t.pc = s.pc →
      (t.write i.rd value).nextPC.pc.toNat % 4 = 0 := fun t value ht =>
    nextPC_mod_four (by rw [Arch.pc_write _ _ hrd, ht]; exact hpc)
  by_cases hbr : isBranch i.operation = true
  · rw [effect_branch hbr] at he
    obtain rfl := Effect.next.inj he
    cases ht : branchTaken i s with
    | false => exact nextPC_mod_four hpc
    | true =>
      change (s.setPC (s.pc + signExtend 12 i.immidiate)).pc.toNat % 4 = 0
      rw [Arch.pc_setPC, jump_mod_four hpc (by decide) (by decide)]
      exact hj.branch ht
  · cases advances_of_effect hend he with
    | retire value => exact hwrite s value rfl
    | fence => exact nextPC_mod_four hpc
    | jal hop =>
      rw [Arch.pc_setPC, jump_mod_four hpc (by decide) (by decide)]
      exact hj.jal hop
    | jalr hop =>
      rw [Arch.pc_setPC]
      exact jalr_mod_four.mpr (hj.jalr hop)
    | taken hop => exact absurd hop hbr
    | notTaken hop => exact absurd hop hbr
    | load w value => exact hwrite _ value rfl
    | store w hop value => exact nextPC_mod_four (s := { s with mem := _ }) hpc
    | csrRead value => exact hwrite s value rfl
    | csrWrite f hf reg => exact hwrite _ _ rfl
    | mret =>
      rw [Arch.pc_setPC, mepc_get]
      exact hmepc

theorem mepc_of_advances (h : Advances i s s') (hmepc : s.csrf.mepc.toNat % 4 = 0) :
    s'.csrf.mepc.toNat % 4 = 0 := by
  cases h with
  | csrWrite f hf reg => exact CSRF.mepc_update hmepc i.immidiate f
  | _ => exact hmepc

theorem mem_of_advances {I : M → Prop} (hI : Memory.AssertionFree I) (h : Advances i s s')
    (hm : I s.mem) : I s'.mem := by
  cases h with
  | load w value => exact (hI.load _ hm w _).2
  | store w hop value => exact (hI.store _ hm w _ value).2
  | _ => exact hm

end Effects

theorem registers_rebuilt :
    Hart.Rebuilt fun bb => ∀ k i, bb.instrs k = some i → i.rd < 32 where
  pc _ _ h := h
  append r word hr k i hi := by
    obtain rfl | hold | ⟨-, rfl⟩ := BasicBlockRebuilder.append_instrs hi
    · exact (Dec.parse_registers word).1
    · exact hr k i hold
    · cases hold : r.bb.instrs k with
      | none => exact (by decide : (0 : Register) < 32)
      | some j => exact hr k j hold

namespace Hart

variable [Memory M] {I : M → Prop} {h h' : Hart M}

theorem rd_of_current (hr : Reachable h) {i : Instruction} (hcur : h.current = some i) :
    i.rd < 32 := by
  obtain ⟨p, hp, hi⟩ := Option.bind_eq_some_iff.mp hcur
  refine reachable_blocks registers_rebuilt (fun k i hi => ?_) hr p.index p.pos i hi
  rw [BasicBlock.create_instrs hi]
  decide

structure Settled (I : M → Prop) (h : Hart M) : Prop where
  pc : h.pc.toNat % 4 = 0
  mepc : h.csrf.mepc.toNat % 4 = 0
  mem : I h.mem

theorem assembleLoop_settled (hI : Memory.AssertionFree I) (fuel : Nat) (r : BasicBlockRebuilder)
    {pc : RV64Ptr} {mem : M} (hpc : pc.toNat % 4 = 0) (hm : I mem) :
    (assembleLoop fuel r pc mem).1 ≠ .error .assertionFailed ∧
      I (assembleLoop fuel r pc mem).2.2 := by
  induction fuel generalizing r pc mem with
  | zero => exact ⟨fun he => (by cases he), hm⟩
  | succ fuel ih =>
    have hfetch := hI.fetchWord mem hm pc hpc
    have hnext : (pc + ialign / 8).toNat % 4 = 0 := by
      rw [add_mod_four, Nat.add_mod, hpc]
      decide
    unfold assembleLoop
    revert hfetch
    obtain ⟨e | word, mem'⟩ := Memory.fetchWord mem pc <;> rintro ⟨hne, hm'⟩
    · exact ⟨fun he => hne (congrArg _ (Except.error.inj he)), hm'⟩
    · dsimp only
      obtain ⟨_ | _, r'⟩ := r.append (Dec.parse word)
      · exact ⟨fun he => (by cases he), hm'⟩
      · exact ih r' hnext hm'

theorem fetchBB_settled (hI : Memory.AssertionFree I) (hpc : h.pc.toNat % 4 = 0) (hm : I h.mem) :
    h.fetchBB.1 ≠ .error .assertionFailed ∧ I h.fetchBB.2.mem := by
  unfold fetchBB
  obtain ⟨_ | _, index, cache⟩ := h.bbCache.lookup h.pc
  · have hloop := assembleLoop_settled hI (BasicBlock.kCapacity - 1)
      (BasicBlockRebuilder.create (cache.bbs index) h.pc) hpc hm
    dsimp only [assembleBB]
    revert hloop
    rcases assembleLoop (BasicBlock.kCapacity - 1)
      (BasicBlockRebuilder.create (cache.bbs index) h.pc) h.pc h.mem with ⟨e | _, bb, mem⟩ <;>
      rintro ⟨hne, hm'⟩
    · exact ⟨fun he => hne (congrArg _ (Except.error.inj he)), hm'⟩
    · exact ⟨fun he => (by cases he), hm'⟩
  · exact ⟨fun he => (by cases he), hm⟩

theorem Settled.fetchBB (hI : Memory.AssertionFree I) (hs : h.Settled I) : h.fetchBB.2.Settled I where
  pc := by rw [pc_fetchBB]; exact hs.pc
  mepc := by rw [csrf_fetchBB]; exact hs.mepc
  mem := (fetchBB_settled hI hs.pc hs.mem).2

theorem Settled.raiseException (hI : Memory.AssertionFree I) (hs : h.Settled I) (id : ExceptionId) :
    (h.raiseException id).1 ≠ .error .assertionFailed ∧ (h.raiseException id).2.Settled I := by
  have hvec : (h.withArch (h.toArch.raiseException id)).pc = trapVector h.csrf id :=
    GPRF.read_pc_write_pc _ _
  have hfetch := fetchBB_settled hI (h := h.withArch (h.toArch.raiseException id))
    (hvec ▸ trapVector_mod_four h.csrf id) hs.mem
  refine ⟨hfetch.1, ?_, ?_, hfetch.2⟩
  · rw [pc_raiseException]
    exact trapVector_mod_four h.csrf id
  · rw [csrf_raiseException]
    exact mepc_trapCSRF_aligned hs.mepc id h.pc

def JumpsToWord (h : Hart M) : Prop := ∀ i, h.current = some i → Sim.JumpsToWord i h.toArch

theorem Settled.thrown (hI : Memory.AssertionFree I) (hs : h.Settled I) {i : Instruction}
    {e : MemError} {s : Arch M} (he : effect i h.toArch = .throw e s) :
    e ≠ .assertionFailed ∧ I s.mem := by
  obtain ⟨w, hload | ⟨value, hstore⟩⟩ := accessed_of_throw he
  · have hsafe := hI.load h.mem hs.mem w (h.toArch.address i)
    rw [hload] at hsafe
    exact ⟨fun hx => hsafe.1 (congrArg _ hx), hsafe.2⟩
  · have hsafe := hI.store h.mem hs.mem w (h.toArch.address i) value
    rw [hstore] at hsafe
    exact ⟨fun hx => hsafe.1 (congrArg _ hx), hsafe.2⟩

theorem Settled.moves (hI : Memory.AssertionFree I) (hr : Reachable h) (hs : h.Settled I)
    (hm : Moves h h') : h'.csrf.mepc.toNat % 4 = 0 ∧ I h'.mem ∧
      (h.JumpsToWord → h'.pc.toNat % 4 = 0) := by
  cases hm with
  | fetch =>
    obtain ⟨hpc, hmepc, hmem⟩ := hs.fetchBB hI
    exact ⟨hmepc, hmem, fun _ => hpc⟩
  | next hcur hop he =>
    have ha := advances_of_effect hop he
    exact ⟨mepc_of_advances ha hs.mepc, mem_of_advances hI ha hs.mem,
      fun hj => pc_of_next (rd_of_current hr hcur) hop hs.pc hs.mepc (hj _ hcur) he⟩
  | ret hcur hop he =>
    obtain ⟨rfl, -⟩ := ret_of_effect he
    exact ⟨hs.mepc, hs.mem, fun _ => hs.pc⟩
  | throw hcur hop he =>
    obtain ⟨hgprf, hcsrf⟩ := throw_of_effect he
    refine ⟨?_, (hs.thrown hI he).2, fun _ => ?_⟩
    · exact (congrArg (fun c => c.mepc.toNat % 4) hcsrf).trans hs.mepc
    · exact (congrArg (fun g => (GPRF.read g GPRF.pc).toNat % 4) hgprf).trans hs.pc
  | raise hcur hop he =>
    obtain ⟨hpc, hmepc, hmem⟩ := (hs.raiseException hI _).2
    exact ⟨hmepc, hmem, fun _ => hpc⟩
  | resume hcur hop he hok hres =>
    rename_i i id r
    obtain ⟨hpc, hmepc, hmem⟩ := (hs.raiseException hI id).2
    obtain ⟨-, -, hmem', hcsrf, hpc', -⟩ := resume_running hres
    refine ⟨hcsrf ▸ hmepc, hmem' ▸ hmem, fun _ => ?_⟩
    rw [hpc']
    cases r with
    | jumpMepc =>
      change (MEPC.value.get _).toNat % 4 = 0
      rw [mepc_get]
      exact hmepc
    | _ => exact hpc

/-- A call goes on at a word exactly if it is not of a jump off the words. -/
theorem Settled.next_iff (hI : Memory.AssertionFree I) (hr : Reachable h) (hs : h.Settled I)
    (hn : h.Next h') : h'.pc.toNat % 4 = 0 ↔ (h.step.hart? = some h' → h.JumpsToWord) := by
  constructor
  · intro hpc hstep i hcur
    by_contra hj
    obtain ⟨s, he, hoff⟩ := jumps_off hs.pc hj
    by_cases hop : i.operation = .bbEnd
    · exact hj ⟨by simp [hop], by simp [hop], by simp [branchTaken, hop]⟩
    · rw [step_instr hcur hop, he] at hstep
      obtain ⟨p, j, -, -, rfl⟩ := execNextInstr_running (execNextInstr_hart? hstep)
      exact hoff hpc
  · intro hj
    by_cases hstep : h.step.hart? = some h'
    · exact (hs.moves hI hr (moves_of_step hstep)).2.2 (hj hstep)
    · have hrun := hn.resolve_left hstep
      rw [run, hart?_execBBEND] at hrun
      exact Option.some.inj hrun ▸ (hs.fetchBB hI).pc

/-- At a word no call fails an assertion, and every exception would leave the
program counter in `mepc`. -/
structure Aligned (h : Hart M) : Prop where
  pc : h.pc.toNat % 4 = 0
  step : ∀ t, h.step ≠ .thrown .assertionFailed t
  run : ∀ t, h.run ≠ .thrown .assertionFailed t
  mepc : ∀ id, (h.raiseException id).2.csrf.mepc = h.pc

theorem Settled.execBBEND (hI : Memory.AssertionFree I) (hs : h.Settled I) (t : Hart M) :
    h.execBBEND ≠ .thrown .assertionFailed t := by
  have hfetch := (fetchBB_settled hI hs.pc hs.mem).1
  intro hx
  obtain ⟨u, -, hend⟩ | ⟨e, u, hu, hend⟩ := h.execBBEND_cases
  · cases hend.symm.trans hx
  · rw [hu] at hfetch
    exact hfetch (congrArg _ (Outcome.thrown.inj (hend.symm.trans hx)).1)

theorem Settled.step (hI : Memory.AssertionFree I) (hs : h.Settled I) (t : Hart M) :
    h.step ≠ .thrown .assertionFailed t := by
  intro hx
  cases comes_of_step hx with
  | unfetched hcur hop hf =>
    have hfetch := (fetchBB_settled hI hs.pc hs.mem).1
    rw [hf] at hfetch
    exact hfetch rfl
  | trapped hcur hop he hf ho => exact resume_ne_thrown _ _ _ _ ho
  | @untrapped i id r e t hcur hop he hf =>
    have hraise := (hs.raiseException hI id).1
    rw [hf] at hraise
    exact hraise rfl
  | throw hcur hop he => exact (hs.thrown hI he).1 rfl

theorem Settled.aligned (hI : Memory.AssertionFree I) (hs : h.Settled I) : h.Aligned where
  pc := hs.pc
  step := hs.step hI
  run := hs.execBBEND hI
  mepc id := by
    rw [csrf_raiseException, mepc_trapCSRF, if_pos ((valueValidator_iff _).mpr hs.pc)]

def StaysOnWords (p : Hart M × Hart M) : Prop := p.1.step.hart? = some p.2 → p.1.JumpsToWord

theorem settled_run (hI : Memory.AssertionFree I) {h₀ : Hart M} {ls : List (Hart M × Hart M)}
    (hrun : Run Joins h₀ ls h) (hr : Reachable h₀) (hs : h₀.Settled I) :
    Reachable h ∧ ((∀ p ∈ ls, p.2.pc.toNat % 4 = 0) ↔ ∀ p ∈ ls, StaysOnWords p) ∧
      ((∀ p ∈ ls, p.2.pc.toNat % 4 = 0) → h.Settled I ∧ ∀ p ∈ ls, p.2.Settled I) := by
  induction hrun with
  | refl => exact ⟨hr, by simp, fun _ => ⟨hs, by simp⟩⟩
  | @tail u v ls _ hrun hj ih =>
    cases hj with
    | next hn =>
      obtain ⟨hu, hiff, hall⟩ := ih
      simp only [List.forall_mem_append, List.forall_mem_singleton]
      have hlast : (∀ p ∈ ls, p.2.pc.toNat % 4 = 0) → (v.pc.toNat % 4 = 0 ↔ StaysOnWords (u, v)) :=
        fun hpc => (hall hpc).1.next_iff hI hu hn
      refine ⟨.step hu hn, ?_, fun hpc => ?_⟩
      · rw [← hiff]
        exact and_congr_right hlast
      · obtain ⟨hmepc, hmem, -⟩ := (hall hpc.1).1.moves hI hu (moves_of_next hn)
        have hv : v.Settled I := ⟨hpc.2, hmepc, hmem⟩
        exact ⟨hv, (hall hpc.1).2, hv⟩

theorem aligned_iff (hI : Memory.AssertionFree I) {h₀ : Hart M} {ls : List (Hart M × Hart M)}
    (hinit : Initial h₀) (hmem : I h₀.mem) (hrun : Run Joins h₀ ls h) :
    h₀.Aligned ∧ ((∀ p ∈ ls, p.2.Aligned) ↔ ∀ p ∈ ls, StaysOnWords p) := by
  have hs : h₀.Settled I := by
    obtain ⟨garbage, mem, rfl⟩ := hinit
    exact ⟨rfl, rfl, hmem⟩
  obtain ⟨-, hiff, hall⟩ := settled_run hI hrun (.init hinit) hs
  refine ⟨hs.aligned hI, ?_⟩
  rw [← hiff]
  exact ⟨fun ha p hp => (ha p hp).pc, fun hpc p hp => ((hall hpc).2 p hp).aligned hI⟩

def loaded (words : List (RV64Ptr × RV64UWord)) : Hart Prefetcher :=
  Hart.create (fun _ => 0) (Prefetcher.create
    ⟨words.foldl (fun m e => (m.store .word e.1 e.2).2)
      (PhysMemBuilder.adjacentBuilder.build .willing)⟩)

theorem pc_aligned_iff {garbage : Register → RV64UDWord} {mmu : MMU} {h : Hart Prefetcher}
    {ls : List (Hart Prefetcher × Hart Prefetcher)}
    (hrun : Run Joins (Hart.create garbage (Prefetcher.create mmu)) ls h) :
    (Hart.create garbage (Prefetcher.create mmu)).Aligned ∧
      ((∀ p ∈ ls, p.2.Aligned) ↔ ∀ p ∈ ls, StaysOnWords p) :=
  aligned_iff Prefetcher.assertionFree ⟨_, _, rfl⟩ (.inl rfl) hrun

theorem pc_aligned_jal : ∃ h, (loaded [(0, 0x0040006F)]).runFor 1 = some h ∧ h.pc = 4 ∧
    h.Aligned := by
  have hsome : ((loaded [(0, 0x0040006F)]).runFor 1).isSome = true := by decide +kernel
  obtain ⟨h, hr⟩ := Option.isSome_iff_exists.mp hsome
  obtain ⟨h₁, hr₁, hstep⟩ := Option.bind_eq_some_iff.mp hr
  have hcur : h₁.current = some ⟨0, 0, 0, 4, .jal⟩ :=
    of_runFor (f := fun h => h.current) hr₁ (by decide +kernel)
  have hrun : Run Joins (loaded [(0, 0x0040006F)])
      ([(loaded [(0, 0x0040006F)], h₁)] ++ [(h₁, h)]) h := by
    refine .tail (.single (.next (.inr ?_))) (.next (.inl ?_))
    · rw [Outcome.running?_eq_some.mp hr₁]
      rfl
    · rw [Outcome.running?_eq_some.mp hstep]
      rfl
  refine ⟨h, hr, of_runFor (f := fun h => h.pc) hr (by decide +kernel), ?_⟩
  refine (pc_aligned_iff hrun).2.mpr (fun p hp _ i hi => ?_) (h₁, h) (by simp)
  obtain hp | hp := List.mem_append.mp hp
  · obtain rfl := List.mem_singleton.mp hp
    cases hi
  · obtain rfl := List.mem_singleton.mp hp
    obtain rfl := Option.some.inj (hcur.symm.trans hi)
    exact ⟨fun _ => rfl, nofun, nofun⟩

/-- A jump by two bytes: the next fetch fails the assertion. -/
theorem jal_off_words : ∃ h : Hart Prefetcher, (loaded [(0, 0x0020006F)]).runFor 1 = some h ∧
    Reachable h ∧ h.pc = 2 ∧ ∃ t, h.step = .thrown .assertionFailed t := by
  have hsome : ((loaded [(0, 0x0020006F)]).runFor 1).isSome = true := by decide +kernel
  obtain ⟨h, hr⟩ := Option.isSome_iff_exists.mp hsome
  have hcur : h.current.map Instruction.operation = some .bbEnd :=
    of_runFor (f := fun h => h.current.map Instruction.operation) hr (by decide +kernel)
  have hfetch : h.fetchBB.1 = .error .assertionFailed :=
    of_runFor (f := fun h => h.fetchBB.1) hr (by decide +kernel)
  obtain ⟨i, hi, hop⟩ := Option.map_eq_some_iff.mp hcur
  refine ⟨h, hr, reachable_runFor ⟨_, _, rfl⟩ hr,
    of_runFor (f := fun h => h.pc) hr (by decide +kernel), h.fetchBB.2, ?_⟩
  rw [step_bbEnd hi hop, execBBEND, show h.fetchBB = (h.fetchBB.1, h.fetchBB.2) from rfl, hfetch]

end Hart

end Besm.Sim
