import Besm.Memory.Flat
import Besm.Sim.Blocks
import Besm.Sim.Steps

namespace Besm.Exec

open Besm.Util

/-- The validator lets only a multiple of the instruction's alignment into `mepc`. -/
theorem mepc_set (pc raw : RV64UDWord) :
    (MEPC.value.set pc raw).2 = if MEPC.valueValidator pc = true then pc else raw := by
  change (if MEPC.valueValidator pc = true then _ else _ : Bool × RV64UDWord).2 = _
  split_ifs with hv
  · exact insertMasked_full pc raw
  · rfl

theorem mepc_get (raw : RV64UDWord) : MEPC.value.get raw = raw := extractMasked_full raw

end Besm.Exec

namespace Besm.Sim

open Besm.Exec Besm.Mem Besm.Lib.Transition

theorem mepc_trapCSRF (c : CSRF) (id : ExceptionId) (pc : RV64Ptr) :
    (trapCSRF c id pc).mepc = if MEPC.valueValidator pc = true then pc else c.mepc :=
  mepc_set pc c.mepc

variable {M : Type}

namespace Hart

variable [Memory M]

/-- The program counter is where the exception of the current instruction goes. -/
def AtVector (h h' : Hart M) : Prop :=
  ∃ i id r, h.current = some i ∧ effect i h.toArch = .raise id h.toArch r ∧
    h'.pc = trapVector h.csrf id

def trapMepc (h : Hart M) : RV64Ptr :=
  if MEPC.valueValidator h.pc = true then h.pc else h.csrf.mepc

/-- If the next instruction is an MRET, and the handler's block can be read,
then `mepc` would hold the handler's own address. -/
def MretAtVector (h : Hart M) : Prop :=
  ∀ i, h.current = some i → i.operation = .mret →
    h.BlockReadable (trapVector h.csrf .illegalInstr) →
      h.trapMepc = trapVector h.csrf .illegalInstr

theorem privillege_raised_step {h h' : Hart M} (hn : h.Next h')
    (hlow : h.csrf.privillege < privillegeMachine) (hhigh : h'.csrf.privillege = privillegeMachine) :
    h.AtVector h' ↔ h.MretAtVector := by
  have hne : h.csrf.privillege ≠ privillegeMachine := fun he => by
    rw [he] at hlow
    exact absurd hlow (by decide)
  cases moves_of_next hn with
  | fetch => exact absurd (csrf_fetchBB h ▸ hhigh) hne
  | next hcur hop he =>
    have hp := privillege_of_advances (advances_of_effect hop he) hne
    exact absurd (hp.symm.trans hhigh) hne
  | ret hcur hop he =>
    obtain ⟨rfl, -⟩ := ret_of_effect he
    exact absurd hhigh hne
  | throw hcur hop he => exact absurd ((throw_of_effect he).2 ▸ hhigh) hne
  | raise hcur hop he hend =>
    rename_i i id r
    refine iff_of_true ⟨i, id, r, hcur, he, pc_raiseException h id⟩ fun j hj hmret hok => ?_
    obtain rfl := Option.some.inj (hcur.symm.trans hj)
    cases (raises_of_effect he).2 with
    | mret => cases hend ((raiseException_fst h _).trans hok)
    | csr hcsr => rw [hmret] at hcsr; cases hcsr
    | _ => simp_all
  | resume hcur hop he hok hr =>
    rename_i i id r
    obtain ⟨-, -, -, -, hpc, -⟩ := resume_running hr
    rw [pc_raiseException, csrf_raiseException] at hpc
    have hat : h.AtVector h' ↔ h'.pc = trapVector h.csrf id :=
      ⟨fun ⟨j, id', r', hj, he', hv⟩ => by
          obtain rfl := Option.some.inj (hcur.symm.trans hj)
          cases he.symm.trans he'
          exact hv,
        fun hv => ⟨i, id, r, hcur, he, hv⟩⟩
    rw [hat, hpc]
    cases (raises_of_effect he).2 with
    | mret hmret =>
      change MEPC.value.get (trapCSRF h.csrf .illegalInstr h.pc).mepc = _ ↔ _
      rw [mepc_get, mepc_trapCSRF]
      refine ⟨fun hv _ _ _ _ => hv, fun hm => hm i hcur hmret ?_⟩
      exact (raiseException_fst h _).symm.trans hok
    | _ =>
      refine iff_of_true rfl fun j hj hmret _ => ?_
      obtain rfl := Option.some.inj (hcur.symm.trans hj)
      simp_all [isCSR]

/-- At every step of every run, also over several calls of `run`, that raises
the privilege to machine mode. -/
theorem privillege_raised_at_vector_iff {h₀ h : Hart M} {ls : List (Hart M × Hart M)}
    (hrun : Run Joins h₀ ls h) :
    ∀ p ∈ ls, p.1.csrf.privillege < privillegeMachine → p.2.csrf.privillege = privillegeMachine →
      (p.1.AtVector p.2 ↔ p.1.MretAtVector) := by
  refine hrun.labels fun s ls t hj p hp => ?_
  cases hj with
  | next hn =>
    obtain rfl := List.mem_singleton.mp hp
    exact privillege_raised_step hn

/-- An MRET at the vector, executed in user mode after it has left machine mode. -/
theorem privillege_raised_at_vector_mret :
    ∃ h h' : Hart FlatMemory,
      (Hart.create (fun _ => 0) (FlatMemory.image [0x30200073])).runFor 2 = some h ∧
      h.csrf.privillege = privillegeUser ∧ h'.csrf.privillege = privillegeMachine ∧
      h.AtVector h' := by
  let h₀ := Hart.create (fun _ => 0) (FlatMemory.image [0x30200073])
  have hsome : (h₀.runFor 3).isSome = true := by decide +kernel
  obtain ⟨h', hr'⟩ := Option.isSome_iff_exists.mp hsome
  obtain ⟨h, hr, hstep⟩ := Option.bind_eq_some_iff.mp hr'
  rw [Outcome.running?_eq_some] at hstep
  have hlow : h.csrf.privillege = privillegeUser :=
    of_runFor (f := fun h => h.csrf.privillege) hr (by decide +kernel)
  have hhigh : h'.csrf.privillege = privillegeMachine :=
    of_runFor (f := fun h => h.csrf.privillege) hr' (by decide +kernel)
  have hmepc : h.trapMepc = trapVector h.csrf .illegalInstr := by
    have hm : h.trapMepc = 0 := of_runFor hr (by decide +kernel)
    have hv : trapVector h.csrf .illegalInstr = 0 :=
      of_runFor (f := fun h => trapVector h.csrf .illegalInstr) hr (by decide +kernel)
    rw [hm, hv]
  have hrun : Run Joins h [(h, h')] h' := Run.single (.next (.inl (by rw [hstep]; rfl)))
  exact ⟨h, h', hr, hlow, hhigh, (privillege_raised_at_vector_iff hrun (h, h')
    (List.mem_singleton.mpr rfl) (hlow ▸ by decide) hhigh).mpr fun _ _ _ _ => hmepc⟩

/-- With an addition before it, the same MRET goes on in machine mode at its
own address, which is the vector of no exception. -/
theorem mret_raised_off_vector :
    ∃ h h' : Hart FlatMemory,
      (Hart.create (fun _ => 0) (FlatMemory.image [0x00000013, 0x30200073])).runFor 4 = some h ∧
      Reachable h ∧ h.step = .running h' ∧ h.csrf.privillege = privillegeUser ∧
      h'.csrf.privillege = privillegeMachine ∧ ∀ id, h'.pc ≠ trapVector h.csrf id := by
  let h₀ := Hart.create (fun _ => 0) (FlatMemory.image [0x00000013, 0x30200073])
  have hsome : (h₀.runFor 5).isSome = true := by decide +kernel
  obtain ⟨h', hr'⟩ := Option.isSome_iff_exists.mp hsome
  obtain ⟨h, hr, hstep⟩ := Option.bind_eq_some_iff.mp hr'
  rw [Outcome.running?_eq_some] at hstep
  have hmtvec : h.csrf.mtvec = 0 := of_runFor (f := fun h => h.csrf.mtvec) hr (by decide +kernel)
  have hpc : h'.pc = 4 := of_runFor (f := fun h => h.pc) hr' (by decide +kernel)
  refine ⟨h, h', hr, reachable_runFor ⟨_, _, rfl⟩ hr, hstep,
    of_runFor (f := fun h => h.csrf.privillege) hr (by decide +kernel),
    of_runFor (f := fun h => h.csrf.privillege) hr' (by decide +kernel), fun id => ?_⟩
  rw [hpc, trapVector, hmtvec, if_neg (by decide)]
  decide

end Hart

/-- The hart whose current instruction is the next to be applied: the end
marks on the way apply nothing. -/
inductive NextApplied [Memory M] : Outcome M → Hart M → Prop
  | here {h : Hart M} {i : Instruction} (hcur : h.current = some i)
      (hop : i.operation ≠ .bbEnd) : NextApplied (.running h) h
  | bbEnd {h h' : Hart M} {i : Instruction} (hcur : h.current = some i)
      (hop : i.operation = .bbEnd) (hnext : NextApplied h.step h') : NextApplied (.running h) h'

variable [Memory M]

theorem NextApplied.running {o : Outcome M} {h' : Hart M} (hn : NextApplied o h') :
    ∃ h, o = .running h := by
  cases hn with
  | here => exact ⟨_, rfl⟩
  | bbEnd => exact ⟨_, rfl⟩

namespace Hart

/-- After the exception the run goes on with the first instruction of the block
at the vector, which is the decoded word there, at that address. -/
def Dispatched (h : Hart M) (id : ExceptionId) : Prop :=
  ∃ h' p word, NextApplied h.step h' ∧ h'.currentInstr = some p ∧ p.pos = 0 ∧
    (h'.bbCache.bbs p.index).pc = trapVector h.csrf id ∧ h'.pc = trapVector h.csrf id ∧
    Memory.contents h.mem .word (trapVector h.csrf id) = .ok word ∧
    h'.current = some (Dec.parse word)

/-- The traps that are dispatched: not of an illegal word, with a handler whose
block is true to the memory and ends at its first instruction. -/
structure Dispatches (h : Hart M) (i : Instruction) (id : ExceptionId) : Prop where
  legal : i.operation ≠ .invOp
  mret : i.operation = .mret → h.trapMepc = trapVector h.csrf id
  fresh : ∃ word, Memory.contents h.mem .word (trapVector h.csrf id) = .ok word ∧
    (h.blockAt (trapVector h.csrf id)).2.instrs 0 = some (Dec.parse word)
  single : ∃ m, (h.blockAt (trapVector h.csrf id)).2.instrs 1 = some m ∧ m.operation = .bbEnd

theorem raiseException_ok {h : Hart M} (hr : Reachable h) {id : ExceptionId}
    (hread : h.BlockReadable (trapVector h.csrf id)) :
    ∃ t index, h.raiseException id = (.ok (), t) ∧ t.currentInstr = some ⟨index, 0⟩ ∧
      t.bbCache.bbs index = (h.blockAt (trapVector h.csrf id)).2 ∧
      (t.bbCache.bbs index).pc = trapVector h.csrf id ∧
      t.bbCache.lookup (trapVector h.csrf id) = (true, index, t.bbCache) := by
  have hpc : (h.withArch (h.toArch.raiseException id)).pc = trapVector h.csrf id :=
    GPRF.read_pc_write_pc _ _
  have hok : h.raiseException id = (.ok (), (h.raiseException id).2) :=
    Prod.ext ((raiseException_fst h id).trans hread) rfl
  obtain ⟨index, hp, hbb, hbpc, hagain⟩ :=
    fetchBB_ok (h := h.withArch (h.toArch.raiseException id))
      (fun set => reachable_lruRowers hr set) hok
  rw [hpc] at hbb hbpc hagain
  exact ⟨_, index, hok, hp, hbb, hbpc, hagain⟩

theorem step_raise {h t : Hart M} {i : Instruction} {id : ExceptionId} {r : Resume}
    (hcur : h.current = some i) (hop : i.operation ≠ .bbEnd)
    (he : effect i h.toArch = .raise id h.toArch r) (ht : h.raiseException id = (.ok (), t)) :
    h.step = t.resume r := by
  rw [step_instr hcur hop, he]
  obtain ⟨u, hu, happly⟩ | ⟨e, u, hu, -⟩ := h.apply_raise id r
  · obtain rfl := (Prod.mk.inj (hu.symm.trans ht)).2
    exact happly
  · cases hu.symm.trans ht

theorem resume_raise {h t t₁ : Hart M} {id : ExceptionId} {r : Resume} {index : Nat}
    (ht : h.raiseException id = (.ok (), t)) (hptr : t.currentInstr = some ⟨index, 0⟩)
    (hr : t.resume r = .running t₁) :
    r ≠ .ret ∧ t₁.bbCache = t.bbCache ∧ t₁.currentInstr = some ⟨index, 1⟩ ∧
      t₁.current = (t.bbCache.bbs index).instrs 1 ∧
      t₁.pc = if r = .jumpMepc then h.trapMepc else trapVector h.csrf id := by
  obtain ⟨hret, hcache, -, -, hpc, -, hptr₁⟩ := resume_running hr
  have hcsrf := csrf_raiseException h id
  have hvec := pc_raiseException h id
  rw [ht] at hcsrf hvec
  rw [hptr] at hptr₁
  refine ⟨hret, hcache, hptr₁, hcache ▸ current_of_ptr hptr₁, ?_⟩
  rw [hpc, hcsrf, hvec]
  cases r with
  | jumpMepc => exact (mepc_get _).trans (mepc_trapCSRF _ _ _)
  | _ => rfl

theorem raises_ret_iff {h : Hart M} {i : Instruction} {id : ExceptionId} {r : Resume}
    (he : effect i h.toArch = .raise id h.toArch r) :
    (r = .ret ↔ i.operation = .invOp) ∧ (r = .jumpMepc ↔ i.operation = .mret) := by
  cases (raises_of_effect he).2 with
  | csr hop =>
    constructor <;> constructor <;> intro hx
    · cases hx
    · rw [hx] at hop; cases hop
    · cases hx
    · rw [hx] at hop; cases hop
  | _ => simp_all

theorem dispatched_iff_dispatches {h : Hart M} (hreach : Reachable h) {i : Instruction}
    {id : ExceptionId} {r : Resume} (hcur : h.current = some i) (hop : i.operation ≠ .bbEnd)
    (he : effect i h.toArch = .raise id h.toArch r)
    (hread : h.BlockReadable (trapVector h.csrf id)) : h.Dispatched id ↔ h.Dispatches i id := by
  obtain ⟨t, index, ht, hptr, hbb, hbpc, hagain⟩ := raiseException_ok hreach hread
  obtain ⟨hinv, hmret⟩ := raises_ret_iff he
  have hstep := step_raise hcur hop he ht
  constructor
  · rintro ⟨h', p, word, hn, hp, hpos, -, hpc, hword, hcur'⟩
    rw [hstep] at hn
    obtain ⟨t₁, ht₁⟩ := hn.running
    obtain ⟨hret, hcache, hptr₁, hcur₁, hpc₁⟩ := resume_raise ht hptr ht₁
    have hreach₁ : Reachable t₁ := .step hreach (.inl (by rw [hstep, ht₁]; rfl))
    rw [ht₁] at hn
    cases hn with
    | here =>
      obtain rfl := Option.some.inj (hptr₁.symm.trans hp)
      cases hpos
    | bbEnd hm hmop hn =>
      rename_i m
      rw [step_bbEnd hm hmop] at hn
      obtain ⟨t₂, ht₂⟩ := hn.running
      obtain ⟨index₂, hptr₂, hbb₂, -, -⟩ :=
        fetchBB_ok (reachable_lruRowers hreach₁) (execBBEND_running ht₂)
      have hreach₂ : Reachable t₂ :=
        .step hreach₁ (.inl (by rw [step_bbEnd hm hmop, ht₂]; rfl))
      rw [ht₂] at hn
      have hcur₂ : t₂.current = (t₁.blockAt t₁.pc).2.instrs 0 := by
        rw [current_of_ptr hptr₂, hbb₂]
      cases hn with
      | bbEnd hm₂ hmop₂ =>
        rw [current_of_ptr hptr₂] at hm₂
        exact absurd hmop₂ (reachable_start hreach₂ _ _ hm₂)
      | here =>
        have hpc₂ : h'.pc = t₁.pc := by
          have hf := pc_fetchBB t₁
          rwa [execBBEND_running ht₂] at hf
        have hv : t₁.pc = trapVector h.csrf id := hpc₂ ▸ hpc
        have hblock : (t₁.blockAt t₁.pc).2 = (h.blockAt (trapVector h.csrf id)).2 := by
          rw [hv, blockAt, hcache, hagain, ← hbb]
        refine ⟨fun hx => hret (hinv.mpr hx), fun hx => ?_, ⟨word, hword, ?_⟩, ⟨m, ?_, hmop⟩⟩
        · rw [← hv, hpc₁, if_pos (hmret.mpr hx)]
        · exact hblock ▸ hcur₂.symm.trans hcur'
        · rw [← hbb, ← hcur₁, hm]
  · rintro ⟨hlegal, hjump, ⟨word, hword, hfirst⟩, m, hm, hmop⟩
    rw [← hbb] at hfirst hm
    obtain ⟨t₁, ht₁⟩ := resume_goes_on hptr hfirst fun hx => hlegal (hinv.mp hx)
    obtain ⟨-, hcache, -, hcur₁, hpc₁⟩ := resume_raise ht hptr ht₁
    have hv : t₁.pc = trapVector h.csrf id := by
      rw [hpc₁]
      split_ifs with hx
      · exact hjump (hmret.mp hx)
      · rfl
    let t₂ := enterBB { t₁ with bbCache := t.bbCache } index
    have hfetch : t₁.step = .running t₂ := by
      rw [step_bbEnd (hcur₁.trans hm) hmop, execBBEND, fetchBB, hv, hcache, hagain]
    have hcur₂ : t₂.current = some (Dec.parse word) := hfirst
    refine ⟨t₂, ⟨index, 0⟩, word, ?_, rfl, rfl, hbpc, hv, hword, hcur₂⟩
    rw [hstep, ht₁]
    refine .bbEnd (hcur₁.trans hm) hmop ?_
    rw [hfetch]
    exact .here hcur₂ (Dec.parse_ne_bbEnd word)

theorem blockAt_built [LawfulMemory M] {h : Hart M} {pc : RV64Ptr}
    (hmiss : (h.bbCache.lookup pc).1 = false) (hread : h.BlockReadable pc) :
    (h.blockAt pc).2.pc = pc ∧ ∃ n, (h.blockAt pc).2.Built (Memory.contents h.mem) n := by
  unfold BlockReadable at hread
  unfold blockAt at hread ⊢
  revert hmiss hread
  obtain ⟨found, index, cache⟩ := h.bbCache.lookup pc
  rintro (rfl : found = false) hread
  obtain ⟨-, hpc, hbuilt⟩ := assembleBB_spec (cache.bbs index) pc h.mem
  exact ⟨hpc, hbuilt hread⟩

theorem dispatches_iff_jump [LawfulMemory M] {h : Hart M} {i : Instruction} {id : ExceptionId}
    (hmiss : (h.bbCache.lookup (trapVector h.csrf id)).1 = false)
    (hread : h.BlockReadable (trapVector h.csrf id)) :
    h.Dispatches i id ↔ i.operation ≠ .invOp ∧
      (i.operation = .mret → h.trapMepc = trapVector h.csrf id) ∧
      ∃ word, Memory.contents h.mem .word (trapVector h.csrf id) = .ok word ∧
        (Dec.parse word).isJump = true := by
  obtain ⟨hpc, n, hb⟩ := blockAt_built hmiss hread
  obtain ⟨word, hword, hfirst⟩ := hb.decoded 0 hb.pos
  rw [BasicBlock.addr_zero, hpc] at hword
  constructor
  · rintro ⟨hlegal, hmret, -, m, hm, hmop⟩
    refine ⟨hlegal, hmret, word, hword, ?_⟩
    have hn : n = 1 := by
      by_contra hne
      obtain ⟨j, hj, hjop⟩ := hb.instr (show 1 < n by have := hb.pos; omega)
      exact hjop (Option.some.inj (hm.symm.trans hj) ▸ hmop)
    obtain hfull | ⟨j, hj, hjump⟩ := hb.last
    · rw [hn] at hfull
      exact absurd hfull (by decide)
    · rw [hn, hfirst] at hj
      exact Option.some.inj hj ▸ hjump
  · rintro ⟨hlegal, hmret, word', hword', hjump⟩
    obtain rfl : word = word' := Except.ok.inj (hword.symm.trans hword')
    refine ⟨hlegal, hmret, ⟨word, hword, hfirst⟩, ?_⟩
    have hn : n = 1 := by
      by_contra hne
      have hs := hb.straight 0 (by have := hb.pos; omega) _ hfirst
      rw [hs] at hjump
      cases hjump
    exact hn ▸ hb.stop

/-- A trap is dispatched to its handler, with nothing skipped, exactly when it
is one of `Dispatches`; where the handler's block is not held yet, exactly when
the trap is legal and the handler starts with a jump. -/
theorem trap_dispatched_iff {h : Hart M} (hreach : Reachable h) {i : Instruction}
    {id : ExceptionId} {r : Resume} (hcur : h.current = some i) (hop : i.operation ≠ .bbEnd)
    (he : effect i h.toArch = .raise id h.toArch r)
    (hread : h.BlockReadable (trapVector h.csrf id)) :
    (h.Dispatched id ↔ h.Dispatches i id) ∧
    (LawfulMemory M → (h.bbCache.lookup (trapVector h.csrf id)).1 = false →
      (h.Dispatched id ↔ i.operation ≠ .invOp ∧
        (i.operation = .mret → h.trapMepc = trapVector h.csrf id) ∧
        ∃ word, Memory.contents h.mem .word (trapVector h.csrf id) = .ok word ∧
          (Dec.parse word).isJump = true)) := by
  have hiff := dispatched_iff_dispatches hreach hcur hop he hread
  exact ⟨hiff, fun _ hmiss => hiff.trans (dispatches_iff_jump hmiss hread)⟩

theorem effect_ecall_machine {s : Arch M} (hpriv : s.csrf.privillege = privillegeMachine) :
    effect ⟨0, 0, 0, 0, .ecall⟩ s = .raise .ecallMmode s .execNextInstr := by
  change execECALL ⟨0, 0, 0, 0, .ecall⟩ s = _
  rw [execECALL, hpriv]
  rfl

/-- An ECALL that lies at the vector is a handler of one instruction. -/
theorem trap_dispatched_ecall :
    ∃ h : Hart FlatMemory, Reachable h ∧ h.pc = 0 ∧ h.Dispatched .ecallMmode := by
  let h₀ := Hart.create (fun _ => 0) (FlatMemory.image [0x00000073])
  have hsome : (h₀.runFor 0).isSome = true := by decide +kernel
  obtain ⟨h, hr⟩ := Option.isSome_iff_exists.mp hsome
  have hreach : Reachable h := reachable_runFor ⟨_, _, rfl⟩ hr
  have hcur : h.current = some ⟨0, 0, 0, 0, .ecall⟩ := of_runFor hr (by decide +kernel)
  have hpriv : h.csrf.privillege = 3 := of_runFor (f := fun h => h.csrf.privillege) hr
    (by decide +kernel)
  have hread : h.BlockReadable (trapVector h.csrf .ecallMmode) := of_runFor
    (f := fun h => (h.blockAt (trapVector h.csrf .ecallMmode)).1) hr (by decide +kernel)
  have hfirst : (h.blockAt (trapVector h.csrf .ecallMmode)).2.instrs 0 =
      some (Dec.parse 0x00000073) := of_runFor
    (f := fun h => (h.blockAt (trapVector h.csrf .ecallMmode)).2.instrs 0) hr (by decide +kernel)
  have hsecond : (h.blockAt (trapVector h.csrf .ecallMmode)).2.instrs 1 =
      some ⟨0, 0, 0, 0, .bbEnd⟩ := of_runFor
    (f := fun h => (h.blockAt (trapVector h.csrf .ecallMmode)).2.instrs 1) hr (by decide +kernel)
  have hword : Memory.contents h.mem .word (trapVector h.csrf .ecallMmode) = .ok 0x00000073 :=
    of_runFor (f := fun h => Memory.contents h.mem .word (trapVector h.csrf .ecallMmode)) hr
      (by decide +kernel)
  refine ⟨h, hreach, of_runFor (f := fun h => h.pc) hr (by decide +kernel), ?_⟩
  exact (trap_dispatched_iff hreach hcur (by decide) (effect_ecall_machine hpriv) hread).1.mpr
    ⟨by decide, nofun, ⟨_, hword, hfirst⟩, _, hsecond, rfl⟩

/-- With an addition before it the same ECALL goes on at itself: the addition,
which is the first instruction of the handler, is skipped. -/
theorem trap_skips_addi :
    ∃ h : Hart FlatMemory,
      (Hart.create (fun _ => 0) (FlatMemory.image [0x00000013, 0x00000073])).runFor 1 = some h ∧
      Reachable h ∧ h.current = some ⟨0, 0, 0, 0, .ecall⟩ ∧
      effect ⟨0, 0, 0, 0, .ecall⟩ h.toArch = .raise .ecallMmode h.toArch .execNextInstr ∧
      h.BlockReadable (trapVector h.csrf .ecallMmode) ∧ ¬h.Dispatched .ecallMmode := by
  let h₀ := Hart.create (fun _ => 0) (FlatMemory.image [0x00000013, 0x00000073])
  have hsome : (h₀.runFor 2).isSome = true := by decide +kernel
  obtain ⟨h₂, hr₂⟩ := Option.isSome_iff_exists.mp hsome
  obtain ⟨h, hr, hstep⟩ := Option.bind_eq_some_iff.mp hr₂
  rw [Outcome.running?_eq_some] at hstep
  have hptr : h₂.currentInstr = some ⟨0, 1⟩ := of_runFor hr₂ (by decide +kernel)
  have hcur : h₂.current = some ⟨0, 0, 0, 0, .ecall⟩ := of_runFor hr₂ (by decide +kernel)
  have hpriv : h.csrf.privillege = 3 := of_runFor (f := fun h => h.csrf.privillege) hr
    (by decide +kernel)
  refine ⟨h, hr, reachable_runFor ⟨_, _, rfl⟩ hr, of_runFor hr (by decide +kernel),
    effect_ecall_machine hpriv,
    of_runFor (f := fun h => (h.blockAt (trapVector h.csrf .ecallMmode)).1) hr
      (by decide +kernel), ?_⟩
  rintro ⟨h', p, word, hn, hp, hpos, -⟩
  rw [hstep] at hn
  cases hn with
  | here =>
    obtain rfl := Option.some.inj (hptr.symm.trans hp)
    cases hpos
  | bbEnd hcur' hop =>
    obtain rfl := Option.some.inj (hcur.symm.trans hcur')
    cases hop

end Hart

end Besm.Sim
