import Besm.Lib.Lockstep
import Besm.Memory.Alike
import Besm.Sim.Alignment

namespace Besm.Sim

open Besm.Exec Besm.Mem Besm.Lib.Transition

variable {M N : Type} {R : M → N → Prop}

structure Arch.Alike (R : M → N → Prop) (s : Arch M) (t : Arch N) : Prop where
  gprf : s.gprf = t.gprf
  csrf : s.csrf = t.csrf
  mem : R s.mem t.mem

inductive Effect.Alike (R : M → N → Prop) : Effect (Arch M) → Effect (Arch N) → Prop
  | next {s : Arch M} {t : Arch N} (h : s.Alike R t) : Effect.Alike R (.next s) (.next t)
  | raise (id : ExceptionId) (r : Resume) {s : Arch M} {t : Arch N} (h : s.Alike R t) :
      Effect.Alike R (.raise id s r) (.raise id t r)
  | ret {s : Arch M} {t : Arch N} (h : s.Alike R t) : Effect.Alike R (.ret s) (.ret t)
  | throw (e : MemError) {s : Arch M} {t : Arch N} (h : s.Alike R t) :
      Effect.Alike R (.throw e s) (.throw e t)
  | terminate : Effect.Alike R .terminate .terminate

structure Hart.Alike (R : M → N → Prop) (h : Hart M) (k : Hart N) : Prop
    extends Arch.Alike R h.toArch k.toArch where
  bbCache : h.bbCache = k.bbCache
  currentInstr : h.currentInstr = k.currentInstr
  instrsExecuted : h.instrsExecuted = k.instrsExecuted
  hooks : h.hooks = k.hooks

inductive Outcome.Alike (R : M → N → Prop) : Outcome M → Outcome N → Prop
  | running {h : Hart M} {k : Hart N} (hh : h.Alike R k) : Outcome.Alike R (.running h) (.running k)
  | returned {h : Hart M} {k : Hart N} (hh : h.Alike R k) :
      Outcome.Alike R (.returned h) (.returned k)
  | thrown (e : MemError) {h : Hart M} {k : Hart N} (hh : h.Alike R k) :
      Outcome.Alike R (.thrown e h) (.thrown e k)
  | terminated : Outcome.Alike R .terminated .terminated
  | undefined : Outcome.Alike R .undefined .undefined

inductive Call.Alike (R : M → N → Prop) : Call M → Call N → Prop
  | step {h : Hart M} {k : Hart N} (hh : h.Alike R k) : Call.Alike R (.step h) (.step k)
  | run {h : Hart M} {k : Hart N} (hh : h.Alike R k) : Call.Alike R (.run h) (.run k)

/-- The call is made at a multiple of four, where a block may be fetched. -/
def Call.OnWord (c : Call M) : Prop := c.before.pc.toNat % 4 = 0

theorem Arch.Alike.pc {s : Arch M} {t : Arch N} (h : s.Alike R t) : s.pc = t.pc :=
  congrArg (fun g : GPRF => g.read GPRF.pc) h.gprf

theorem Call.Alike.pc {c : Call M} {d : Call N} (h : c.Alike R d) : c.before.pc = d.before.pc := by
  cases h with
  | step hh => exact hh.pc
  | run hh => exact hh.pc

theorem Call.Alike.onWord {ls : List (Call M)} {ks : List (Call N)}
    (h : List.Forall₂ (Call.Alike R) ls ks) (hword : ∀ c ∈ ls, c.OnWord) : ∀ c ∈ ks, c.OnWord := by
  induction h with
  | nil => simp
  | cons ha _ ih =>
    rw [List.forall_mem_cons] at hword ⊢
    refine ⟨?_, ih hword.2⟩
    unfold Call.OnWord
    rw [← ha.pc]
    exact hword.1

theorem Arch.Alike.raiseException {s : Arch M} {t : Arch N} (h : s.Alike R t)
    (id : ExceptionId) : (s.raiseException id).Alike R (t.raiseException id) where
  gprf := by simp only [Arch.raiseException, h.gprf, h.csrf]
  csrf := by simp only [Arch.raiseException, h.csrf, h.pc]
  mem := h.mem

theorem csrStatus_alike {s : Arch M} {t : Arch N} (h : s.Alike R t) (i : Instruction)
    (status : Option RV64UDWord × CSRF) :
    Effect.Alike R (s.csrStatus i status) (t.csrStatus i status) := by
  obtain ⟨hg, hc, hR⟩ := h
  obtain ⟨_ | oldValue, c⟩ := status
  · exact .raise .illegalInstr .execNextInstr ⟨hg, rfl, hR⟩
  · refine .next ⟨?_, rfl, hR⟩
    simp only [Arch.nextPC, Arch.setPC, Arch.write, Arch.pc, hg]

theorem branch_alike {s : Arch M} {t : Arch N} (h : s.Alike R t) (i : Instruction)
    (taken : Bool) : Effect.Alike R (s.branch i taken) (t.branch i taken) := by
  have hpc := h.pc
  cases taken with
  | false => exact .next ⟨by simp only [Arch.nextPC, Arch.setPC, h.gprf, hpc]; rfl, h.csrf, h.mem⟩
  | true => exact .next ⟨by simp only [Arch.setPC, h.gprf, hpc]; rfl, h.csrf, h.mem⟩

namespace Hart

variable {h : Hart M} {k : Hart N}

theorem Alike.current (hh : h.Alike R k) : h.current = k.current := by
  unfold Hart.current
  rw [hh.currentInstr, hh.bbCache]

theorem Alike.withArch (hh : h.Alike R k) {s : Arch M} {t : Arch N} (ha : s.Alike R t) :
    (h.withArch s).Alike R (k.withArch t) where
  toAlike := ha
  bbCache := hh.bbCache
  currentInstr := hh.currentInstr
  instrsExecuted := hh.instrsExecuted
  hooks := hh.hooks

theorem Alike.enterBB (hh : h.Alike R k) (index : Nat) :
    (h.enterBB index).Alike R (k.enterBB index) where
  toAlike := hh.toAlike
  bbCache := hh.bbCache
  currentInstr := rfl
  instrsExecuted := hh.instrsExecuted
  hooks := by simp only [Hart.enterBB, hh.hooks, hh.bbCache]

theorem Alike.execNextInstr (hh : h.Alike R k) :
    Outcome.Alike R h.execNextInstr k.execNextInstr := by
  unfold Hart.execNextInstr
  rw [← hh.current, ← hh.currentInstr]
  obtain _ | p := h.currentInstr
  · exact .undefined
  · cases h.current with
    | none => exact .undefined
    | some i =>
      refine .running ⟨hh.toAlike, hh.bbCache, rfl, ?_, ?_⟩
      · exact congrArg (· + 1) hh.instrsExecuted
      · exact congrArg (· ++ [.instrExecuted i]) hh.hooks

theorem Alike.resume (hh : h.Alike R k) (r : Resume) : Outcome.Alike R (h.resume r) (k.resume r) := by
  cases r with
  | ret => exact .returned hh
  | execNextInstr => exact hh.execNextInstr
  | jumpMepc =>
    have ha : (h.setPC (MEPC.value.get h.csrf.mepc)).Alike R
        (k.setPC (MEPC.value.get k.csrf.mepc)) := by
      refine ⟨?_, hh.csrf, hh.mem⟩
      simp only [Arch.setPC, hh.gprf, hh.csrf]
    exact (hh.withArch ha).execNextInstr

end Hart

variable [Memory M] [Memory N]

theorem load_alike (hm : Memory.Alike R) {s : Arch M} {t : Arch N} (h : s.Alike R t)
    (i : Instruction) (w : Width) (extend : BitVec (8 * w.size) → RV64UDWord) :
    Effect.Alike R (s.load i w extend) (t.load i w extend) := by
  obtain ⟨g, c, m⟩ := s
  obtain ⟨g', c', n⟩ := t
  obtain ⟨rfl, rfl, hR⟩ := h
  have hl := hm.load m n hR w ((⟨g, c, m⟩ : Arch M).address i)
  have ha : (⟨g, c, n⟩ : Arch N).address i = (⟨g, c, m⟩ : Arch M).address i := rfl
  unfold Arch.load
  dsimp only
  rw [ha]
  revert hl
  obtain ⟨r, m'⟩ := Memory.load m w _
  obtain ⟨r', n'⟩ := Memory.load n w _
  rintro ⟨rfl : r = r', hR'⟩
  cases r with
  | error e => exact .throw e ⟨rfl, rfl, hR'⟩
  | ok value => exact .next ⟨rfl, rfl, hR'⟩

theorem store_alike (hm : Memory.Alike R) {s : Arch M} {t : Arch N} (h : s.Alike R t)
    (i : Instruction) (w : Width) : Effect.Alike R (s.store i w) (t.store i w) := by
  obtain ⟨g, c, m⟩ := s
  obtain ⟨g', c', n⟩ := t
  obtain ⟨rfl, rfl, hR⟩ := h
  have hs := hm.store m n hR w ((⟨g, c, m⟩ : Arch M).address i)
    (((⟨g, c, m⟩ : Arch M).read i.rs2).setWidth (8 * w.size))
  have ha : (⟨g, c, n⟩ : Arch N).address i = (⟨g, c, m⟩ : Arch M).address i := rfl
  have hr : (⟨g, c, n⟩ : Arch N).read i.rs2 = (⟨g, c, m⟩ : Arch M).read i.rs2 := rfl
  unfold Arch.store
  dsimp only
  rw [ha, hr]
  revert hs
  obtain ⟨r, m'⟩ := Memory.store m w _ _
  obtain ⟨r', n'⟩ := Memory.store n w _ _
  rintro ⟨rfl : r = r', hR'⟩
  cases r with
  | error e => exact .throw e ⟨rfl, rfl, hR'⟩
  | ok value => exact .next ⟨rfl, rfl, hR'⟩

/-- No handler tells two memories apart that no access tells apart. -/
theorem effect_alike (hm : Memory.Alike R) (i : Instruction) {s : Arch M} {t : Arch N}
    (h : s.Alike R t) : Effect.Alike R (effect i s) (effect i t) := by
  have hall := h
  obtain ⟨g, c, m⟩ := s
  obtain ⟨g', c', n⟩ := t
  obtain ⟨rfl, rfl, hR⟩ := h
  unfold effect
  cases hop : i.operation <;> dsimp only [handlerArr]
  case lb | lh | lw | lbu | lhu | lwu | ld => exact load_alike hm hall _ _ _
  case sb | sh | sw | sd => exact store_alike hm hall _ _
  case beq | bne | blt | bge | bltu | bgeu => exact branch_alike hall _ _
  case csrrw | csrrc | csrrwi | csrrsi | csrrci => exact csrStatus_alike hall _ _
  case csrrs =>
    unfold execCSRRS
    split_ifs <;> exact csrStatus_alike hall _ _
  case ecall =>
    unfold execECALL
    dsimp only
    split_ifs
    · exact .raise _ _ hall
    · exact .raise _ _ hall
    · exact .raise _ _ hall
    · exact .terminate
  case mret =>
    unfold execMRET
    dsimp only
    split_ifs
    · exact .raise _ _ hall
    · exact .next ⟨rfl, rfl, hR⟩
  case invOp | pause => exact .raise _ _ hall
  case ebreak => exact .ret hall
  case sret => exact .terminate
  all_goals exact .next ⟨rfl, rfl, hR⟩

namespace Hart

theorem assembleLoop_alike (hm : Memory.Alike R) (fuel : Nat) (r : BasicBlockRebuilder)
    {pc : RV64Ptr} (hpc : pc.toNat % 4 = 0) {m : M} {n : N} (hR : R m n) :
    (assembleLoop fuel r pc m).1 = (assembleLoop fuel r pc n).1 ∧
      (assembleLoop fuel r pc m).2.1 = (assembleLoop fuel r pc n).2.1 ∧
      R (assembleLoop fuel r pc m).2.2 (assembleLoop fuel r pc n).2.2 := by
  induction fuel generalizing r pc m n with
  | zero => exact ⟨rfl, rfl, hR⟩
  | succ fuel ih =>
    have hf := hm.fetchWord m n hR pc hpc
    unfold assembleLoop
    revert hf
    obtain ⟨x, m'⟩ := Memory.fetchWord m pc
    obtain ⟨y, n'⟩ := Memory.fetchWord n pc
    rintro ⟨rfl : x = y, hR'⟩
    cases x with
    | error e => exact ⟨rfl, rfl, hR'⟩
    | ok word =>
      dsimp only
      obtain ⟨_ | _, r'⟩ := r.append (Dec.parse word)
      · exact ⟨rfl, rfl, hR'⟩
      · refine ih r' ?_ hR'
        rw [add_mod_four, Nat.add_mod, hpc]
        rfl

variable {h : Hart M} {k : Hart N}

theorem Alike.fetchBB (hm : Memory.Alike R) (hh : h.Alike R k) (hpc : h.pc.toNat % 4 = 0) :
    h.fetchBB.1 = k.fetchBB.1 ∧ h.fetchBB.2.Alike R k.fetchBB.2 := by
  have hlookup : k.bbCache.lookup k.pc = h.bbCache.lookup h.pc := by rw [hh.bbCache, hh.pc]
  unfold Hart.fetchBB
  rw [hlookup, ← hh.pc]
  obtain ⟨_ | _, index, cache⟩ := h.bbCache.lookup h.pc
  · have hbb := assembleLoop_alike hm (BasicBlock.kCapacity - 1)
      (BasicBlockRebuilder.create (cache.bbs index) h.pc) hpc hh.mem
    dsimp only [assembleBB]
    revert hbb
    obtain ⟨x, bb, m⟩ := assembleLoop _ _ _ h.mem
    obtain ⟨y, bb', n⟩ := assembleLoop _ _ _ k.mem
    rintro ⟨rfl : x = y, rfl : bb = bb', hR⟩
    cases x with
    | error e =>
      exact ⟨rfl, ⟨hh.gprf, hh.csrf, hR⟩, rfl, hh.currentInstr, hh.instrsExecuted, hh.hooks⟩
    | ok _ =>
      refine ⟨rfl, Alike.enterBB ?_ index⟩
      exact ⟨⟨hh.gprf, hh.csrf, hR⟩, rfl, hh.currentInstr, hh.instrsExecuted, hh.hooks⟩
  · refine ⟨rfl, Alike.enterBB ?_ index⟩
    exact ⟨hh.toAlike, rfl, hh.currentInstr, hh.instrsExecuted, hh.hooks⟩

theorem Alike.execBBEND (hm : Memory.Alike R) (hh : h.Alike R k) (hpc : h.pc.toNat % 4 = 0) :
    Outcome.Alike R h.execBBEND k.execBBEND := by
  have hf := hh.fetchBB hm hpc
  unfold Hart.execBBEND
  revert hf
  obtain ⟨x, t⟩ := h.fetchBB
  obtain ⟨y, u⟩ := k.fetchBB
  rintro ⟨rfl : x = y, ht⟩
  cases x with
  | error e => exact .thrown e ht
  | ok _ => exact .running ht

theorem Alike.raiseException (hm : Memory.Alike R) (hh : h.Alike R k) (id : ExceptionId) :
    (h.raiseException id).1 = (k.raiseException id).1 ∧
      (h.raiseException id).2.Alike R (k.raiseException id).2 := by
  refine (hh.withArch (hh.toAlike.raiseException id)).fetchBB hm ?_
  have hpc : (h.withArch (h.toArch.raiseException id)).pc = trapVector h.csrf id :=
    GPRF.read_pc_write_pc _ _
  rw [hpc]
  exact trapVector_mod_four h.csrf id

theorem Alike.apply (hm : Memory.Alike R) (hh : h.Alike R k) {e : Effect (Arch M)}
    {e' : Effect (Arch N)} (he : Effect.Alike R e e') : Outcome.Alike R (h.apply e) (k.apply e') := by
  cases he with
  | next ha => exact (hh.withArch ha).execNextInstr
  | ret ha => exact .returned (hh.withArch ha)
  | throw e ha => exact .thrown e (hh.withArch ha)
  | terminate => exact .terminated
  | raise id r ha =>
    have hr := (hh.withArch ha).raiseException hm id
    unfold Hart.apply
    dsimp only
    revert hr
    obtain ⟨x, t⟩ := Hart.raiseException _ id
    obtain ⟨y, u⟩ := Hart.raiseException _ id
    rintro ⟨rfl : x = y, ht⟩
    cases x with
    | error e => exact .thrown e ht
    | ok _ => exact ht.resume r

theorem Alike.step (hm : Memory.Alike R) (hh : h.Alike R k) (hpc : h.pc.toNat % 4 = 0) :
    Outcome.Alike R h.step k.step := by
  unfold Hart.step
  rw [← hh.current]
  cases h.current with
  | none => exact .undefined
  | some i =>
    dsimp only
    split_ifs
    · exact hh.execBBEND hm hpc
    · exact hh.apply hm (effect_alike hm i hh.toAlike)

theorem calls_lockstep (hm : Memory.Alike R) :
    Lockstep Calls Calls Call.OnWord (Call.Alike R) (Outcome.Alike R) := by
  intro o p ho ls o' hword hc
  cases hc with
  | step h =>
    cases ho with
    | running hh =>
      have hpc := hword _ (List.mem_singleton.mpr rfl)
      exact ⟨_, _, .step _, .cons (.step hh) .nil, hh.step hm hpc⟩
  | run hcaller =>
    have hpc := hword _ (List.mem_singleton.mpr rfl)
    cases ho with
    | returned hh =>
      obtain rfl := Option.some.inj hcaller
      exact ⟨_, _, .run rfl, .cons (.run hh) .nil, hh.execBBEND hm hpc⟩
    | thrown e hh =>
      obtain rfl := Option.some.inj hcaller
      exact ⟨_, _, .run rfl, .cons (.run hh) .nil, hh.execBBEND hm hpc⟩
    | running => cases hcaller
    | terminated => cases hcaller
    | undefined => cases hcaller

/-- A hart over one of two memories that no access tells apart does what it does over
the other: the same calls, registers, blocks, hooks and exceptions, as long as it keeps
to words. -/
theorem runs_alike (hm : Memory.Alike R) (hh : h.Alike R k) {ls : List (Call M)} {o : Outcome M}
    (hrun : Run Calls (.returned h) ls o) (hword : ∀ l ∈ ls, l.OnWord) :
    ∃ ks p, Run Calls (.returned k) ks p ∧ List.Forall₂ (Call.Alike R) ls ks ∧
      Outcome.Alike R o p :=
  (calls_lockstep hm).run hrun hword (.returned hh)

end Hart

end Besm.Sim
