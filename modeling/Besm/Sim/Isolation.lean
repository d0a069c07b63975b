import Besm.Memory.Flat
import Besm.Sim.Traps

namespace Besm.Exec

open Besm.Util

theorem CSRField.get_bits {f : CSRField} {bits offset : Nat} (hspec : f.spec ≠ .wpri)
    (hmask : f.mask = bitMask 64 bits offset) (raw : RV64UDWord) :
    f.get raw = extractBits bits offset raw := by
  rw [← extractMasked_bitMask raw, ← hmask]
  unfold get
  split
  · contradiction
  · rfl

theorem CSRField.unchecked_bits {f : CSRField} {bits offset : Nat} (hspec : f.spec = .unchecked)
    (hmask : f.mask = bitMask 64 bits offset) (value raw : RV64UDWord) :
    f.get raw = extractBits bits offset raw ∧
      (f.set value raw).2 = changeBits bits offset raw value := by
  have hne : f.spec ≠ .wpri := by
    rw [hspec]
    decide
  refine ⟨get_bits hne hmask raw, ?_⟩
  unfold set
  rw [hspec, hmask]
  exact insertMasked_bitMask value raw

theorem mstatus_mie (value raw : RV64UDWord) : MStatus.mie.get raw = extractBits 1 3 raw ∧
    (MStatus.mie.set value raw).2 = changeBits 1 3 raw value :=
  CSRField.unchecked_bits rfl (by decide) value raw

theorem mstatus_mpie (value raw : RV64UDWord) : MStatus.mpie.get raw = extractBits 1 7 raw ∧
    (MStatus.mpie.set value raw).2 = changeBits 1 7 raw value :=
  CSRField.unchecked_bits rfl (by decide) value raw

theorem mstatus_mpp (value raw : RV64UDWord) : MStatus.mpp.get raw = extractBits 2 11 raw ∧
    (MStatus.mpp.set value raw).2 = changeBits 2 11 raw value :=
  CSRField.unchecked_bits rfl (by decide) value raw

theorem mcause_interrupt (value raw : RV64UDWord) :
    MCause.interrupt.get raw = extractBits 1 63 raw ∧
      (MCause.interrupt.set value raw).2 = changeBits 1 63 raw value :=
  CSRField.unchecked_bits rfl (by decide) value raw

theorem mcause_exceptionCode (value raw : RV64UDWord) :
    MCause.exceptionCode.get raw = extractBits 63 0 raw ∧
      (MCause.exceptionCode.set value raw).2 = changeBits 63 0 raw value :=
  CSRField.unchecked_bits rfl (by decide) value raw

/-- Every control register that exists belongs to machine mode. -/
theorem CSRF.registers_machine {id : RV64UDWord} {reg : ICSR} (h : registers id = some reg) :
    registerPrivillege id = privillegeMachine := by
  unfold registers at h
  split_ifs at h with h1 h2 h3 h4 h5
  all_goals
    subst id
    decide

end Besm.Exec

namespace Besm.Sim

open Besm.Exec Besm.Mem Besm.Util Besm.Lib.Transition

/-- The control registers after the trap of `id` at `pc`: what the entry sets
it takes from the old state, and it sets nothing else. -/
structure TrapEntered (c : CSRF) (id : ExceptionId) (pc : RV64Ptr) (c' : CSRF) : Prop where
  privillege : c'.privillege = privillegeMachine
  mtvec : c'.mtvec = c.mtvec
  mhartid : c'.mhartid = c.mhartid
  mcause : c'.mcause = id.code
  mepc : c'.mepc = if MEPC.valueValidator pc = true then pc else c.mepc
  mpie : MStatus.mpie.get c'.mstatus = MStatus.mie.get c.mstatus
  mie : MStatus.mie.get c'.mstatus = 0
  mpp : MStatus.mpp.get c'.mstatus = c.privillege
  others : ∀ i, i ≠ 3 → i ≠ 7 → i ≠ 11 → i ≠ 12 → c'.mstatus.getLsbD i = c.mstatus.getLsbD i

theorem mstatus_trapCSRF (c : CSRF) (id : ExceptionId) (pc : RV64Ptr) :
    (trapCSRF c id pc).mstatus =
      changeBits 2 11 (changeBits 1 3 (changeBits 1 7 c.mstatus (extractBits 1 3 c.mstatus)) 0)
        c.privillege := by
  unfold trapCSRF
  dsimp only
  rw [(mstatus_mpp _ _).2, (mstatus_mie _ _).2, (mstatus_mpie _ _).2, (mstatus_mie 0 _).1]

theorem mcause_trapCSRF (c : CSRF) (id : ExceptionId) (pc : RV64Ptr) :
    (trapCSRF c id pc).mcause = changeBits 63 0 (changeBits 1 63 c.mcause 0) id.code := by
  unfold trapCSRF
  dsimp only
  rw [(mcause_exceptionCode _ _).2, (mcause_interrupt _ _).2]

theorem trapEntered_trapCSRF {c : CSRF} (id : ExceptionId) (pc : RV64Ptr)
    (hp : c.privillege.toNat < 4) : TrapEntered c id pc (trapCSRF c id pc) where
  privillege := rfl
  mtvec := rfl
  mhartid := rfl
  mcause := by
    rw [mcause_trapCSRF]
    apply BitVec.eq_of_getLsbD_eq
    intro i hi
    rw [getLsbD_changeBits _ _ _ _ _ hi]
    split_ifs with hlow
    · rfl
    · obtain rfl : i = 63 := by omega
      rw [getLsbD_changeBits _ _ _ _ _ hi, if_pos (by omega)]
      cases id <;> decide
  mepc := mepc_trapCSRF c id pc
  mpie := by
    rw [mstatus_trapCSRF, (mstatus_mpie 0 _).1, (mstatus_mie 0 _).1,
      extractBits_changeBits_apart _ _ (by omega) (by omega),
      extractBits_changeBits_apart _ _ (by omega) (by omega), extractBits_changeBits _ _ (by omega),
      extractBits_of_lt _ (toNat_extractBits_lt _ _ _)]
  mie := by
    rw [mstatus_trapCSRF, (mstatus_mie 0 _).1,
      extractBits_changeBits_apart _ _ (by omega) (by omega), extractBits_changeBits _ _ (by omega),
      extractBits_of_lt _ (by decide)]
  mpp := by
    rw [mstatus_trapCSRF, (mstatus_mpp 0 _).1, extractBits_changeBits _ _ (by omega),
      extractBits_of_lt _ hp]
  others := by
    intro i h3 h7 h11 h12
    rw [mstatus_trapCSRF]
    by_cases hi : i < 64
    · rw [getLsbD_changeBits _ _ _ _ _ hi, if_neg (by omega), getLsbD_changeBits _ _ _ _ _ hi,
        if_neg (by omega), getLsbD_changeBits _ _ _ _ _ hi, if_neg (by omega)]
    · rw [BitVec.getLsbD_of_ge _ _ (by omega), BitVec.getLsbD_of_ge _ _ (by omega)]

/-- The privilege levels whose isolation is at stake. -/
def LowerPrivillege (c : CSRF) : Prop :=
  c.privillege = privillegeUser ∨ c.privillege = privillegeSupervisor

namespace LowerPrivillege

variable {c : CSRF} (hlow : LowerPrivillege c)
include hlow

theorem ne_machine : c.privillege ≠ privillegeMachine := by
  obtain h | h := hlow <;> rw [h] <;> decide

theorem toNat_lt : c.privillege.toNat < 4 := by
  obtain h | h := hlow <;> rw [h] <;> decide

theorem not_fit {id : RV64UDWord} {reg : ICSR} (hreg : CSRF.registers id = some reg) :
    c.fitPrivillege id = false :=
  decide_eq_false fun hfit =>
    hlow.ne_machine (hfit.symm.trans (CSRF.registers_machine hreg))

theorem update_refused (id : RV64UDWord) (f : RV64UDWord → RV64UDWord) :
    c.update id f = (none, c) := by
  obtain hu | ⟨reg, hfit, hreg, -⟩ := c.update_cases id f
  · exact hu
  · rw [hlow.not_fit hreg] at hfit
    cases hfit

theorem read_refused (id : RV64UDWord) : c.read id = none := by
  unfold CSRF.read
  cases hreg : CSRF.registers id with
  | none => simp
  | some reg => simp [hlow.not_fit hreg]

end LowerPrivillege

variable {M : Type}

theorem csrf_of_advances [Memory M] {i : Instruction} {s s' : Arch M} (h : Advances i s s')
    (hlow : LowerPrivillege s.csrf) : s'.csrf = s.csrf := by
  cases h with
  | csrWrite f hf reg hfit hreg =>
    rw [hlow.not_fit hreg] at hfit
    cases hfit
  | mret hpriv => exact absurd hpriv hlow.ne_machine
  | _ => rfl

namespace Hart

variable [Memory M]

def Traps (h : Hart M) (id : ExceptionId) : Prop :=
  ∃ i r, h.current = some i ∧ i.operation ≠ .bbEnd ∧ effect i h.toArch = .raise id h.toArch r

/-- Below machine mode a step leaves the control registers alone, or enters a trap. -/
theorem csrf_of_next {h h' : Hart M} (hlow : LowerPrivillege h.csrf) (hn : h.Next h') :
    h'.csrf = h.csrf ∨ ∃ id, h.Traps id ∧ h'.csrf = trapCSRF h.csrf id h.pc ∧
      ∀ x : Register, x < 32 → h'.read x = h.read x := by
  have hread : ∀ id, ∀ x : Register, x < 32 → (h.raiseException id).2.read x = h.read x := by
    intro id x hx
    change (h.raiseException id).2.gprf.read x = _
    rw [gprf_raiseException]
    exact GPRF.read_write_of_ne _ _ fun he => absurd (he ▸ hx) (by decide)
  cases moves_of_next hn with
  | fetch => exact .inl (csrf_fetchBB h)
  | next hcur hop he => exact .inl (csrf_of_advances (advances_of_effect hop he) hlow)
  | ret hcur hop he => exact .inl (congrArg Arch.csrf (ret_of_effect he).1)
  | throw hcur hop he => exact .inl (throw_of_effect he).2
  | raise hcur hop he =>
    exact .inr ⟨_, ⟨_, _, hcur, hop, he⟩, csrf_raiseException h _, hread _⟩
  | resume hcur hop he hok hr =>
    obtain ⟨-, -, -, hcsrf, -, hx, -⟩ := resume_running hr
    exact .inr ⟨_, ⟨_, _, hcur, hop, he⟩, hcsrf.trans (csrf_raiseException h _),
      fun x hlt => (hx x hlt).trans (hread _ x hlt)⟩

end Hart

def Arch.withCSRF (c : CSRF) (s : Arch M) : Arch M := { s with csrf := c }

theorem branch_withCSRF (c : CSRF) (s : Arch M) (i : Instruction) (taken : Bool) :
    (s.withCSRF c).branch i taken = (s.branch i taken).map (Arch.withCSRF c) := by
  cases taken <;> rfl

theorem load_withCSRF [Memory M] (c : CSRF) (s : Arch M) (i : Instruction) (w : Width)
    (extend : BitVec (8 * w.size) → RV64UDWord) :
    (s.withCSRF c).load i w extend = (s.load i w extend).map (Arch.withCSRF c) := by
  have ha : (s.withCSRF c).address i = s.address i := rfl
  have hm : (s.withCSRF c).mem = s.mem := rfl
  unfold Arch.load
  rw [ha, hm]
  obtain ⟨_ | value, mem⟩ := Memory.load s.mem w (s.address i) <;> rfl

theorem store_withCSRF [Memory M] (c : CSRF) (s : Arch M) (i : Instruction) (w : Width) :
    (s.withCSRF c).store i w = (s.store i w).map (Arch.withCSRF c) := by
  have ha : (s.withCSRF c).address i = s.address i := rfl
  have hr : (s.withCSRF c).read i.rs2 = s.read i.rs2 := rfl
  have hm : (s.withCSRF c).mem = s.mem := rfl
  unfold Arch.store
  rw [ha, hr, hm]
  obtain ⟨_ | value, mem⟩ := Memory.store s.mem w (s.address i) _ <;> rfl

/-- Below machine mode the effect of an instruction does not depend on the
control registers, which it neither reads nor writes. -/
theorem effect_withCSRF [Memory M] {c : CSRF} {s : Arch M} (hlow : LowerPrivillege s.csrf)
    (hp : c.privillege = s.csrf.privillege) (i : Instruction) :
    effect i (s.withCSRF c) = (effect i s).map (Arch.withCSRF c) := by
  have hlow' : LowerPrivillege c := by
    unfold LowerPrivillege
    rwa [hp]
  have hupdate : ∀ f g : RV64UDWord → RV64UDWord,
      (s.withCSRF c).csrStatus i (c.update i.immidiate f) =
        (s.csrStatus i (s.csrf.update i.immidiate g)).map (Arch.withCSRF c) := by
    intro f g
    rw [hlow.update_refused, hlow'.update_refused]
    rfl
  unfold effect
  cases i.operation <;> dsimp only [handlerArr]
  case beq | bne | blt | bge | bltu | bgeu => exact branch_withCSRF c s i _
  case lb | lh | lw | lbu | lhu | lwu | ld => exact load_withCSRF c s i _ _
  case sb | sh | sw | sd => exact store_withCSRF c s i _
  case ecall =>
    dsimp only [execECALL, Arch.withCSRF]
    rw [hp]
    split_ifs <;> rfl
  case mret =>
    unfold execMRET
    have hne : (s.withCSRF c).csrf.privillege ≠ privillegeMachine := hlow'.ne_machine
    rw [if_pos hlow.ne_machine, if_pos hne]
    rfl
  case csrrw | csrrc | csrrwi | csrrsi | csrrci => exact hupdate _ _
  case csrrs =>
    unfold execCSRRS
    split_ifs
    · change (s.withCSRF c).csrStatus i (c.read i.immidiate, c) = _
      rw [hlow.read_refused, hlow'.read_refused]
      rfl
    · exact hupdate _ _
  all_goals rfl

def Hart.withCSRF (c : CSRF) (h : Hart M) : Hart M := { h with csrf := c }

def Outcome.withCSRF (c : CSRF) : Outcome M → Outcome M
  | .running h => .running (h.withCSRF c)
  | .returned h => .returned (h.withCSRF c)
  | .thrown e h => .thrown e (h.withCSRF c)
  | .terminated => .terminated
  | .undefined => .undefined

theorem Outcome.hart?_withCSRF (c : CSRF) (o : Outcome M) :
    (o.withCSRF c).hart? = o.hart?.map (Hart.withCSRF c) := by
  cases o <;> rfl

namespace Hart

theorem execNextInstr_withCSRF (c : CSRF) (h : Hart M) :
    (h.withCSRF c).execNextInstr = h.execNextInstr.withCSRF c := by
  have hp : (h.withCSRF c).currentInstr = h.currentInstr := rfl
  have hc : (h.withCSRF c).current = h.current := rfl
  unfold execNextInstr
  rw [hp, hc]
  obtain _ | p := h.currentInstr <;> obtain _ | i := h.current <;> rfl

variable [Memory M]

theorem fetchBB_withCSRF (c : CSRF) (h : Hart M) :
    (h.withCSRF c).fetchBB = (h.fetchBB.1, h.fetchBB.2.withCSRF c) := by
  have hcache : (h.withCSRF c).bbCache = h.bbCache := rfl
  have hpc : (h.withCSRF c).pc = h.pc := rfl
  have hm : (h.withCSRF c).mem = h.mem := rfl
  unfold fetchBB
  rw [hcache, hpc, hm]
  obtain ⟨_ | _, index, cache⟩ := h.bbCache.lookup h.pc
  · dsimp only
    obtain ⟨_ | _, bb, mem⟩ := assembleBB (cache.bbs index) h.pc h.mem <;> rfl
  · rfl

theorem execBBEND_withCSRF (c : CSRF) (h : Hart M) :
    (h.withCSRF c).execBBEND = h.execBBEND.withCSRF c := by
  unfold execBBEND
  rw [fetchBB_withCSRF]
  obtain ⟨_ | _, t⟩ := h.fetchBB <;> rfl

theorem apply_withCSRF (c : CSRF) (h : Hart M) {e : Effect (Arch M)}
    (hquiet : ∀ id s r, e ≠ .raise id s r) :
    (h.withCSRF c).apply (e.map (Arch.withCSRF c)) = (h.apply e).withCSRF c := by
  cases e with
  | next s => exact execNextInstr_withCSRF c (h.withArch s)
  | raise id s r => exact absurd rfl (hquiet id s r)
  | ret s => rfl
  | throw e s => rfl
  | terminate => rfl

theorem traps_withCSRF {c : CSRF} {h : Hart M} (hlow : LowerPrivillege h.csrf)
    (hp : c.privillege = h.csrf.privillege) (id : ExceptionId) :
    (h.withCSRF c).Traps id ↔ h.Traps id := by
  have he : ∀ i, effect i (h.withCSRF c).toArch = (effect i h.toArch).map (Arch.withCSRF c) :=
    effect_withCSRF hlow hp
  constructor
  · rintro ⟨i, r, hcur, hop, hraise⟩
    rw [he] at hraise
    cases hi : effect i h.toArch with
    | raise id' s r' =>
      obtain ⟨rfl, -⟩ := raises_of_effect hi
      rw [hi] at hraise
      cases hraise
      exact ⟨i, r, hcur, hop, hi⟩
    | _ =>
      rw [hi] at hraise
      cases hraise
  · rintro ⟨i, r, hcur, hop, hraise⟩
    exact ⟨i, r, hcur, hop, by rw [he, hraise]; rfl⟩

/-- A step that does not trap is the same step under other control registers. -/
theorem step_withCSRF {c : CSRF} {h : Hart M} (hlow : LowerPrivillege h.csrf)
    (hp : c.privillege = h.csrf.privillege) (hquiet : ∀ id, ¬h.Traps id) :
    (h.withCSRF c).step = h.step.withCSRF c := by
  have hcur : (h.withCSRF c).current = h.current := rfl
  unfold step
  rw [hcur]
  cases hi : h.current with
  | none => rfl
  | some i =>
    by_cases hop : i.operation = .bbEnd
    · simp only [hop, if_true]
      exact execBBEND_withCSRF c h
    · simp only [hop, if_false]
      have he : effect i (h.withCSRF c).toArch = (effect i h.toArch).map (Arch.withCSRF c) :=
        effect_withCSRF hlow hp i
      rw [he]
      refine apply_withCSRF c h fun id s r hraise => hquiet id ⟨i, r, hi, hop, ?_⟩
      rw [hraise, (raises_of_effect hraise).1]

/-- A step before the first trap, also a new call of `run`, with the registers
and the memory it leaves. -/
inductive Untrapped : Hart M → List (GPRF × M) → Hart M → Prop
  | step {h h' : Hart M} (hquiet : ∀ id, ¬h.Traps id) (hs : h.step.hart? = some h') :
      Untrapped h [(h'.gprf, h'.mem)] h'
  | run {h h' : Hart M} (hs : h.run.hart? = some h') : Untrapped h [(h'.gprf, h'.mem)] h'

theorem Untrapped.csrf {h h' : Hart M} {ls : List (GPRF × M)} (hlow : LowerPrivillege h.csrf)
    (hu : Untrapped h ls h') : h'.csrf = h.csrf := by
  cases hu with
  | step hquiet hs =>
    obtain hc | ⟨id, ht, -⟩ := csrf_of_next hlow (.inl hs)
    · exact hc
    · exact absurd ht (hquiet id)
  | run hs =>
    rw [Hart.run, hart?_execBBEND] at hs
    exact Option.some.inj hs ▸ csrf_fetchBB h

/-- Two harts that differ in the values of their control registers only. -/
def Twins (c : CSRF) (h t : Hart M) : Prop :=
  t = h.withCSRF c ∧ LowerPrivillege h.csrf ∧ c.privillege = h.csrf.privillege

theorem twins_simulate (c : CSRF) : Simulates (Untrapped (M := M)) Untrapped (Twins c) := by
  rintro h _ ⟨rfl, hlow, hp⟩ ls h' hu
  have hcsrf := hu.csrf hlow
  refine ⟨h'.withCSRF c, Run.single ?_, rfl, hcsrf ▸ hlow, hcsrf ▸ hp⟩
  cases hu with
  | step hquiet hs =>
    have hs' : (h.withCSRF c).step.hart? = some (h'.withCSRF c) := by
      rw [step_withCSRF hlow hp hquiet, Outcome.hart?_withCSRF, hs]
      rfl
    exact .step (fun id ht => hquiet id ((traps_withCSRF hlow hp id).mp ht)) hs'
  | run hs =>
    have hs' : (h.withCSRF c).run.hart? = some (h'.withCSRF c) := by
      change (h.withCSRF c).execBBEND.hart? = _
      rw [execBBEND_withCSRF, Outcome.hart?_withCSRF]
      exact congrArg (Option.map (Hart.withCSRF c)) hs
    exact .run hs'

/-- Below machine mode the control registers change only by the entry into a
trap, which leaves the other registers alone; and until the first trap a run
does not depend on them. -/
theorem csrs_isolated {h : Hart M} (hlow : LowerPrivillege h.csrf) :
    (∀ h', h.Next h' → h'.csrf = h.csrf ∨ ∃ id, h.Traps id ∧
      h'.csrf = trapCSRF h.csrf id h.pc ∧ TrapEntered h.csrf id h.pc h'.csrf ∧
      ∀ x : Register, x < 32 → h'.read x = h.read x) ∧
    ∀ c : CSRF, c.privillege = h.csrf.privillege → ∀ ls h', Run Untrapped h ls h' →
      Run Untrapped (h.withCSRF c) ls (h'.withCSRF c) ∧
      (∀ id, (h'.withCSRF c).Traps id ↔ h'.Traps id) ∧
      ((∀ id, ¬h'.Traps id) → (h'.withCSRF c).step = h'.step.withCSRF c) := by
  refine ⟨fun h' hn => ?_, fun c hp ls h' hrun => ?_⟩
  · refine (csrf_of_next hlow hn).imp_right fun ⟨id, ht, hc, hx⟩ => ⟨id, ht, hc, ?_, hx⟩
    rw [hc]
    exact trapEntered_trapCSRF id h.pc hlow.toNat_lt
  · obtain ⟨_, hrun', rfl, hlow', hp'⟩ := (twins_simulate c).run hrun ⟨rfl, hlow, hp⟩
    exact ⟨hrun', traps_withCSRF hlow' hp', step_withCSRF hlow' hp'⟩

/-- A hart in user mode, before an addition and a write to the trap vector. -/
def userHart : Hart FlatMemory :=
  (Hart.create (fun _ => 0) (FlatMemory.image [0x00500093, 0x30509073])).withCSRF
    { CSRF.create with privillege := privillegeUser }

/-- Its twin with another trap vector makes the same addition and traps too, and
the trap is all that happens to the control registers. -/
theorem csrs_isolated_user :
    let c := { CSRF.create with privillege := privillegeUser, mtvec := 16 }
    ∃ ls h t, Run Untrapped userHart ls h ∧ ls.length = 2 ∧ h.read 1 = 5 ∧
      Run Untrapped (userHart.withCSRF c) ls (h.withCSRF c) ∧
      (h.withCSRF c).Traps .illegalInstr ∧ h.Next t ∧
      TrapEntered h.csrf .illegalInstr h.pc t.csrf ∧ t.read 1 = 5 := by
  intro c
  have hsome : (userHart.runFor 2).isSome = true := by decide +kernel
  obtain ⟨t, ht⟩ := Option.isSome_iff_exists.mp hsome
  obtain ⟨h, hr, hstep⟩ := Option.bind_eq_some_iff.mp ht
  obtain ⟨g, hg, hgstep⟩ := Option.bind_eq_some_iff.mp hr
  have hlow : LowerPrivillege h.csrf :=
    .inl (of_runFor (f := fun h => h.csrf.privillege) hr (by decide +kernel))
  have hcurg : g.current = some ⟨1, 0, 0, 5, .addi⟩ :=
    of_runFor (f := fun g => g.current) hg (by decide +kernel)
  have hcurh : h.current = some ⟨0, 1, 0, 0x305, .csrrw⟩ :=
    of_runFor (f := fun h => h.current) hr (by decide +kernel)
  have hadds : ∀ id, ¬g.Traps id := by
    rintro id ⟨i, r, hi, -, he⟩
    obtain rfl := Option.some.inj (hcurg.symm.trans hi)
    cases he
  have htraps : h.Traps .illegalInstr := by
    refine ⟨_, .execNextInstr, hcurh, by decide, ?_⟩
    change h.toArch.csrStatus _ (h.csrf.update 0x305 _) = _
    rw [hlow.update_refused]
    rfl
  have hrun : Run Untrapped userHart ([(g.gprf, g.mem)] ++ [(h.gprf, h.mem)]) h := by
    refine .tail (.single (.run ?_)) (.step hadds ?_)
    · rw [Outcome.running?_eq_some.mp hg]
      rfl
    · rw [Outcome.running?_eq_some.mp hgstep]
      rfl
  have hnext : h.Next t := .inl (by rw [Outcome.running?_eq_some.mp hstep]; rfl)
  obtain ⟨htwin, htraps', -⟩ := (csrs_isolated (h := userHart) (.inl rfl)).2 c rfl _ _ hrun
  refine ⟨_, h, t, hrun, rfl, ?_, htwin, (htraps' _).mpr htraps, hnext, ?_, ?_⟩
  · exact of_runFor (f := fun h => h.read 1) hr (by decide +kernel)
  · obtain hsame | ⟨id, ⟨i, r, hi, -, he⟩, -, hentered, -⟩ := (csrs_isolated hlow).1 t hnext
    · have hhigh : t.csrf.privillege = privillegeMachine :=
        of_runFor (f := fun h => h.csrf.privillege) ht (by decide +kernel)
      exact absurd (hsame ▸ hhigh) hlow.ne_machine
    · obtain ⟨i', r', hi', -, he'⟩ := htraps
      obtain rfl := Option.some.inj (hi.symm.trans hi')
      cases he.symm.trans he'
      exact hentered
  · exact of_runFor (f := fun h => h.read 1) ht (by decide +kernel)

end Hart

end Besm.Sim
