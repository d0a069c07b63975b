import Besm.Sim.Alignment
import Besm.Sim.Refinement
import Besm.Sim.Traps

namespace Besm.Exec

/-- Every jump in a block is followed by the end mark. -/
def BasicBlock.Straight (bb : BasicBlock) : Prop :=
  ∀ k i, bb.instrs k = some i → i.isJump = true →
    ∃ e, bb.instrs (k + 1) = some e ∧ e.operation = .bbEnd

namespace BasicBlockRebuilder

variable {r : BasicBlockRebuilder} {instr : Instruction}

def Jumpless (r : BasicBlockRebuilder) : Prop :=
  ∀ k < r.count, ∀ i, r.bb.instrs k = some i → i.isJump = false

theorem Jumpless.setInstr (hr : r.Jumpless) (hj : instr.isJump = false) :
    Jumpless ⟨r.bb.setInstr r.count instr, r.count + 1⟩ := by
  intro k hk i hi
  obtain hlt | rfl := Nat.lt_succ_iff_lt_or_eq.mp hk
  · rw [BasicBlock.setInstr_ne _ _ (by omega)] at hi
    exact hr k hlt i hi
  · rw [BasicBlock.setInstr_same] at hi
    exact Option.some.inj hi ▸ hj

theorem straight_setInstr (hr : r.Jumpless) (hbb : r.bb.Straight) (hj : instr.isJump = false) :
    (r.bb.setInstr r.count instr).Straight := by
  intro k i hi hjump
  have hk : r.count < k := by
    by_contra hle
    have hnone := hr.setInstr hj k (Nat.lt_succ_of_le (Nat.not_lt.mp hle)) i hi
    rw [hjump] at hnone
    cases hnone
  rw [BasicBlock.setInstr_ne _ _ (by omega)] at hi ⊢
  exact hbb k i hi hjump

theorem straight_setOperation (hr : r.Jumpless) (hbb : r.bb.Straight) :
    ((r.bb.setInstr r.count instr).setOperation (r.count + 1) .bbEnd).Straight := by
  intro k i hi hjump
  obtain hlt | rfl | hgt := Nat.lt_trichotomy k r.count
  · rw [BasicBlock.setOperation_ne _ _ (by omega), BasicBlock.setInstr_ne _ _ (by omega)] at hi
    rw [hr k hlt i hi] at hjump
    cases hjump
  · exact BasicBlock.setOperation_same _ _ _
  · by_cases hk : k = r.count + 1
    · obtain ⟨e, he, hend⟩ := BasicBlock.setOperation_same (r.bb.setInstr r.count instr)
        (r.count + 1) .bbEnd
      rw [hk, he] at hi
      obtain rfl := Option.some.inj hi
      rw [Instruction.isJump, hend] at hjump
      cases hjump
    · rw [BasicBlock.setOperation_ne _ _ hk, BasicBlock.setInstr_ne _ _ (by omega)] at hi
      rw [BasicBlock.setOperation_ne _ _ (by omega), BasicBlock.setInstr_ne _ _ (by omega)]
      exact hbb k i hi hjump

end BasicBlockRebuilder

end Besm.Exec

namespace Besm.Sim

open Besm.Exec Besm.Mem Besm.Lib.Transition

/-- The listener of the standalone program: where it takes the next instruction
to be, and the instructions it has traced, each with its address. -/
structure Tracer where
  currentPC : RV64Ptr
  traced : List (RV64Ptr × Instruction)

namespace Tracer

def create : Tracer := ⟨0, []⟩

def onBBFetch (t : Tracer) (bb : BasicBlock) : Tracer := { t with currentPC := bb.pc }

def onInstrExecuted (t : Tracer) (instr : Instruction) : Tracer :=
  ⟨t.currentPC + 4, t.traced ++ [(t.currentPC, instr)]⟩

def hear (t : Tracer) : HookEvent → Tracer
  | .bbFetched bb => t.onBBFetch bb
  | .instrExecuted instr => t.onInstrExecuted instr

def after (hooks : List HookEvent) : Tracer := hooks.foldl hear create

theorem after_append (hooks : List HookEvent) (e : HookEvent) :
    after (hooks ++ [e]) = (after hooks).hear e := by
  simp [after]

end Tracer

def reported (hooks : List HookEvent) : List Instruction :=
  hooks.filterMap fun
    | .bbFetched _ => none
    | .instrExecuted instr => some instr

theorem reported_append (hooks : List HookEvent) (e : HookEvent) :
    reported (hooks ++ [e]) = reported hooks ++ reported [e] :=
  List.filterMap_append

variable {M : Type}

namespace Hart

variable {h h' : Hart M}

/-- The accounts of a hart are those of the instructions applied. -/
structure Exact (h : Hart M) (applied : List (RV64Ptr × Instruction)) : Prop where
  reported : reported h.hooks = applied.map Prod.snd
  instrsExecuted : h.instrsExecuted.toNat = applied.length
  traced : (Tracer.after h.hooks).traced = applied

/-- The listener follows the pointer to the current instruction. -/
def Followed (h : Hart M) : Prop :=
  ∃ p, h.currentInstr = some p ∧
    (Tracer.after h.hooks).currentPC = (h.bbCache.bbs p.index).addr p.pos

/-- So does the program counter, up to the block's end. -/
def Placed (h : Hart M) : Prop :=
  ∀ p ∈ h.currentInstr, ∀ i ∈ h.current, i.operation ≠ .bbEnd →
    h.pc = (h.bbCache.bbs p.index).addr p.pos

/-- The counter does not wrap around at the next instruction. -/
def Counts (h : Hart M) : Prop := h.instrsExecuted.toNat + 1 < 2 ^ 64

instance (h : Hart M) : Decidable h.Counts := inferInstanceAs (Decidable (_ < _))

variable {applied : List (RV64Ptr × Instruction)}

theorem Exact.fetched (hx : h.Exact applied) (hcount : h'.instrsExecuted = h.instrsExecuted)
    (hhooks : h'.hooks = h.hooks ∨ ∃ bb, h'.hooks = h.hooks ++ [.bbFetched bb]) :
    h'.Exact applied := by
  have hlen := hcount ▸ hx.instrsExecuted
  obtain hhooks | ⟨bb, hhooks⟩ := hhooks
  · exact ⟨by rw [hhooks]; exact hx.reported, hlen, by rw [hhooks]; exact hx.traced⟩
  · refine ⟨?_, hlen, ?_⟩
    · rw [hhooks, reported_append]
      exact (List.append_nil _).trans hx.reported
    · rw [hhooks, Tracer.after_append]
      exact hx.traced

/-- The report of an instruction is right if it names the one applied, the
listener is at its address, and the counter does not wrap around. -/
theorem exact_executed_iff (hx : h.Exact applied) {i j : Instruction} {pc : RV64Ptr}
    (hcount : h'.instrsExecuted = h.instrsExecuted + 1)
    (hhooks : h'.hooks = h.hooks ++ [.instrExecuted j]) : h'.Exact (applied ++ [(pc, i)]) ↔
      j = i ∧ (Tracer.after h.hooks).currentPC = pc ∧ h.Counts := by
  have hreported : reported h'.hooks = applied.map Prod.snd ++ [j] := by
    rw [hhooks, reported_append, hx.reported]
    rfl
  have htraced : (Tracer.after h'.hooks).traced =
      applied ++ [((Tracer.after h.hooks).currentPC, j)] := by
    rw [hhooks, Tracer.after_append, ← hx.traced]
    rfl
  have hwrap : h'.instrsExecuted.toNat = applied.length + 1 ↔ h.Counts := by
    rw [hcount, BitVec.toNat_add, ← hx.instrsExecuted, Counts]
    have := h.instrsExecuted.isLt
    change (_ + 1) % 2 ^ 64 = _ ↔ _
    omega
  rw [← hwrap]
  constructor
  · intro hx'
    have hlast := List.append_cancel_left (htraced.symm.trans hx'.traced)
    obtain ⟨hpc, hj⟩ := Prod.mk.inj (List.head_eq_of_cons_eq hlast)
    exact ⟨hj, hpc, hx'.instrsExecuted.trans List.length_append⟩
  · rintro ⟨rfl, rfl, hlen⟩
    exact ⟨by rw [hreported, List.map_append]; rfl, by rw [List.length_append]; exact hlen, htraced⟩

theorem followed_resume (hf : h.Followed) {r : Resume} (hr : h.resume r = .running h') :
    h'.Followed := by
  have hnext : ∀ u : Hart M, u.Followed → u.execNextInstr = .running h' → h'.Followed := by
    rintro u ⟨p, hptr, hpc⟩ hu
    obtain ⟨p', j, hptr', -, rfl⟩ := execNextInstr_running hu
    obtain rfl := Option.some.inj (hptr.symm.trans hptr')
    refine ⟨_, rfl, ?_⟩
    rw [Tracer.after_append, BasicBlock.addr_succ]
    exact congrArg (· + 4) hpc
  cases r with
  | ret => cases hr
  | execNextInstr => exact hnext h hf hr
  | jumpMepc => exact hnext (h.withArch (h.setPC (MEPC.value.get h.csrf.mepc))) hf hr

theorem exact_resume_iff (hx : h.Exact applied) (hf : h.Followed) {p : InstrPtr}
    {j : Instruction} (hptr : h.currentInstr = some p) (hj : h.current = some j) {r : Resume}
    (hr : h.resume r = .running h') (pc : RV64Ptr) (i : Instruction) :
    h'.Exact (applied ++ [(pc, i)]) ↔
      j = i ∧ (h.bbCache.bbs p.index).addr p.pos = pc ∧ h.Counts := by
  have hnext : ∀ u : Hart M, u.hooks = h.hooks → u.instrsExecuted = h.instrsExecuted →
      u.current = some j → u.execNextInstr = .running h' → (h'.Exact (applied ++ [(pc, i)]) ↔
        j = i ∧ (h.bbCache.bbs p.index).addr p.pos = pc ∧ h.Counts) := by
    intro u hhooks hcount hu hstep
    obtain ⟨p', j', -, hj', rfl⟩ := execNextInstr_running hstep
    obtain rfl := Option.some.inj (hu.symm.trans hj')
    obtain ⟨p', hptr', hpc⟩ := hf
    obtain rfl := Option.some.inj (hptr.symm.trans hptr')
    rw [← hpc]
    exact exact_executed_iff hx (congrArg (· + 1) hcount) (congrArg (· ++ _) hhooks)
  cases r with
  | ret => cases hr
  | execNextInstr => exact hnext h rfl rfl hj hr
  | jumpMepc => exact hnext (h.withArch (h.setPC (MEPC.value.get h.csrf.mepc))) rfl rfl hj hr

end Hart

/-- The instruction whose effect a call has applied, with its address, by how
the call came out. One that reaches a block's end, halts at EBREAK or throws
applies none. -/
def Outcome.applied (pc : RV64Ptr) (i : Instruction) : Outcome M → List (RV64Ptr × Instruction)
  | .running _ => if i.operation = .bbEnd then [] else [(pc, i)]
  | .returned _ => if i.operation = .ebreak then [] else [(pc, i)]
  | _ => []

variable [Memory M]

/-- What is about to happen to the instruction at `p` will be reported as it
is. A trap reports the first instruction of its handler, if that can be read. -/
def Hart.Accounts (h : Hart M) (p : InstrPtr) (i : Instruction) : Effect (Arch M) → Prop
  | .next _ => h.pc = (h.bbCache.bbs p.index).addr p.pos ∧ h.Counts
  | .raise id _ r => h.BlockReadable (trapVector h.csrf id) →
      r ≠ .ret ∧ (h.blockAt (trapVector h.csrf id)).2.instrs 0 = some i ∧
        trapVector h.csrf id = h.pc ∧ h.Counts
  | _ => True

instance (h : Hart M) (p : InstrPtr) (i : Instruction) :
    (e : Effect (Arch M)) → Decidable (h.Accounts p i e)
  | .next _ => inferInstanceAs (Decidable (_ ∧ _))
  | .raise _ _ _ => inferInstanceAs (Decidable (_ → _ ∧ _ ∧ _ ∧ _))
  | .ret _ | .throw _ _ | .terminate => .isTrue trivial

namespace Call

def applied : Call M → List (RV64Ptr × Instruction)
  | .run _ => []
  | .step h =>
    match h.current with
    | some i => h.step.applied h.pc i
    | none => []

def Accounted : Call M → Prop
  | .run _ => True
  | .step h => ∀ p ∈ h.currentInstr, ∀ i ∈ h.current, i.operation ≠ .bbEnd →
      h.Accounts p i (effect i h.toArch)

instance : (c : Call M) → Decidable c.Accounted
  | .run _ => .isTrue trivial
  | .step h => inferInstanceAs (Decidable (∀ p ∈ h.currentInstr, ∀ i ∈ h.current, _ → _))

/-- The call raises no exception of the guest whose handler can be read, and
does not make the counter wrap around. -/
def Quiet : Call M → Prop
  | .run _ => True
  | .step h => h.Counts ∧ ∀ i ∈ h.current, ∀ id s r, effect i h.toArch = .raise id s r →
      ¬h.BlockReadable (trapVector h.csrf id)

end Call

namespace Hart

variable {h h' : Hart M}

theorem applied_of_step {i : Instruction} {o : Outcome M} (hcur : h.current = some i)
    (hstep : h.step = o) : (Call.step h).applied = o.applied h.pc i := by
  unfold Call.applied
  dsimp only
  rw [hcur, hstep]

theorem assembleLoop_straight (fuel : Nat) (r : BasicBlockRebuilder) (pc : RV64Ptr) (mem : M)
    (hr : r.Jumpless) (hbb : r.bb.Straight) : (assembleLoop fuel r pc mem).2.1.Straight := by
  induction fuel generalizing r pc mem with
  | zero => exact hbb
  | succ fuel ih =>
    unfold assembleLoop
    obtain ⟨e | word, mem'⟩ := Memory.fetchWord mem pc
    · exact hbb
    · dsimp only
      rcases ha : r.append (Dec.parse word) with ⟨_ | _, r'⟩
      · obtain ⟨-, rfl⟩ := BasicBlockRebuilder.append_false ha
        exact BasicBlockRebuilder.straight_setOperation hr hbb
      · obtain ⟨hj, -, rfl⟩ := BasicBlockRebuilder.append_true ha
        exact ih _ _ mem' (hr.setInstr hj) (BasicBlockRebuilder.straight_setInstr hr hbb hj)

theorem reachable_straight (hr : Reachable h) (index : Nat) : (h.bbCache.bbs index).Straight := by
  refine reachable_assembled (P := BasicBlock.Straight) (fun bb pc mem hbb => ?_) ?_ hr index
  · exact assembleLoop_straight _ _ _ _ (fun k hk => absurd hk (Nat.not_lt_zero k)) hbb
  · intro k i hi hjump
    unfold BasicBlock.create at hi
    dsimp only at hi
    split_ifs at hi
    cases hi
    cases hjump

theorem accounts_fetchBB (h : Hart M) : h.fetchBB.2.instrsExecuted = h.instrsExecuted ∧
    ((∃ e, h.fetchBB.1 = .error e) ∧ h.fetchBB.2.hooks = h.hooks ∨
      ∃ index, h.fetchBB.2.currentInstr = some ⟨index, 0⟩ ∧
        h.fetchBB.2.hooks = h.hooks ++ [.bbFetched (h.fetchBB.2.bbCache.bbs index)]) := by
  unfold fetchBB
  obtain ⟨_ | _, slot, cache⟩ := h.bbCache.lookup h.pc
  · dsimp only
    obtain ⟨e | _, bb, mem⟩ := assembleBB (cache.bbs slot) h.pc h.mem
    · exact ⟨rfl, .inl ⟨⟨e, rfl⟩, rfl⟩⟩
    · exact ⟨rfl, .inr ⟨slot, rfl, rfl⟩⟩
  · exact ⟨rfl, .inr ⟨slot, rfl, rfl⟩⟩

theorem rebuilt_first : Rebuilt fun bb => ∃ i, bb.instrs 0 = some i where
  pc _ _ hbb := hbb
  append r word hr := by
    have hset : ∀ (bb : BasicBlock) k i, (∃ j, bb.instrs 0 = some j) →
        ∃ j, (bb.setInstr k i).instrs 0 = some j := by
      intro bb k i hbb
      by_cases hk : 0 = k
      · exact ⟨i, hk ▸ BasicBlock.setInstr_same _ _ _⟩
      · exact BasicBlock.setInstr_ne bb i hk ▸ hbb
    rcases ha : r.append (Dec.parse word) with ⟨_ | _, r'⟩
    · obtain ⟨-, rfl⟩ := BasicBlockRebuilder.append_false ha
      exact hset _ _ _ (hset _ _ _ hr)
    · obtain ⟨-, -, rfl⟩ := BasicBlockRebuilder.append_true ha
      exact hset _ _ _ hr

theorem followed_fetchBB (hf : h.fetchBB = (.ok (), h')) : h'.Followed := by
  obtain ⟨-, ⟨⟨e, he⟩, -⟩ | ⟨index, hptr, hhooks⟩⟩ := accounts_fetchBB h
  · rw [hf] at he
    cases he
  · rw [hf] at hptr hhooks
    refine ⟨_, hptr, ?_⟩
    rw [hhooks, Tracer.after_append, BasicBlock.addr_zero]
    rfl

theorem followed_step (hf : h.Followed) (hstep : h.step = .running h') : h'.Followed := by
  have hc := h.comes_step
  rw [hstep] at hc
  cases hc with
  | fetched hcur hop ht => exact followed_fetchBB ht
  | @next i s t hcur hop he hnext =>
    exact followed_resume (h := h.withArch s) (r := .execNextInstr) hf hnext
  | trapped hcur hop he ht ho => exact followed_resume (followed_fetchBB ht) ho

section Exact

variable {applied : List (RV64Ptr × Instruction)}

theorem exact_fetchBB (hx : h.Exact applied) {status : Except MemError Unit}
    (hf : h.fetchBB = (status, h')) : h'.Exact applied := by
  obtain ⟨hcount, hhooks⟩ := accounts_fetchBB h
  rw [hf] at hcount hhooks
  obtain ⟨-, hhooks⟩ | ⟨index, -, hhooks⟩ := hhooks
  · exact hx.fetched hcount (.inl hhooks)
  · exact hx.fetched hcount (.inr ⟨_, hhooks⟩)

theorem exact_raiseException (hx : h.Exact applied) {id : ExceptionId}
    {status : Except MemError Unit} (hf : h.raiseException id = (status, h')) :
    h'.Exact applied :=
  exact_fetchBB (h := h.withArch (h.toArch.raiseException id))
    ⟨hx.reported, hx.instrsExecuted, hx.traced⟩ hf

/-- A trap with a handler that can be read is reported as the first instruction
of the handler, at the vector. -/
theorem exact_trapped_iff (hreach : Reachable h) (hx : h.Exact applied) {p : InstrPtr}
    {i : Instruction} {id : ExceptionId} {r : Resume} {t : Hart M} (hend : i.operation ≠ .bbEnd)
    (he : effect i h.toArch = .raise id h.toArch r) (ht : h.raiseException id = (.ok (), t)) :
    (∀ u, (t.resume r).hart? = some u → u.Exact (applied ++ (t.resume r).applied h.pc i)) ↔
      h.Accounts p i (.raise id h.toArch r) := by
  have hread : h.BlockReadable (trapVector h.csrf id) :=
    (raiseException_fst h id).symm.trans (congrArg Prod.fst ht)
  obtain ⟨t', index, ht', hptr, hbb, hbpc, -⟩ := raiseException_ok hreach hread
  obtain rfl := (Prod.mk.inj (ht.symm.trans ht')).2
  have hxt := exact_raiseException hx ht
  obtain ⟨j, hj⟩ : ∃ j, (t.bbCache.bbs index).instrs 0 = some j := by
    have hall := reachable_blocks rebuilt_first ⟨_, rfl⟩ hreach
    have hfirst := fetchBB_blocks (h := h.withArch (h.toArch.raiseException id))
      rebuilt_first.assembleBB hall index
    change ∃ j, ((h.raiseException id).2.bbCache.bbs index).instrs 0 = some j at hfirst
    rwa [ht] at hfirst
  have hop := (raises_ret_iff he).1
  have hcount : t.instrsExecuted = h.instrsExecuted := by
    have hf := (accounts_fetchBB (h.withArch (h.toArch.raiseException id))).1
    change (h.raiseException id).2.instrsExecuted = _ at hf
    rwa [ht] at hf
  by_cases hret : r = .ret
  · subst hret
    refine iff_of_false (fun hall => ?_) fun hall => (hall hread).1 rfl
    have hx' := (hall t rfl).instrsExecuted.symm.trans hxt.instrsExecuted
    have hinv : i.operation ≠ .ebreak := by rw [hop.mp rfl]; decide
    rw [resume, Outcome.applied, if_neg hinv, List.length_append] at hx'
    exact absurd hx' (Nat.succ_ne_self _)
  · obtain ⟨u, hu⟩ := resume_goes_on hptr hj hret
    have hiff := exact_resume_iff hxt (followed_fetchBB ht) hptr
      ((current_of_ptr hptr).trans hj) hu h.pc i
    have hcounts : t.Counts ↔ h.Counts := by rw [Counts, hcount]; rfl
    rw [BasicBlock.addr_zero, hbpc, hcounts] at hiff
    rw [hu, Outcome.applied, if_neg hend]
    constructor
    · intro hall _
      obtain ⟨rfl, hpc, hc⟩ := hiff.mp (hall u rfl)
      exact ⟨hret, hbb ▸ hj, hpc, hc⟩
    · intro hacc v hv
      obtain rfl := Option.some.inj hv
      obtain ⟨-, hi, hpc, hc⟩ := hacc hread
      rw [← hbb, hj] at hi
      exact hiff.mpr ⟨Option.some.inj hi, hpc, hc⟩

theorem exact_step_iff (hreach : Reachable h) (hx : h.Exact applied) (hf : h.Followed) :
    (∀ t, h.step.hart? = some t → t.Exact (applied ++ (Call.step h).applied)) ↔
      (Call.step h).Accounted := by
  obtain ⟨p, hptr, -⟩ := id hf
  have hacc : ∀ i, h.current = some i → ((Call.step h).Accounted ↔
      (i.operation ≠ .bbEnd → h.Accounts p i (effect i h.toArch))) := by
    intro i hcur
    simp [Call.Accounted, hptr, hcur]
  have happlied : ∀ i, h.current = some i → (Call.step h).applied = h.step.applied h.pc i :=
    fun i hcur => applied_of_step hcur rfl
  have hc := h.comes_step
  generalize h.step = o at hc happlied ⊢
  cases hc with
  | undefined hcur =>
    refine iff_of_true (fun t ht => by cases ht) fun q _ i hi => ?_
    cases hcur.symm.trans hi
  | @fetched i t hcur hop ht =>
    rw [hacc i hcur, happlied i hcur, Outcome.applied, if_pos hop, List.append_nil]
    refine iff_of_true (fun u hu => ?_) fun hend => absurd hop hend
    obtain rfl := Option.some.inj hu
    exact exact_fetchBB hx ht
  | @unfetched i e t hcur hop ht =>
    have hnone : (Call.step h).applied = [] := happlied i hcur
    rw [hacc i hcur, hnone, List.append_nil]
    refine iff_of_true (fun u hu => ?_) fun hend => absurd hop hend
    obtain rfl := Option.some.inj hu
    exact exact_fetchBB hx ht
  | @next i s t hcur hop he hnext =>
    have hiff := exact_resume_iff (h := h.withArch s) (r := .execNextInstr)
      ⟨hx.reported, hx.instrsExecuted, hx.traced⟩ hf hptr hcur hnext h.pc i
    rw [hacc i hcur, happlied i hcur, he, Outcome.applied, if_neg hop]
    constructor
    · intro hall _
      obtain ⟨-, hpc, hcount⟩ := hiff.mp (hall t rfl)
      exact ⟨hpc.symm, hcount⟩
    · intro h' u hu
      obtain rfl := Option.some.inj hu
      obtain ⟨hpc, hcount⟩ := h' hop
      exact hiff.mpr ⟨rfl, hpc.symm, hcount⟩
  | @trapped i id r t o hcur hop he ht ho =>
    rw [hacc i hcur, happlied i hcur, he, ← ho, exact_trapped_iff hreach hx (p := p) hop he ht]
    exact ⟨fun h _ => h, fun h => h hop⟩
  | @untrapped i id r e t hcur hop he ht =>
    have hnone : (Call.step h).applied = [] := happlied i hcur
    rw [hacc i hcur, hnone, he, List.append_nil]
    refine iff_of_true (fun u hu => ?_) fun _ hread => ?_
    · obtain rfl := Option.some.inj hu
      exact exact_raiseException hx ht
    · have hfst := raiseException_fst h id
      rw [ht] at hfst
      cases hfst.trans hread
  | @ret i hcur hop he =>
    rw [hacc i hcur, happlied i hcur, he, Outcome.applied, if_pos hop, List.append_nil]
    exact iff_of_true (fun u hu => Option.some.inj hu ▸ hx) fun _ => trivial
  | @throw i e s hcur hop he =>
    have hnone : (Call.step h).applied = [] := happlied i hcur
    rw [hacc i hcur, hnone, he, List.append_nil]
    refine iff_of_true (fun u hu => ?_) fun _ => trivial
    obtain rfl := Option.some.inj hu
    exact ⟨hx.reported, hx.instrsExecuted, hx.traced⟩
  | @terminate i hcur he =>
    rw [hacc i hcur, he]
    exact iff_of_true (fun u hu => by cases hu) fun _ => trivial

end Exact

theorem exact_run {applied : List (RV64Ptr × Instruction)} (hx : h.Exact applied)
    (hh : h.run.hart? = some h') : h'.Exact applied := by
  unfold run at hh
  obtain ⟨t, ht, hend⟩ | ⟨e, t, ht, hend⟩ := h.execBBEND_cases
  · rw [hend] at hh
    exact exact_fetchBB hx (Option.some.inj hh ▸ ht)
  · rw [hend] at hh
    exact exact_fetchBB hx (Option.some.inj hh ▸ ht)

theorem placed_fetchBB (hr : Reachable h) (hf : h.fetchBB = (.ok (), h')) : h'.Placed := by
  intro p hptr i _ _
  obtain ⟨index, hptr', -, hpc, -⟩ := fetchBB_ok (reachable_lruRowers hr) hf
  obtain rfl := Option.some.inj (hptr.symm.trans hptr')
  have hkeep := pc_fetchBB h
  rw [hf] at hkeep
  rw [BasicBlock.addr_zero, hpc]
  exact hkeep

/-- A jump is followed by the block's end, and any other instruction that goes
on by the one four bytes behind it. -/
theorem placed_next (hr : Reachable h) (hp : h.Placed) {i : Instruction}
    (hcur : h.current = some i) (hop : i.operation ≠ .bbEnd) {s : Arch M}
    (he : effect i h.toArch = .next s) (hnext : (h.withArch s).execNextInstr = .running h') :
    h'.Placed := by
  obtain ⟨p, j, hptr, hj, rfl⟩ := execNextInstr_running hnext
  obtain rfl : i = j := Option.some.inj (hcur.symm.trans hj)
  intro q hq k hk hend
  obtain rfl := Option.some.inj hq
  have hi : (h.bbCache.bbs p.index).instrs p.pos = some i := (current_of_ptr hptr).symm.trans hcur
  have hjump : i.isJump = false := by
    by_contra hjump
    obtain ⟨e, he', hend'⟩ := reachable_straight hr p.index p.pos i hi (by simpa using hjump)
    exact hend (Option.some.inj (hk.symm.trans he') ▸ hend')
  have hstep := pc_of_advances (rd_of_current hr hcur) hjump (advances_of_effect hop he)
  rw [BasicBlock.addr_succ]
  exact hstep.trans (congrArg (· + 4) (hp p hptr i hcur hop))

/-- The program counter keeps to the pointer as long as no trap is taken. -/
theorem placed_step (hr : Reachable h) (hp : h.Placed) (hq : (Call.step h).Quiet)
    (hstep : h.step = .running h') : h'.Placed := by
  have hc := h.comes_step
  rw [hstep] at hc
  cases hc with
  | fetched hcur hop ht => exact placed_fetchBB hr ht
  | @next i s t hcur hop he hnext => exact placed_next hr hp hcur hop he hnext
  | @trapped i id r t o hcur hop he ht ho =>
    exact absurd ((raiseException_fst h id).symm.trans (congrArg Prod.fst ht)) (hq.2 i hcur _ _ _ he)

/-- Without a trap whose handler can be read, and without a wrap around, every call is accounted
for. -/
theorem accounted_of_quiet (hp : h.Placed) (hq : (Call.step h).Quiet) :
    (Call.step h).Accounted := by
  intro p hptr i hcur hop
  cases he : effect i h.toArch with
  | next s => exact ⟨hp p hptr i hcur hop, hq.1⟩
  | raise id s r => exact fun hread => absurd hread (hq.2 i hcur _ _ _ he)
  | _ => exact trivial

theorem accounted_of_quiet_run {h₀ : Hart M} (hinit : Initial h₀) {ls : List (Call M)}
    {o : Outcome M} (hrun : Run Calls (.returned h₀) ls o) (hq : ∀ c ∈ ls, c.Quiet) :
    ∀ c ∈ ls, c.Accounted := by
  refine (Run.history (C := Call.Quiet) (I := fun ls o => (∀ t, o.hart? = some t → Reachable t) ∧
    (∀ t, o = .running t → t.Placed) ∧ ∀ c ∈ ls, c.Accounted) ?_ hrun hq ?_).2.2
  swap
  · refine ⟨reachable_initial hinit, fun t ht => ?_, fun c hc => ?_⟩
    · cases ht
    · cases hc
  rintro pre o ls o' ⟨hreach, hplaced, hpre⟩ hq hc
  refine ⟨reachable_call hreach hc, ?_, ?_⟩
  · intro t ht
    cases hc with
    | step u =>
      exact placed_step (hreach u rfl) (hplaced u rfl) (hq _ (List.mem_singleton.mpr rfl)) ht
    | @run _ u hu =>
      exact placed_fetchBB (hreach u (Outcome.hart?_of_caller? hu)) (execBBEND_running ht)
  · rw [List.forall_mem_append]
    refine ⟨hpre, ?_⟩
    cases hc with
    | step u =>
      rw [List.forall_mem_singleton] at hq ⊢
      exact accounted_of_quiet (hplaced u rfl) hq
    | run hu => exact List.forall_mem_singleton.mpr trivial

/-- The hooks report the instructions applied, each at its own address, and the
counter counts them, exactly in the runs whose calls are all accounted for, as
they are when no trap with a readable handler is taken. -/
theorem accounting_exact {h₀ : Hart M} (hinit : Initial h₀) {ls : List (Call M)} {o : Outcome M}
    (hrun : Run Calls (.returned h₀) ls o) :
    ((∀ pre u, pre <+: ls → Run Calls (.returned h₀) pre u →
        ∀ h, u.hart? = some h → h.Exact (pre.flatMap Call.applied)) ↔ ∀ c ∈ ls, c.Accounted) ∧
      ((∀ c ∈ ls, c.Quiet) → ∀ c ∈ ls, c.Accounted) := by
  refine ⟨?_, accounted_of_quiet_run hinit hrun⟩
  refine Run.prefix_iff (K := fun o => (∀ t, o.hart? = some t → Reachable t) ∧
      ∀ t, o = .running t → t.Followed)
    (I := fun ls o => ∀ h, o.hart? = some h → h.Exact (ls.flatMap Call.applied)) ?_ ?_ ?_ hrun
    ⟨reachable_initial hinit, fun t ht => by cases ht⟩ ?_
  · rintro o ls o' hc
    cases hc <;> exact ⟨_, rfl⟩
  · rintro o ls o' ⟨hreach, hfollowed⟩ hc
    refine ⟨reachable_call hreach hc, fun t ht => ?_⟩
    cases hc with
    | step u => exact followed_step (hfollowed u rfl) ht
    | run hu => exact followed_fetchBB (execBBEND_running ht)
  · rintro pre o c o' ⟨hreach, hfollowed⟩ hpre hc
    rw [List.flatMap_append, List.flatMap_singleton]
    cases hc with
    | step u => exact exact_step_iff (hreach u rfl) (hpre u rfl) (hfollowed u rfl)
    | @run _ u hu =>
      refine iff_of_true (fun t ht => ?_) trivial
      change t.Exact (_ ++ [])
      rw [List.append_nil]
      exact exact_run (hpre u (Outcome.hart?_of_caller? hu)) ht
  · intro t ht
    obtain rfl := Option.some.inj ht
    obtain ⟨garbage, mem, rfl⟩ := hinit
    exact ⟨rfl, rfl, rfl⟩

def loopMemory : FlatMemory :=
  { FlatMemory.image [0x02000093, 0x01010113, 0xFE111EE3, 0x30509073, 0x00000073] with
    mapped := fun a => a.toNat < 20 }

theorem accounting_exact_loop : ∃ (h : Hart FlatMemory) (ls : List (Call FlatMemory))
    (e : MemError),
    Run Calls (.returned (create (fun _ => 0) loopMemory)) ls (.thrown e h) ∧
    h.Exact [(0, ⟨1, 0, 0, 32, .addi⟩), (4, ⟨2, 2, 0, 16, .addi⟩), (8, ⟨0, 2, 1, 0x1FFC, .bne⟩),
      (4, ⟨2, 2, 0, 16, .addi⟩), (8, ⟨0, 2, 1, 0x1FFC, .bne⟩), (12, ⟨0, 1, 0, 0x305, .csrrw⟩)] := by
  let h₀ := create (fun _ => 0) loopMemory
  have hsome : (h₀.runFor 8).isSome = true := by decide +kernel
  obtain ⟨g, hg⟩ := Option.isSome_iff_exists.mp hsome
  have hthrown : ∃ e h, g.step = .thrown e h := by
    have ht : (match g.step with | .thrown _ _ => true | _ => false) = true :=
      of_runFor (f := fun g => match g.step with | .thrown _ _ => true | _ => false) hg
        (by decide +kernel)
    cases hs : g.step with
    | thrown e h => exact ⟨e, h, rfl⟩
    | _ => rw [hs] at ht; cases ht
  obtain ⟨e, h, hs⟩ := hthrown
  have hrun : Run Calls (.returned h₀) (h₀.callsFor 9) (.thrown e h) := hs ▸ runs_callsFor_step hg
  have hall : ∀ c ∈ h₀.callsFor 9, c.Accounted := by decide +kernel
  have hx := (accounting_exact ⟨_, _, rfl⟩ hrun).1.mpr hall _ _ (List.prefix_refl _) hrun h rfl
  have happlied : (h₀.callsFor 9).flatMap Call.applied = [(0, ⟨1, 0, 0, 32, .addi⟩),
      (4, ⟨2, 2, 0, 16, .addi⟩), (8, ⟨0, 2, 1, 0x1FFC, .bne⟩), (4, ⟨2, 2, 0, 16, .addi⟩),
      (8, ⟨0, 2, 1, 0x1FFC, .bne⟩), (12, ⟨0, 1, 0, 0x305, .csrrw⟩)] := by
    decide +kernel
  exact ⟨h, _, e, hrun, happlied ▸ hx⟩

/-- A guest that adds and then calls into its environment: the addition, at the
trap's vector, is reported in place of the call. -/
theorem ecall_unreported : ∃ (h : Hart FlatMemory) (ls : List (Call FlatMemory)),
    Run Calls (.returned (Hart.create (fun _ => 0) (FlatMemory.image [0x00500093, 0x00000073])))
      ls (.running h) ∧
    ls.flatMap Call.applied = [(0, ⟨1, 0, 0, 5, .addi⟩), (4, ⟨0, 0, 0, 0, .ecall⟩)] ∧
    reported h.hooks = [⟨1, 0, 0, 5, .addi⟩, ⟨1, 0, 0, 5, .addi⟩] ∧
    (Tracer.after h.hooks).traced = [(0, ⟨1, 0, 0, 5, .addi⟩), (0, ⟨1, 0, 0, 5, .addi⟩)] ∧
    ¬h.Exact (ls.flatMap Call.applied) := by
  let h₀ := Hart.create (fun _ => 0) (FlatMemory.image [0x00500093, 0x00000073])
  have hsome : (h₀.runFor 2).isSome = true := by decide +kernel
  obtain ⟨h, hr⟩ := Option.isSome_iff_exists.mp hsome
  obtain ⟨u, hu, hs⟩ := Option.bind_eq_some_iff.mp hr
  obtain ⟨g, hg, hs'⟩ := Option.bind_eq_some_iff.mp hu
  have hcurg : g.current = some ⟨1, 0, 0, 5, .addi⟩ :=
    of_runFor (f := fun g => g.current) hg (by decide +kernel)
  have hcuru : u.current = some ⟨0, 0, 0, 0, .ecall⟩ :=
    of_runFor (f := fun u => u.current) hu (by decide +kernel)
  have hpcg : g.pc = 0 := of_runFor (f := fun g => g.pc) hg (by decide +kernel)
  have hpcu : u.pc = 4 := of_runFor (f := fun u => u.pc) hu (by decide +kernel)
  have hreported : reported h.hooks = [⟨1, 0, 0, 5, .addi⟩, ⟨1, 0, 0, 5, .addi⟩] :=
    of_runFor (f := fun h => reported h.hooks) hr (by decide +kernel)
  have hstepg : g.step = .running u := Outcome.running?_eq_some.mp hs'
  have hstepu : u.step = .running h := Outcome.running?_eq_some.mp hs
  have hrun : Run Calls (.returned h₀) ([.run h₀] ++ [.step g] ++ [.step u]) (.running h) := by
    refine .tail (t := .running u) (.tail (t := .running g) (.single ?_) (hstepg ▸ .step g))
      (hstepu ▸ .step u)
    have hfirst : h₀.run = .running g := Outcome.running?_eq_some.mp hg
    exact hfirst ▸ .run rfl
  have happlied : ([.run h₀] ++ [.step g] ++ [.step u] : List (Call FlatMemory)).flatMap
      Call.applied = [(0, ⟨1, 0, 0, 5, .addi⟩), (4, ⟨0, 0, 0, 0, .ecall⟩)] := by
    rw [List.flatMap_append, List.flatMap_append, List.flatMap_singleton, List.flatMap_singleton,
      List.flatMap_singleton, applied_of_step hcurg hstepg, applied_of_step hcuru hstepu, hpcg, hpcu]
    rfl
  refine ⟨h, _, hrun, happlied, hreported,
    of_runFor (f := fun h => (Tracer.after h.hooks).traced) hr (by decide +kernel), fun hx => ?_⟩
  have hcalls := hx.reported
  rw [happlied, hreported] at hcalls
  cases hcalls

end Hart

end Besm.Sim
