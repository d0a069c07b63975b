import Besm.Sim.Effects
import Besm.Sim.Hart

namespace Besm.Sim

open Besm.Exec Besm.Mem Besm.Lib.Transition

variable {M : Type}

namespace Hart

section Fetch

variable [Memory M]

@[simp] theorem gprf_fetchBB (h : Hart M) : h.fetchBB.2.gprf = h.gprf := by
  unfold fetchBB
  split
  · rfl
  · split <;> rfl

@[simp] theorem csrf_fetchBB (h : Hart M) : h.fetchBB.2.csrf = h.csrf := by
  unfold fetchBB
  split
  · rfl
  · split <;> rfl

theorem pc_fetchBB (h : Hart M) : h.fetchBB.2.pc = h.pc :=
  congrArg (fun g => GPRF.read g GPRF.pc) (gprf_fetchBB h)

@[simp] theorem csrf_raiseException (h : Hart M) (id : ExceptionId) :
    (h.raiseException id).2.csrf = trapCSRF h.csrf id h.pc :=
  csrf_fetchBB _

@[simp] theorem gprf_raiseException (h : Hart M) (id : ExceptionId) :
    (h.raiseException id).2.gprf = h.gprf.write GPRF.pc (trapVector h.csrf id) :=
  gprf_fetchBB _

theorem pc_raiseException (h : Hart M) (id : ExceptionId) :
    (h.raiseException id).2.pc = trapVector h.csrf id := by
  change (h.raiseException id).2.gprf.read GPRF.pc = _
  rw [gprf_raiseException, GPRF.read_pc_write_pc]

/-- The block at an address, as it is held or would be assembled now. -/
def blockAt (h : Hart M) (pc : RV64Ptr) : Except MemError Unit × BasicBlock :=
  match h.bbCache.lookup pc with
  | (true, index, cache) => (.ok (), cache.bbs index)
  | (false, index, cache) =>
    let (status, bb, _) := assembleBB (cache.bbs index) pc h.mem
    (status, bb)

def BlockReadable (h : Hart M) (pc : RV64Ptr) : Prop := (h.blockAt pc).1 = .ok ()

instance (h : Hart M) (pc : RV64Ptr) : Decidable (h.BlockReadable pc) :=
  inferInstanceAs (Decidable (_ = _))

theorem fetchBB_fst (h : Hart M) : h.fetchBB.1 = (h.blockAt h.pc).1 := by
  unfold fetchBB blockAt
  obtain ⟨_ | _, index, cache⟩ := h.bbCache.lookup h.pc
  · dsimp only
    obtain ⟨_ | _, bb, mem⟩ := assembleBB (cache.bbs index) h.pc h.mem <;> rfl
  · rfl

theorem raiseException_fst (h : Hart M) (id : ExceptionId) :
    (h.raiseException id).1 = (h.blockAt (trapVector h.csrf id)).1 := by
  have hpc : (h.toArch.raiseException id).pc = trapVector h.csrf id := GPRF.read_pc_write_pc _ _
  rw [raiseException, fetchBB_fst]
  change (blockAt _ (h.toArch.raiseException id).pc).1 = _
  rw [hpc]
  rfl

end Fetch

def resumedPC (c : CSRF) (pc : RV64Ptr) : Resume → RV64Ptr
  | .jumpMepc => MEPC.value.get c.mepc
  | _ => pc

theorem resume_running {h h' : Hart M} {r : Resume} (hr : h.resume r = .running h') :
    r ≠ .ret ∧ h'.bbCache = h.bbCache ∧ h'.mem = h.mem ∧ h'.csrf = h.csrf ∧
      h'.pc = resumedPC h.csrf h.pc r ∧
      (∀ x : Register, x < 32 → h'.read x = h.read x) ∧
      h'.currentInstr = h.currentInstr.map fun p => { p with pos := p.pos + 1 } := by
  cases r with
  | ret => cases hr
  | execNextInstr =>
    obtain ⟨p, i, hp, -, rfl⟩ := execNextInstr_running hr
    exact ⟨by decide, rfl, rfl, rfl, rfl, fun _ _ => rfl, by rw [hp]; rfl⟩
  | jumpMepc =>
    obtain ⟨p, i, hp, -, rfl⟩ := execNextInstr_running hr
    have hp' : h.currentInstr = some p := hp
    refine ⟨by decide, rfl, rfl, rfl, Arch.pc_setPC _ _, fun x hx => ?_, by rw [hp']; rfl⟩
    exact GPRF.read_write_of_ne _ _ fun he => absurd (he ▸ hx) (by decide)

theorem current_of_resume {h h' : Hart M} {r : Resume} (hr : h.resume r = .running h') :
    ∃ i, h.current = some i := by
  cases r with
  | ret => cases hr
  | execNextInstr =>
    obtain ⟨p, i, -, hi, -⟩ := execNextInstr_running hr
    exact ⟨i, hi⟩
  | jumpMepc =>
    obtain ⟨p, i, -, hi, -⟩ := execNextInstr_running hr
    exact ⟨i, hi⟩

theorem execNextInstr_hart? {h h' : Hart M} (hh : h.execNextInstr.hart? = some h') :
    h.execNextInstr = .running h' := by
  revert hh
  unfold execNextInstr
  split <;> intro hh
  · exact congrArg Outcome.running (Option.some.inj hh)
  · cases hh

theorem resume_hart? {h h' : Hart M} {r : Resume} (hh : (h.resume r).hart? = some h') :
    (r = .ret ∧ h' = h) ∨ h.resume r = .running h' := by
  cases r with
  | ret => exact .inl ⟨rfl, (Option.some.inj hh).symm⟩
  | execNextInstr => exact .inr (execNextInstr_hart? hh)
  | jumpMepc => exact .inr (execNextInstr_hart? hh)

theorem resume_ne_thrown (h : Hart M) (r : Resume) (e : MemError) (t : Hart M) :
    h.resume r ≠ .thrown e t := by
  have hnext : ∀ u : Hart M, u.execNextInstr ≠ .thrown e t := by
    intro u
    unfold execNextInstr
    split <;> nofun
  cases r with
  | ret => nofun
  | execNextInstr => exact hnext _
  | jumpMepc => exact hnext _

theorem resume_goes_on {t : Hart M} {r : Resume} {index : Nat} {i : Instruction}
    (hptr : t.currentInstr = some ⟨index, 0⟩) (hi : (t.bbCache.bbs index).instrs 0 = some i)
    (hr : r ≠ .ret) : ∃ t₁, t.resume r = .running t₁ := by
  have hgo : ∀ u : Hart M, u.currentInstr = t.currentInstr → u.bbCache = t.bbCache →
      ∃ t₁, u.execNextInstr = .running t₁ := by
    intro u hp hc
    have hcur : u.current = some i := by rw [current_of_ptr (hp.trans hptr), hc, hi]
    exact ⟨_, by rw [execNextInstr, hp.trans hptr, hcur]⟩
  cases r with
  | ret => exact absurd rfl hr
  | execNextInstr => exact hgo t rfl rfl
  | jumpMepc => exact hgo _ rfl rfl

/-- Every way in which one handler call, or a call of `run`, can change a hart. -/
inductive Moves [Memory M] (h : Hart M) : Hart M → Prop
  | fetch : Moves h h.fetchBB.2
  | next {h' : Hart M} {i : Instruction} (hcur : h.current = some i)
      (hop : i.operation ≠ .bbEnd) (he : effect i h.toArch = .next h'.toArch)
      (hcache : h'.bbCache = h.bbCache)
      (hptr : h'.currentInstr = h.currentInstr.map fun p => { p with pos := p.pos + 1 }) : Moves h h'
  | ret {s : Arch M} {i : Instruction} (hcur : h.current = some i)
      (hop : i.operation ≠ .bbEnd) (he : effect i h.toArch = .ret s) : Moves h (h.withArch s)
  | throw {s : Arch M} {i : Instruction} {e : MemError} (hcur : h.current = some i)
      (hop : i.operation ≠ .bbEnd) (he : effect i h.toArch = .throw e s) : Moves h (h.withArch s)
  | raise {i : Instruction} {id : ExceptionId} {r : Resume} (hcur : h.current = some i)
      (hop : i.operation ≠ .bbEnd) (he : effect i h.toArch = .raise id h.toArch r)
      (hend : (h.raiseException id).1 = .ok () → r = .ret) :
      Moves h (h.raiseException id).2
  | resume {h' : Hart M} {i : Instruction} {id : ExceptionId} {r : Resume}
      (hcur : h.current = some i) (hop : i.operation ≠ .bbEnd)
      (he : effect i h.toArch = .raise id h.toArch r)
      (hok : (h.raiseException id).1 = .ok ())
      (hr : (h.raiseException id).2.resume r = .running h') : Moves h h'

variable [Memory M]

theorem hart?_execBBEND (h : Hart M) : h.execBBEND.hart? = some h.fetchBB.2 := by
  unfold execBBEND
  split
  · rename_i h' hf
    rw [hf]
    rfl
  · rename_i e h' hf
    rw [hf]
    rfl

inductive Comes (h : Hart M) : Outcome M → Prop
  | undefined (hcur : h.current = none) : Comes h .undefined
  | fetched {i : Instruction} {t : Hart M} (hcur : h.current = some i)
      (hop : i.operation = .bbEnd) (ht : h.fetchBB = (.ok (), t)) : Comes h (.running t)
  | unfetched {i : Instruction} {e : MemError} {t : Hart M} (hcur : h.current = some i)
      (hop : i.operation = .bbEnd) (ht : h.fetchBB = (.error e, t)) : Comes h (.thrown e t)
  | next {i : Instruction} {s : Arch M} {t : Hart M} (hcur : h.current = some i)
      (hop : i.operation ≠ .bbEnd) (he : effect i h.toArch = .next s)
      (ht : (h.withArch s).execNextInstr = .running t) : Comes h (.running t)
  | trapped {i : Instruction} {id : ExceptionId} {r : Resume} {t : Hart M} {o : Outcome M}
      (hcur : h.current = some i) (hop : i.operation ≠ .bbEnd)
      (he : effect i h.toArch = .raise id h.toArch r) (ht : h.raiseException id = (.ok (), t))
      (ho : t.resume r = o) : Comes h o
  | untrapped {i : Instruction} {id : ExceptionId} {r : Resume} {e : MemError} {t : Hart M}
      (hcur : h.current = some i) (hop : i.operation ≠ .bbEnd)
      (he : effect i h.toArch = .raise id h.toArch r) (ht : h.raiseException id = (.error e, t)) :
      Comes h (.thrown e t)
  | ret {i : Instruction} (hcur : h.current = some i) (hop : i.operation = .ebreak)
      (he : effect i h.toArch = .ret h.toArch) : Comes h (.returned h)
  | throw {i : Instruction} {e : MemError} {s : Arch M} (hcur : h.current = some i)
      (hop : i.operation ≠ .bbEnd) (he : effect i h.toArch = .throw e s) :
      Comes h (.thrown e (h.withArch s))
  | terminate {i : Instruction} (hcur : h.current = some i)
      (he : effect i h.toArch = .terminate) : Comes h .terminated

theorem comes_apply {h : Hart M} {i : Instruction} (hcur : h.current = some i)
    (hop : i.operation ≠ .bbEnd) : h.Comes (h.apply (effect i h.toArch)) := by
  cases he : effect i h.toArch with
  | next s =>
    obtain ⟨p, hp, -⟩ := Option.bind_eq_some_iff.mp hcur
    have hp' : (h.withArch s).currentInstr = some p := hp
    have hcur' : (h.withArch s).current = some i := hcur
    change h.Comes (h.withArch s).execNextInstr
    cases ht : (h.withArch s).execNextInstr with
    | running t => exact .next hcur hop he ht
    | _ =>
      rw [execNextInstr, hp', hcur'] at ht
      cases ht
  | raise id s r =>
    obtain ⟨rfl, -⟩ := raises_of_effect he
    obtain ⟨t, ht, happly⟩ | ⟨e, t, ht, happly⟩ := h.apply_raise id r
    · exact .trapped hcur hop he ht happly.symm
    · rw [happly]
      exact .untrapped hcur hop he ht
  | ret s =>
    obtain ⟨rfl, hebreak⟩ := ret_of_effect he
    exact .ret hcur hebreak he
  | throw e s => exact .throw hcur hop he
  | terminate => exact .terminate hcur he

theorem comes_step (h : Hart M) : h.Comes h.step := by
  cases hcur : h.current with
  | none =>
    unfold step
    rw [hcur]
    exact .undefined hcur
  | some i =>
    by_cases hop : i.operation = .bbEnd
    · rw [step_bbEnd hcur hop]
      obtain ⟨t, ht, hend⟩ | ⟨e, t, ht, hend⟩ := h.execBBEND_cases <;> rw [hend]
      · exact .fetched hcur hop ht
      · exact .unfetched hcur hop ht
    · rw [step_instr hcur hop]
      exact comes_apply hcur hop

theorem comes_of_step {h : Hart M} {o : Outcome M} (ho : h.step = o) : h.Comes o :=
  ho ▸ h.comes_step

theorem moves_of_step {h h' : Hart M} (hh : h.step.hart? = some h') : Moves h h' := by
  have hc := h.comes_step
  generalize h.step = o at hc hh
  cases hc with
  | undefined => cases hh
  | fetched hcur hop ht =>
    have hmem : h' = h.fetchBB.2 := by rw [ht]; exact (Option.some.inj hh).symm
    exact hmem ▸ .fetch
  | unfetched hcur hop ht =>
    have hmem : h' = h.fetchBB.2 := by rw [ht]; exact (Option.some.inj hh).symm
    exact hmem ▸ .fetch
  | next hcur hop he ht =>
    cases hh
    obtain ⟨p, i, hp, -, rfl⟩ := execNextInstr_running ht
    have hp' : h.currentInstr = some p := hp
    exact .next hcur hop he rfl (by rw [hp']; rfl)
  | @trapped i id r t o hcur hop he ht ho =>
    have hmem : t = (h.raiseException id).2 := by rw [ht]
    rw [← ho] at hh
    obtain ⟨hr, rfl⟩ | hr := resume_hart? hh
    · exact hmem ▸ .raise hcur hop he fun _ => hr
    · exact .resume hcur hop he (by rw [ht]) (hmem ▸ hr)
  | @untrapped i id r e t hcur hop he ht =>
    have hmem : h' = (h.raiseException id).2 := by rw [ht]; exact (Option.some.inj hh).symm
    refine hmem ▸ .raise hcur hop he fun hok => ?_
    rw [ht] at hok
    cases hok
  | ret hcur hop he =>
    cases hh
    exact .ret hcur (by rw [hop]; decide) he
  | throw hcur hop he =>
    cases hh
    exact .throw hcur hop he
  | terminate => cases hh

theorem moves_of_next {h h' : Hart M} (hh : h.Next h') : Moves h h' := by
  obtain hh | hh := hh
  · exact moves_of_step hh
  · rw [run, hart?_execBBEND] at hh
    exact Option.some.inj hh ▸ .fetch

theorem Moves.bbCache {h h' : Hart M} (hm : Moves h h') :
    h'.bbCache = h.bbCache ∨
      ∃ t : Hart M, t.bbCache = h.bbCache ∧ h'.bbCache = t.fetchBB.2.bbCache := by
  cases hm with
  | fetch => exact .inr ⟨h, rfl, rfl⟩
  | next hcur hop he hcache => exact .inl hcache
  | ret => exact .inl rfl
  | throw => exact .inl rfl
  | raise => exact .inr ⟨h.withArch (h.toArch.raiseException _), rfl, rfl⟩
  | resume hcur hop he hok hr =>
    exact .inr ⟨h.withArch (h.toArch.raiseException _), rfl, (resume_running hr).2.1⟩

/-- A property of blocks that assembling a block keeps, also when it fails. -/
structure Rebuilt (P : BasicBlock → Prop) : Prop where
  pc : ∀ bb pc, P bb → P { bb with pc := pc }
  append : ∀ (r : BasicBlockRebuilder) word, P r.bb → P (r.append (Dec.parse word)).2.bb

theorem assembleLoop_block {P : BasicBlock → Prop}
    (happend : ∀ (r : BasicBlockRebuilder) word, P r.bb → P (r.append (Dec.parse word)).2.bb)
    (fuel : Nat) (r : BasicBlockRebuilder) (pc : RV64Ptr) (mem : M) (hr : P r.bb) :
    P (assembleLoop fuel r pc mem).2.1 := by
  induction fuel generalizing r pc mem with
  | zero => exact hr
  | succ fuel ih =>
    unfold assembleLoop
    obtain ⟨_ | word, mem'⟩ := Memory.fetchWord mem pc
    · exact hr
    · have hnext := happend r word hr
      dsimp only
      revert hnext
      obtain ⟨_ | _, r'⟩ := r.append (Dec.parse word) <;> intro hnext
      · exact hnext
      · exact ih r' _ mem' hnext

theorem assembleBB_pc (bb : BasicBlock) (pc : RV64Ptr) (mem : M) :
    (assembleBB bb pc mem).2.1.pc = pc :=
  assembleLoop_block (P := fun b => b.pc = pc)
    (fun r word hr => (r.append_pc (Dec.parse word)).trans hr) _ _ _ _ rfl

theorem Rebuilt.assembleBB {P : BasicBlock → Prop} (hP : Rebuilt P) (bb : BasicBlock)
    (pc : RV64Ptr) (mem : M) (hbb : P bb) : P (assembleBB bb pc mem).2.1 :=
  assembleLoop_block hP.append _ _ _ _ (hP.pc bb pc hbb)

theorem fetchBB_blocks {P : BasicBlock → Prop}
    (hP : ∀ bb pc (mem : M), P bb → P (assembleBB bb pc mem).2.1) {h : Hart M}
    (hall : ∀ index, P (h.bbCache.bbs index)) (index : Nat) :
    P (h.fetchBB.2.bbCache.bbs index) := by
  have hbbs := BasicBlockCache.lookup_bbs h.bbCache h.pc
  unfold fetchBB
  revert hbbs
  obtain ⟨_ | _, slot, cache⟩ := h.bbCache.lookup h.pc <;> intro hbbs
  · have hbb : P (assembleBB (cache.bbs slot) h.pc h.mem).2.1 := by
      refine hP _ _ _ ?_
      rw [hbbs]
      exact hall slot
    have hset : ∀ bb, P bb → P ((cache.setBB slot bb).bbs index) := by
      intro bb hbb
      by_cases hi : index = slot
      · rw [hi, BasicBlockCache.setBB_same]
        exact hbb
      · rw [BasicBlockCache.setBB_ne _ _ hi, hbbs]
        exact hall index
    dsimp only
    revert hbb
    obtain ⟨_ | _, bb, mem⟩ := assembleBB (cache.bbs slot) h.pc h.mem <;> intro hbb
    · exact hset bb hbb
    · exact hset bb hbb
  · rw [← hbbs] at hall
    exact hall index

theorem fetchBB_ok_cases {h h' : Hart M} (hf : h.fetchBB = (.ok (), h')) :
    (h'.bbCache.bbs = h.bbCache.bbs ∧ h'.mem = h.mem) ∨
      ∃ slot bb, slot = (h.bbCache.lookup h.pc).2.1 ∧
        assembleBB (h.bbCache.bbs slot) h.pc h.mem = (.ok (), bb, h'.mem) ∧
        h'.bbCache.bbs = Function.update h.bbCache.bbs slot bb := by
  have hbbs := BasicBlockCache.lookup_bbs h.bbCache h.pc
  unfold fetchBB at hf
  revert hf hbbs
  obtain ⟨_ | _, slot, cache⟩ := h.bbCache.lookup h.pc <;> intro hf hbbs
  · dsimp only at hf hbbs
    rw [← hbbs]
    rcases ha : assembleBB (cache.bbs slot) h.pc h.mem with ⟨_ | _, bb, mem⟩ <;> rw [ha] at hf
    · cases hf
    · obtain rfl := (Prod.mk.inj hf).2
      exact .inr ⟨slot, bb, rfl, ha, rfl⟩
  · obtain rfl := (Prod.mk.inj hf).2
    exact .inl ⟨hbbs, rfl⟩

theorem fetched_of_step {h h' : Hart M} (hh : h.step.hart? = some h')
    (hfetch : ∀ e t, h.step = .thrown e t → ∃ i s, h.current = some i ∧
      effect i h.toArch = .throw e s) :
    h'.bbCache = h.bbCache ∨ ∃ t t' : Hart M, t.bbCache = h.bbCache ∧ t.mem = h.mem ∧
      t.fetchBB = (.ok (), t') ∧ h'.bbCache = t'.bbCache ∧ h'.mem = t'.mem := by
  have hc := h.comes_step
  generalize h.step = o at hc hh hfetch
  cases hc with
  | undefined => cases hh
  | fetched hcur hop ht =>
    cases hh
    exact .inr ⟨h, _, rfl, rfl, ht, rfl, rfl⟩
  | @unfetched i e t hcur hop ht =>
    obtain ⟨j, s, hj, he⟩ := hfetch e t rfl
    obtain rfl := Option.some.inj (hcur.symm.trans hj)
    rw [effect, hop] at he
    cases he
  | next hcur hop he ht =>
    cases hh
    obtain ⟨p, j, -, -, rfl⟩ := execNextInstr_running ht
    exact .inl rfl
  | @trapped i id r t o hcur hop he ht ho =>
    refine .inr ⟨h.withArch (h.toArch.raiseException id), t, rfl, rfl, ht, ?_⟩
    rw [← ho] at hh
    obtain ⟨-, rfl⟩ | hr := resume_hart? hh
    · exact ⟨rfl, rfl⟩
    · obtain ⟨-, hcache, hmem, -⟩ := resume_running hr
      exact ⟨hcache, hmem⟩
  | @untrapped i id r e t hcur hop he ht =>
    obtain ⟨j, s, hj, hthrow⟩ := hfetch e t rfl
    obtain rfl := Option.some.inj (hcur.symm.trans hj)
    rw [he] at hthrow
    cases hthrow
  | ret hcur hop he =>
    cases hh
    exact .inl rfl
  | throw hcur hop he =>
    cases hh
    exact .inl rfl
  | terminate => cases hh

theorem fetchBB_lruRowers {h : Hart M}
    (hall : ∀ set, h.bbCache.lruRowers set < BasicBlockCache.kWays) (set : Nat) :
    h.fetchBB.2.bbCache.lruRowers set < BasicBlockCache.kWays := by
  have hrow := BasicBlockCache.lookup_lruRowers hall h.pc set
  unfold fetchBB
  revert hrow
  obtain ⟨_ | _, slot, cache⟩ := h.bbCache.lookup h.pc <;> intro hrow
  · dsimp only
    obtain ⟨_ | _, bb, mem⟩ := assembleBB (cache.bbs slot) h.pc h.mem <;> exact hrow
  · exact hrow

/-- What holds of a poisoned block, and survives assembly, holds of every block
that a run ever holds. -/
theorem reachable_assembled {P : BasicBlock → Prop}
    (hP : ∀ bb pc (mem : M), P bb → P (assembleBB bb pc mem).2.1) (hcreate : P BasicBlock.create)
    {h : Hart M} (hr : Reachable h) : ∀ index, P (h.bbCache.bbs index) := by
  refine Reach.invariant (I := fun h => ∀ index, P (h.bbCache.bbs index)) ?_ ?_ hr
  · rintro _ ⟨garbage, mem, rfl⟩ index
    exact hcreate
  · intro s t hs hn
    obtain hc | ⟨u, hu, hc⟩ := (moves_of_next hn).bbCache
    · rwa [hc]
    · rw [hc]
      exact fetchBB_blocks hP (hu ▸ hs)

theorem reachable_blocks {P : BasicBlock → Prop} (hP : Rebuilt P) (hcreate : P BasicBlock.create)
    {h : Hart M} (hr : Reachable h) : ∀ index, P (h.bbCache.bbs index) :=
  reachable_assembled hP.assembleBB hcreate hr

theorem reachable_lruRowers {h : Hart M} (hr : Reachable h) :
    ∀ set, h.bbCache.lruRowers set < BasicBlockCache.kWays := by
  refine Reach.invariant (I := fun h => ∀ set, h.bbCache.lruRowers set < BasicBlockCache.kWays)
    ?_ ?_ hr
  · rintro _ ⟨garbage, mem, rfl⟩ set
    exact Nat.zero_lt_succ 7
  · intro s t hs hn
    obtain hc | ⟨u, hu, hc⟩ := (moves_of_next hn).bbCache
    · rwa [hc]
    · rw [hc]
      rw [← hu] at hs
      exact fetchBB_lruRowers hs

/-- No block starts with an end mark. -/
theorem reachable_start {h : Hart M} (hr : Reachable h) (index : Nat) (i : Instruction)
    (hi : (h.bbCache.bbs index).instrs 0 = some i) : i.operation ≠ .bbEnd := by
  refine reachable_blocks (P := fun bb => ∀ i, bb.instrs 0 = some i → i.operation ≠ .bbEnd)
    ⟨fun bb pc hbb => hbb, fun r word hr i hi => ?_⟩ ?_ hr index i hi
  · obtain rfl | hold | ⟨h0, -⟩ := BasicBlockRebuilder.append_instrs hi
    · exact Dec.parse_ne_bbEnd word
    · exact hr i hold
    · exact absurd h0.symm (Nat.succ_ne_zero _)
  · intro i hi
    rw [BasicBlock.create_instrs hi]
    decide

/-- A block fetched without an exception is entered at its first instruction,
and the next fetch at the same address would find it again. -/
theorem fetchBB_ok {h h' : Hart M} (hrows : ∀ set, h.bbCache.lruRowers set < BasicBlockCache.kWays)
    (hf : h.fetchBB = (.ok (), h')) :
    ∃ index, h'.currentInstr = some ⟨index, 0⟩ ∧ h'.bbCache.bbs index = (h.blockAt h.pc).2 ∧
      (h'.bbCache.bbs index).pc = h.pc ∧
      h'.bbCache.lookup h.pc = (true, index, h'.bbCache) := by
  have hbbs := BasicBlockCache.lookup_bbs h.bbCache h.pc
  have hhit := BasicBlockCache.lookup_hit_pc h.bbCache h.pc
  have hagain := BasicBlockCache.lookup_again hrows h.pc
  unfold fetchBB at hf
  unfold blockAt
  revert hf hbbs hhit hagain
  obtain ⟨_ | _, index, cache⟩ := h.bbCache.lookup h.pc <;> intro hf hbbs hhit hagain
  · have hpc := assembleBB_pc (cache.bbs index) h.pc h.mem
    dsimp only at hf hbbs hagain ⊢
    revert hf hpc
    obtain ⟨_ | _, bb, mem⟩ := assembleBB (cache.bbs index) h.pc h.mem <;> intro hf hpc
    · cases hf
    · cases hf
      refine ⟨index, rfl, BasicBlockCache.setBB_same _ _ _, ?_, hagain _ (fun j hj => ?_) ?_⟩
      · exact (congrArg BasicBlock.pc (BasicBlockCache.setBB_same _ _ _)).trans hpc
      · exact (BasicBlockCache.setBB_ne _ _ hj).trans (congrFun hbbs j)
      · exact (congrArg BasicBlock.pc (BasicBlockCache.setBB_same _ _ _)).trans hpc
  · cases hf
    dsimp only at hbbs hhit hagain
    have hpc : (cache.bbs index).pc = h.pc := by
      rw [hbbs]
      exact hhit rfl
    exact ⟨index, rfl, rfl, hpc, hagain _ (fun j _ => congrFun hbbs j) hpc⟩

end Hart

end Besm.Sim
