import Besm.Memory.Footprint
import Besm.Sim.Alignment
import Besm.Sim.Stack

namespace Besm.Sim

open Besm.Exec Besm.Mem Besm.Lib.Transition

variable {M P : Type} {I : M → Prop} {pages : M → Set P} {page : RV64Ptr → Set P}

namespace Hart

variable {h h' : Hart M}

theorem execNextInstr_mem (ho : h.execNextInstr.hart? = some h') : h'.mem = h.mem := by
  unfold execNextInstr at ho
  split at ho
  · cases ho
    rfl
  · cases ho

theorem resume_mem {r : Resume} (ho : (h.resume r).hart? = some h') :
    h'.mem = h.mem := by
  cases r with
  | ret =>
    cases ho
    rfl
  | execNextInstr => exact execNextInstr_mem ho
  | jumpMepc =>
    exact execNextInstr_mem (h := h.withArch (h.setPC (MEPC.value.get h.csrf.mepc))) ho

end Hart

variable [Memory M]

/-- The page that a call takes, if it is of the handler of a store that is accepted. -/
def Call.takes (page : RV64Ptr → Set P) (c : Call M) : Set P :=
  {x | ∃ (k : Hart M) (i : Instruction) (w : Width), c = .step k ∧ k.current = some i ∧
    storeWidth i.operation = some w ∧
    (Memory.store k.mem w (k.address i) ((k.read i.rs2).setWidth (8 * w.size))).1 = .ok () ∧
    x ∈ page (k.address i)}

namespace Hart

variable {h h' : Hart M}

theorem fetchBB_keeps {J : M → Prop}
    (hJ : ∀ m, J m → ∀ a : RV64Ptr, a.toNat % 4 = 0 → J (Memory.fetchWord m a).2)
    (hpc : h.pc.toNat % 4 = 0) (hm : J h.mem) : J h.fetchBB.2.mem := by
  have hloop : ∀ (fuel : Nat) (r : BasicBlockRebuilder) (pc : RV64Ptr) (mem : M),
      pc.toNat % 4 = 0 → J mem → J (assembleLoop fuel r pc mem).2.2 := by
    intro fuel
    induction fuel with
    | zero => exact fun _ _ _ _ hm => hm
    | succ fuel ih =>
      intro r pc mem hpc hm
      have hfetch := hJ mem hm pc hpc
      have hnext : (pc + ialign / 8).toNat % 4 = 0 := by
        rw [add_mod_four, Nat.add_mod, hpc]
        decide
      unfold assembleLoop
      revert hfetch
      obtain ⟨_ | word, mem'⟩ := Memory.fetchWord mem pc <;> intro hm'
      · exact hm'
      · dsimp only
        obtain ⟨_ | _, r'⟩ := r.append (Dec.parse word)
        · exact hm'
        · exact ih r' _ mem' hnext hm'
  unfold fetchBB
  obtain ⟨_ | _, index, cache⟩ := h.bbCache.lookup h.pc
  · have hassemble := hloop (BasicBlock.kCapacity - 1)
      (BasicBlockRebuilder.create (cache.bbs index) h.pc) h.pc h.mem hpc hm
    dsimp only [assembleBB]
    revert hassemble
    obtain ⟨_ | _, bb, mem⟩ := assembleLoop (BasicBlock.kCapacity - 1)
      (BasicBlockRebuilder.create (cache.bbs index) h.pc) h.pc h.mem <;> exact id
  · exact hm

theorem execBBEND_mem (ho : h.execBBEND.hart? = some h') : h'.mem = h.fetchBB.2.mem := by
  obtain ⟨t, hf, he⟩ | ⟨e, t, hf, he⟩ := h.execBBEND_cases <;>
    rw [he] at ho <;> cases ho <;> rw [hf]

theorem apply_raise_mem {id : ExceptionId} {r : Resume}
    (ho : (h.apply (.raise id h.toArch r)).hart? = some h') :
    h'.mem = (h.raiseException id).2.mem := by
  obtain ⟨t, hr, ha⟩ | ⟨e, t, hr, ha⟩ := h.apply_raise id r <;> rw [ha] at ho <;> rw [hr]
  · exact resume_mem ho
  · cases ho
    rfl

theorem apply_keeps (hF : Memory.Footprint I pages page) (hm : I h.mem) {i : Instruction}
    (hstore : storeWidth i.operation = none)
    (ho : (h.apply (effect i h.toArch)).hart? = some h') : I h'.mem ∧ pages h'.mem = pages h.mem := by
  have hy := yields_effect i h.toArch
  generalize effect i h.toArch = e at hy ho
  cases hy with
  | next ha =>
    rw [execNextInstr_mem ho]
    cases ha with
    | load w value => exact hF.load _ hm w _
    | store w hop value => exact nomatch hop.symm.trans hstore
    | _ => exact ⟨hm, rfl⟩
  | bbEnd hop =>
    rw [execNextInstr_mem ho]
    exact ⟨hm, rfl⟩
  | @raise id r hr =>
    have hvec : (h.withArch (h.toArch.raiseException id)).pc = trapVector h.csrf id :=
      GPRF.read_pc_write_pc _ _
    rw [apply_raise_mem ho]
    exact fetchBB_keeps (h := h.withArch (h.toArch.raiseException id)) (hF.fetches h.mem)
      (hvec ▸ trapVector_mod_four h.csrf id) ⟨hm, rfl⟩
  | ret hop =>
    cases ho
    exact ⟨hm, rfl⟩
  | @load w _ _ hl =>
    cases ho
    have hkeep := hF.load h.mem hm w (h.address i)
    rwa [hl] at hkeep
  | @store w value _ _ hs =>
    cases ho
    have hkeep := hF.refused h.mem hm w (h.address i) value (by rw [hs]; nofun)
    rwa [hs] at hkeep
  | terminate => cases ho

theorem apply_store (hF : Memory.Footprint I pages page) (hm : I h.mem) {i : Instruction} {w : Width}
    (hstore : storeWidth i.operation = some w)
    (ho : (h.apply (effect i h.toArch)).hart? = some h') : I h'.mem ∧ pages h'.mem = pages h.mem ∪
      {x | (Memory.store h.mem w (h.address i) ((h.read i.rs2).setWidth (8 * w.size))).1 = .ok () ∧
        x ∈ page (h.address i)} := by
  have haccepted := hF.accepted h.mem hm w (h.address i) ((h.read i.rs2).setWidth (8 * w.size))
  have hrefused := hF.refused h.mem hm w (h.address i) ((h.read i.rs2).setWidth (8 * w.size))
  rw [effect_store h.toArch hstore, Arch.store] at ho
  revert ho haccepted hrefused
  obtain ⟨_ | _, m⟩ := Memory.store h.mem w (h.address i) ((h.read i.rs2).setWidth (8 * w.size)) <;>
    intro ho haccepted hrefused
  · cases ho
    obtain ⟨hI, hpages⟩ := hrefused (by simp)
    refine ⟨hI, hpages.trans ?_⟩
    simp
  · rw [execNextInstr_mem ho]
    obtain ⟨hI, hpages⟩ := haccepted rfl
    refine ⟨hI, hpages.trans ?_⟩
    simp

theorem takes_step {i : Instruction} (hcur : h.current = some i) : (Call.step h).takes page =
    {x | ∃ w, storeWidth i.operation = some w ∧
      (Memory.store h.mem w (h.address i) ((h.read i.rs2).setWidth (8 * w.size))).1 = .ok () ∧
      x ∈ page (h.address i)} := by
  refine Set.ext fun x => ⟨?_, fun ⟨w, hw, hx⟩ => ⟨h, i, w, rfl, hcur, hw, hx⟩⟩
  rintro ⟨k, j, w, hk, hj, hw, hx⟩
  cases hk
  cases hcur.symm.trans hj
  exact ⟨w, hw, hx⟩

theorem takes_run : (Call.run h).takes page = ∅ :=
  Set.eq_empty_iff_forall_notMem.mpr fun _ ⟨_, _, _, hk, _⟩ => nomatch hk

theorem takes_none {i : Instruction} (hcur : h.current = some i)
    (hstore : storeWidth i.operation = none) : (Call.step h).takes page = ∅ := by
  rw [takes_step hcur, hstore]
  exact Set.eq_empty_iff_forall_notMem.mpr fun _ ⟨_, hw, _⟩ => nomatch hw

theorem takes_store {i : Instruction} (hcur : h.current = some i) {w : Width}
    (hstore : storeWidth i.operation = some w) : (Call.step h).takes page =
      {x | (Memory.store h.mem w (h.address i) ((h.read i.rs2).setWidth (8 * w.size))).1 = .ok () ∧
        x ∈ page (h.address i)} := by
  rw [takes_step hcur, hstore]
  refine Set.ext fun x => ⟨?_, fun hx => ⟨w, rfl, hx⟩⟩
  rintro ⟨w', hw, hx⟩
  cases hw
  exact hx

theorem execBBEND_pages (hF : Memory.Footprint I pages page) (hm : I h.mem)
    (hpc : h.pc.toNat % 4 = 0) (ho : h.execBBEND.hart? = some h') :
    I h'.mem ∧ pages h'.mem = pages h.mem := by
  rw [execBBEND_mem ho]
  exact fetchBB_keeps (J := fun m => I m ∧ pages m = pages h.mem) (hF.fetches h.mem) hpc ⟨hm, rfl⟩

theorem pages_step (hF : Memory.Footprint I pages page) (hm : I h.mem) (hpc : h.pc.toNat % 4 = 0)
    (ho : h.step.hart? = some h') :
    I h'.mem ∧ pages h'.mem = pages h.mem ∪ (Call.step h).takes page := by
  cases hcur : h.current with
  | none =>
    unfold step at ho
    rw [hcur] at ho
    cases ho
  | some i =>
    by_cases hop : i.operation = .bbEnd
    · rw [step_bbEnd hcur hop] at ho
      rw [takes_none hcur (by rw [hop]; rfl), Set.union_empty]
      exact execBBEND_pages hF hm hpc ho
    · rw [step_instr hcur hop] at ho
      cases hw : storeWidth i.operation with
      | none =>
        rw [takes_none hcur hw, Set.union_empty]
        exact apply_keeps hF hm hw ho
      | some w =>
        rw [takes_store hcur hw]
        exact apply_store hF hm hw ho

end Hart

def takes (page : RV64Ptr → Set P) (ls : List (Call M)) : Set P := {x | ∃ c ∈ ls, x ∈ c.takes page}

theorem takes_nil : takes page ([] : List (Call M)) = ∅ :=
  Set.eq_empty_iff_forall_notMem.mpr fun _ ⟨_, hc, _⟩ => nomatch hc

theorem takes_append_singleton (ls : List (Call M)) (c : Call M) :
    takes page (ls ++ [c]) = takes page ls ∪ c.takes page := by
  refine Set.ext fun x => ?_
  simp only [takes, List.mem_append, List.mem_singleton, or_and_right, exists_or, exists_eq_left,
    Set.mem_ofPred_eq, Set.mem_union]

/-- A run takes the pages of the stores that are accepted, and no others. -/
theorem runs_take (hF : Memory.Footprint I pages page) {h₀ : Hart M} (hm : I h₀.mem)
    {ls : List (Call M)} {o : Outcome M} (hrun : Run Calls (.returned h₀) ls o)
    (hword : ∀ l ∈ ls, l.OnWord) {h : Hart M} (ho : o.hart? = some h) :
    I h.mem ∧ pages h.mem = pages h₀.mem ∪ takes page ls := by
  refine Run.history (I := fun ls o => ∀ h : Hart M, o.hart? = some h →
    I h.mem ∧ pages h.mem = pages h₀.mem ∪ takes page ls) (C := Call.OnWord) ?_ hrun hword ?_ h ho
  · intro pre s ls t hI hls hstep h ho
    cases hstep with
    | step k =>
      obtain ⟨hk, hpages⟩ := hI k rfl
      obtain ⟨hh, hpages'⟩ := Hart.pages_step hF hk (hls _ List.mem_cons_self) ho
      rw [hpages', hpages, takes_append_singleton, Set.union_assoc]
      exact ⟨hh, rfl⟩
    | @run _ k hcaller =>
      obtain ⟨hk, hpages⟩ := hI k (Outcome.hart?_of_caller? hcaller)
      obtain ⟨hh, hpages'⟩ := Hart.execBBEND_pages hF hk (hls _ List.mem_cons_self) ho
      rw [hpages', hpages, takes_append_singleton, Hart.takes_run, Set.union_empty]
      exact ⟨hh, rfl⟩
  · rintro _ ⟨⟩
    rw [takes_nil, Set.union_empty]
    exact ⟨hm, rfl⟩

namespace Hart

/-- On the physical memory, whatever the prefetcher reads ahead, the pages that
a run takes are those that its accepted stores are to. -/
theorem stack_takes {m : PhysMem} (hr : m.Regular) (garbage : Register → RV64UDWord)
    {ls : List (Call Prefetcher)} {o : Outcome Prefetcher}
    (hrun : Run Calls (.returned (create garbage (Prefetcher.create ⟨m⟩))) ls o)
    (hword : ∀ l ∈ ls, l.OnWord) {h : Hart Prefetcher} (ho : o.hart? = some h) :
    h.mem.mmu.pMem.pages = m.pages ∪ takes m.pageOf ls :=
  (runs_take (Prefetcher.footprint hr) ⟨Prefetcher.sound_create hr.toWired, hr⟩ hrun hword ho).2

theorem stack_takes_sw : ∃ h : Hart Prefetcher,
    (create (fun _ => 0x1000) (Prefetcher.create ⟨wordMem 0x0000a023⟩)).runFor 1 = some h ∧
    (1, 0) ∉ (wordMem 0x0000a023).pages ∧ (1, 0) ∈ h.mem.mmu.pMem.pages := by
  let h₀ := create (fun _ => 0x1000) (Prefetcher.create ⟨wordMem 0x0000a023⟩)
  have hsome : (h₀.runFor 1).isSome = true := by decide +kernel
  obtain ⟨h, hr⟩ := Option.isSome_iff_exists.mp hsome
  obtain ⟨h₁, hr₁, hrun, hword⟩ := runs_of_runFor_one hr rfl (by decide +kernel)
  have hcur : h₁.current = some (Dec.parse 0x0000a023) :=
    of_runFor (f := fun h => h.current) hr₁ (by decide +kernel)
  have hok : (Memory.store h₁.mem .word (h₁.address (Dec.parse 0x0000a023))
      ((h₁.read (Dec.parse 0x0000a023).rs2).setWidth 32)).1 = .ok () :=
    of_runFor (f := fun h : Hart Prefetcher =>
      (Memory.store h.mem .word (h.address (Dec.parse 0x0000a023))
        ((h.read (Dec.parse 0x0000a023).rs2).setWidth 32)).1) hr₁ (by decide +kernel)
  have haddr : h₁.address (Dec.parse 0x0000a023) = 0x1000 :=
    of_runFor (f := fun h : Hart Prefetcher => h.address (Dec.parse 0x0000a023)) hr₁
      (by decide +kernel)
  have hfree : ((wordMem 0x0000a023).rams 1).pagemap 0 = none := by decide +kernel
  refine ⟨h, hr, fun hpage => hpage hfree, ?_⟩
  rw [stack_takes (regular_wordMem _) (fun _ => 0x1000) hrun hword rfl]
  refine .inr ⟨.step h₁, by simp, h₁, _, .word, rfl, hcur, by decide, hok, ?_⟩
  rw [haddr]
  exact ⟨(⟨0x1000, 0x2000⟩, 1), by decide +kernel, by decide, by decide +kernel⟩

end Hart

end Besm.Sim
