import Besm.Sim.Cursor

namespace Besm.Exec

/-- Every instruction of the block was decoded, or is one of the two that mark
its end and a block never filled. -/
def BasicBlock.Known (bb : BasicBlock) : Prop :=
  ∀ k i, bb.instrs k = some i → i.operation = .bbEnd ∨ i.operation = .invOp ∨ ∃ w, i = Dec.parse w

end Besm.Exec

namespace Besm.Sim

open Besm.Exec Besm.Exec.BasicBlockCache Besm.Mem Besm.Lib.Transition

theorem known_rebuilt : Hart.Rebuilt BasicBlock.Known where
  pc _ _ h := h
  append r word hr k i hi := by
    obtain rfl | hold | ⟨-, rfl⟩ := BasicBlockRebuilder.append_instrs hi
    · exact .inr (.inr ⟨word, rfl⟩)
    · exact hr k i hold
    · exact .inl rfl

namespace Hart

variable {M : Type} [Memory M] {h h' : Hart M}

theorem known_of_current (hr : Reachable h) {i : Instruction} (hcur : h.current = some i) :
    i.operation = .bbEnd ∨ i.operation = .invOp ∨ ∃ w, i = Dec.parse w := by
  obtain ⟨p, hp, hi⟩ := Option.bind_eq_some_iff.mp hcur
  refine reachable_blocks known_rebuilt (fun k i hi => ?_) hr p.index p.pos i hi
  exact .inr (.inl (BasicBlock.create_instrs hi ▸ rfl))

/-- No instruction leads to an odd address, also after an exception has left a block
unfinished. -/
theorem even_moves (hr : Reachable h) (hm : Moves h h') (hpc : h.pc.toNat % 2 = 0)
    (hmepc : h.csrf.mepc.toNat % 4 = 0) : h'.pc.toNat % 2 = 0 ∧ h'.csrf.mepc.toNat % 4 = 0 := by
  have htrap : ∀ id, (h.raiseException id).2.pc.toNat % 2 = 0 ∧
      (h.raiseException id).2.csrf.mepc.toNat % 4 = 0 := by
    intro id
    rw [pc_raiseException, csrf_raiseException]
    exact ⟨even_of_word (trapVector_mod_four h.csrf id), mepc_trapCSRF_aligned hmepc id h.pc⟩
  cases hm with
  | fetch =>
    rw [pc_fetchBB, csrf_fetchBB]
    exact ⟨hpc, hmepc⟩
  | next hcur hop he =>
    refine ⟨?_, mepc_of_advances (advances_of_effect hop he) hmepc⟩
    obtain hend | hinv | ⟨w, rfl⟩ := known_of_current hr hcur
    · exact absurd hend hop
    · rw [effect, hinv] at he
      cases he
    · exact even_of_next hpc hmepc he
  | ret hcur hop he =>
    obtain ⟨rfl, -⟩ := ret_of_effect he
    exact ⟨hpc, hmepc⟩
  | throw hcur hop he =>
    obtain ⟨hgprf, hcsrf⟩ := throw_of_effect he
    refine ⟨?_, (congrArg (fun c => c.mepc.toNat % 4) hcsrf).trans hmepc⟩
    exact (congrArg (fun g => (GPRF.read g GPRF.pc).toNat % 2) hgprf).trans hpc
  | @raise i id r hcur hop he => exact htrap id
  | @resume h' i id r hcur hop he hok hres =>
    obtain ⟨-, -, -, hcsrf, hpc', -⟩ := resume_running hres
    rw [hcsrf, hpc']
    refine ⟨?_, (htrap id).2⟩
    cases r with
    | jumpMepc =>
      change (MEPC.value.get _).toNat % 2 = 0
      rw [mepc_get]
      exact even_of_word (htrap id).2
    | _ => exact (htrap id).1

theorem reachable_even (hr : Reachable h) :
    h.pc.toNat % 2 = 0 ∧ h.csrf.mepc.toNat % 4 = 0 := by
  induction hr with
  | init hinit =>
    obtain ⟨garbage, mem, rfl⟩ := hinit
    exact ⟨rfl, rfl⟩
  | step hr hn ih => exact even_moves hr (moves_of_next hn) ih.1 ih.2

/-- The hart for which the next handler call fetches a block, if it fetches one. -/
def fetching (h : Hart M) : Option (Hart M) :=
  match h.current with
  | none => none
  | some i =>
    if i.operation = .bbEnd then some h
    else match effect i h.toArch with
      | .raise id s _ => some (h.withArch (s.raiseException id))
      | _ => none

theorem fetching_pc (hr : Reachable h) {t : Hart M} (ht : h.fetching = some t) :
    t.pc.toNat % 2 = 0 := by
  unfold fetching at ht
  split at ht
  · cases ht
  · split_ifs at ht with hop
    · exact Option.some.inj ht ▸ (reachable_even hr).1
    · split at ht
      · rename_i id s r he
        obtain rfl := Option.some.inj ht
        have hvec : (h.withArch (s.raiseException id)).pc = trapVector s.csrf id :=
          GPRF.read_pc_write_pc _ _
        rw [hvec]
        exact even_of_word (trapVector_mod_four s.csrf id)
      · cases ht

theorem fetching_bbEnd {i : Instruction} (hcur : h.current = some i) (hop : i.operation = .bbEnd) :
    h.fetching = some h := by
  unfold fetching
  rw [hcur]
  exact if_pos hop

theorem fetching_instr {i : Instruction} (hcur : h.current = some i) (hop : i.operation ≠ .bbEnd) :
    h.fetching = match effect i h.toArch with
      | .raise id s _ => some (h.withArch (s.raiseException id))
      | _ => none := by
  unfold fetching
  rw [hcur]
  exact if_neg hop

theorem step_bbCache (hh : h.step.hart? = some h') :
    h'.bbCache = (h.fetching.map fun t => t.fetchBB.2.bbCache).getD h.bbCache := by
  have hc := h.comes_step
  generalize h.step = o at hc hh
  cases hc with
  | undefined => cases hh
  | fetched hcur hop ht =>
    obtain rfl := Option.some.inj hh
    rw [fetching_bbEnd hcur hop, Option.map_some, ht]
    rfl
  | unfetched hcur hop ht =>
    obtain rfl := Option.some.inj hh
    rw [fetching_bbEnd hcur hop, Option.map_some, ht]
    rfl
  | next hcur hop he ht =>
    obtain rfl := Option.some.inj hh
    obtain ⟨p, i, -, -, rfl⟩ := execNextInstr_running ht
    rw [fetching_instr hcur hop, he]
    rfl
  | @trapped i id r t o hcur hop he ht ho =>
    have hcache : h'.bbCache = t.bbCache := by
      obtain ⟨-, rfl⟩ | hrun := resume_hart? (ho ▸ hh)
      · rfl
      · exact (resume_running hrun).2.1
    rw [hcache, fetching_instr hcur hop, he]
    exact (congrArg (fun x => x.2.bbCache) ht).symm
  | @untrapped i id r e t hcur hop he ht =>
    obtain rfl := Option.some.inj hh
    rw [fetching_instr hcur hop, he]
    exact (congrArg (fun x => x.2.bbCache) ht).symm
  | ret hcur hop he =>
    obtain rfl := Option.some.inj hh
    rw [fetching_instr hcur (by rw [hop]; decide), he]
    rfl
  | throw hcur hop he =>
    obtain rfl := Option.some.inj hh
    rw [fetching_instr hcur hop, he]
    rfl
  | terminate => cases hh

theorem fetches_fetchBB (hf : h.fetchBB = (.ok (), h')) :
    ∃ f, f.pc = h.pc ∧ Fetches h.bbCache [f] h'.bbCache := by
  unfold Hart.fetchBB at hf
  rcases hl : h.bbCache.lookup h.pc with ⟨_ | _, slot, cache⟩
  · rw [hl] at hf
    dsimp only at hf
    have hbb := @assembleBB_completes _ _ (cache.bbs slot) h.pc h.mem
    rcases ha : assembleBB (cache.bbs slot) h.pc h.mem with ⟨_ | _, bb, mem⟩ <;> rw [ha] at hf hbb
    · cases hf
    · obtain rfl := (Prod.mk.inj hf).2
      exact ⟨_, rfl, .miss hl (hbb rfl)⟩
  · rw [hl] at hf
    obtain rfl := (Prod.mk.inj hf).2
    exact ⟨_, rfl, .hit hl⟩

/-- No run looks up an odd address; every sequence of fetches at even addresses
keeps a block until its set has seen eight further misses. -/
theorem cache_retention :
    (∀ h : Hart M, Reachable h → ∀ t, t = h ∨ h.fetching = some t →
      t.pc.toNat % 2 = 0 ∧ t.pc ≠ BasicBlock.create.pc) ∧
    (∀ h h' : Hart M, h.step.hart? = some h' →
      h'.bbCache = (h.fetching.map fun t => t.fetchBB.2.bbCache).getD h.bbCache) ∧
    (∀ h h' : Hart M, h.fetchBB = (.ok (), h') →
      ∃ f, f.pc = h.pc ∧ Fetches h.bbCache [f] h'.bbCache) ∧
    ∀ ls c, Run Fetches BasicBlockCache.create ls c → (∀ f ∈ ls, f.pc.toNat % 2 = 0) →
      Retains ls c := by
  refine ⟨fun h hr t ht => ?_, fun _ _ => step_bbCache, fun _ _ => fetches_fetchBB,
    fun _ _ => retains_run⟩
  have heven : t.pc.toNat % 2 = 0 := by
    obtain rfl | ht := ht
    · exact (reachable_even hr).1
    · exact fetching_pc hr ht
  exact ⟨heven, ne_poison heven⟩

/-- Nine addresses of one set, the first of them twice: it is found, and then evicted. -/
theorem cache_retention_evicted : ∃ ls c, Run Fetches BasicBlockCache.create ls c ∧
    ls.map (fun f => (f.pc, f.hit)) = [(0, false), (0, true), (0x1000, false), (0x2000, false),
      (0x3000, false), (0x4000, false), (0x5000, false), (0x6000, false), (0x7000, false),
      (0x8000, false)] ∧
    (c.lookup 0).1 = false ∧ ∃ f, lastMiss 0x1000 ls = some f ∧ f.index = 1 ∧
      f.bb = c.bbs 1 ∧ (c.bbs 1).Complete 0x1000 := by
  let pcs : List RV64Ptr :=
    [0, 0, 0x1000, 0x2000, 0x3000, 0x4000, 0x5000, 0x6000, 0x7000, 0x8000]
  let ls := (BasicBlockCache.create.fetchAll pcs).1
  let c := (BasicBlockCache.create.fetchAll pcs).2
  have hrun : Run Fetches BasicBlockCache.create ls c := fetches_fetchAll _ pcs
  have hr : Retains ls c := (cache_retention (M := FlatMemory)).2.2.2 ls c hrun (by decide +kernel)
  have hsince : missesSince 0 ls = 8 := by decide +kernel
  have hindex : (c.lookup 0x1000).2.1 = 1 := by decide +kernel
  refine ⟨ls, c, hrun, by decide +kernel, ?_, ?_⟩
  · refine Bool.eq_false_iff.mpr fun hl => ?_
    exact absurd ((hr.retained 0 (by decide)).mp hl).2 (hsince ▸ lt_irrefl 8)
  · have hl : (c.lookup 0x1000).1 = true :=
      (hr.retained 0x1000 (by decide)).mpr (by decide +kernel)
    obtain ⟨f, hf, -, hat, hbb, -, hcomplete, -⟩ := hr.hit 0x1000 (by decide) hl
    rw [hindex] at hat hbb
    exact ⟨f, hf, hat, hbb, hbb ▸ hcomplete⟩

end Hart

end Besm.Sim
