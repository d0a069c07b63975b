import Besm.Sim.Cursor
import Besm.Sim.Refinement

namespace Besm.Sim

open Besm.Exec Besm.Mem Besm.Lib.Encoding Besm.Lib.Transition

variable {M : Type}

namespace Hart

def Covers (h : Hart M) (a : RV64Ptr) : Prop := ∃ index, a ∈ (h.bbCache.bbs index).words

def At (h : Hart M) (a : RV64Ptr) : Prop :=
  ∃ p i, h.currentInstr = some p ∧ h.current = some i ∧ i.operation ≠ .bbEnd ∧
    (h.bbCache.bbs p.index).addr p.pos = a

/-- No end mark lies before the current instruction in its block. -/
def Passed (h : Hart M) : Prop :=
  ∃ p, h.currentInstr = some p ∧ ∀ j < p.pos, ∃ i, (h.bbCache.bbs p.index).instrs j = some i ∧
    i.operation ≠ .bbEnd

variable [Memory M]

/-- Every block that has an instruction at the address has the one that is in
the memory. -/
def Seen (h : Hart M) (a : RV64Ptr) : Prop :=
  ∀ index k, (h.bbCache.bbs index).addr k = a →
    (∀ j ≤ k, ∃ i, (h.bbCache.bbs index).instrs j = some i ∧ i.operation ≠ .bbEnd) →
    ∃ word, Memory.contents h.mem .word a = .ok word ∧
      (h.bbCache.bbs index).instrs k = some (Dec.parse word)

end Hart

variable [Memory M]

/-- If an exception leaves the call, then it is of the load or store that the
call is of, and not of a fetch. -/
def Call.Fetches : Call M → Prop
  | .step h => ∀ e t, h.step = .thrown e t → ∃ i s, h.current = some i ∧
      effect i h.toArch = .throw e s
  | .run h => ∀ e t, h.run ≠ .thrown e t

def Call.Keeps (a : RV64Ptr) (c : Call M) : Prop :=
  ∀ t, c.after.hart? = some t →
    Memory.contents t.mem .word a = Memory.contents c.before.mem .word a

namespace Hart

variable {h h' : Hart M} {a : RV64Ptr}

theorem seen_of_uncovered (hno : ¬h.Covers a) : h.Seen a :=
  fun index k ha hk => absurd ⟨index, k, ha.symm, hk⟩ hno

theorem Seen.congr (hs : h.Seen a) (hbbs : h'.bbCache.bbs = h.bbCache.bbs)
    (hmem : Memory.contents h'.mem .word a = Memory.contents h.mem .word a) : h'.Seen a := by
  intro index k
  rw [hbbs, hmem]
  exact hs index k

theorem Seen.fetchBB [LawfulMemory M] (hs : h.Seen a) (hf : h.fetchBB = (.ok (), h')) :
    h'.Seen a := by
  obtain ⟨hbbs, hmem⟩ | ⟨slot, bb, -, hasm, hbbs⟩ := fetchBB_ok_cases hf
  · exact hs.congr hbbs (by rw [hmem])
  · obtain ⟨hmem, -, hbuilt⟩ := assembleBB_spec (h.bbCache.bbs slot) h.pc h.mem
    rw [hasm] at hmem hbuilt
    obtain ⟨n, hn⟩ := hbuilt rfl
    intro index k
    rw [hbbs, hmem]
    by_cases hi : index = slot
    · rw [hi, Function.update_self]
      rintro rfl hk
      have hlt : k < n := by
        by_contra hge
        obtain ⟨i, hi, hop⟩ := hk n (Nat.not_lt.mp hge)
        obtain ⟨i', hi', hend⟩ := hn.stop
        exact hop (Option.some.inj (hi.symm.trans hi') ▸ hend)
      exact hn.decoded k hlt
    · rw [Function.update_of_ne hi]
      exact hs index k

theorem Seen.step [LawfulMemory M] (hs : h.Seen a) (hf : (Call.step h).Fetches)
    (hk : (Call.step h).Keeps a) (hh : h.step.hart? = some h') : h'.Seen a := by
  obtain hcache | ⟨t, t', hcache, hmem, ht, hcache', hmem'⟩ := fetched_of_step hh hf
  · exact hs.congr (by rw [hcache]) (hk h' hh)
  · have hseen : t.Seen a := hs.congr (by rw [hcache]) (by rw [hmem])
    exact (hseen.fetchBB ht).congr (by rw [hcache']) (by rw [hmem'])

theorem Seen.run [LawfulMemory M] (hs : h.Seen a) (hf : (Call.run h).Fetches)
    (hh : h.run.hart? = some h') : h'.Seen a := by
  obtain ⟨t, ht, hend⟩ | ⟨e, t, -, hend⟩ := h.execBBEND_cases
  · rw [Hart.run, hend] at hh
    exact Option.some.inj hh ▸ hs.fetchBB ht
  · exact absurd hend (hf e t)

theorem Passed.step (hr : Reachable h) (hp : h.Passed) (hstep : h.step = .running h') :
    h'.Passed := by
  have hreach : Reachable h' := .step hr (.inl (by rw [hstep]; rfl))
  obtain ⟨p, hptr, hpast⟩ := hp
  cases comes_of_step hstep with
  | fetched hcur hop ht =>
    exact ⟨_, slot_fetchBB ht, fun j hj => absurd hj (Nat.not_lt_zero j)⟩
  | @next i s _ hcur hop he ht =>
    obtain ⟨p', j, hptr', -, rfl⟩ := execNextInstr_running ht
    obtain rfl : p = p' := Option.some.inj (hptr.symm.trans hptr')
    refine ⟨_, rfl, fun k hk => ?_⟩
    obtain hlt | rfl := Nat.lt_succ_iff_lt_or_eq.mp hk
    · exact hpast k hlt
    · exact ⟨i, (current_of_ptr hptr).symm.trans hcur, hop⟩
  | trapped hcur hop he ht ho =>
    have hptr' := slot_fetchBB ht
    obtain ⟨first, hfirst⟩ := current_of_resume ho
    rw [current_of_ptr hptr'] at hfirst
    obtain ⟨-, hcache, -, -, -, -, hnext⟩ := resume_running ho
    rw [hptr'] at hnext
    rw [← hcache] at hfirst
    refine ⟨_, hnext, fun k hk => ?_⟩
    obtain rfl : k = 0 := Nat.lt_one_iff.mp hk
    exact ⟨first, hfirst, reachable_start hreach _ first hfirst⟩

theorem passed_calls {h₀ : Hart M} {ls : List (Call M)} (hinit : Initial h₀)
    (hrun : Run Calls (.returned h₀) ls (.running h)) : h.Passed := by
  refine (Run.invariant (I := fun o => (∀ t, o.hart? = some t → Reachable t) ∧
    ∀ t, o = .running t → t.Passed) ?_ hrun ⟨reachable_initial hinit, nofun⟩).2 h rfl
  rintro o ls o' ⟨hreach, hpassed⟩ hc
  refine ⟨reachable_call hreach hc, fun t ht => ?_⟩
  cases hc with
  | step u => exact (hpassed u rfl).step (hreach u rfl) ht
  | run hu =>
    exact ⟨_, slot_fetchBB (execBBEND_running ht), fun j hj => absurd hj (Nat.not_lt_zero j)⟩

theorem seen_calls [LawfulMemory M] {o o' : Outcome M} {ls : List (Call M)} (hrun : Run Calls o ls o')
    (hls : ∀ c ∈ ls, c.Fetches ∧ c.Keeps a) (ho : ∀ t, o.hart? = some t → t.Seen a) :
    ∀ t, o'.hart? = some t → t.Seen a := by
  refine Run.history (I := fun _ o => ∀ t, o.hart? = some t → t.Seen a) ?_ hrun hls ho
  intro _ s ls t hs hls hc u hu
  cases hc with
  | step v =>
    obtain ⟨hf, hk⟩ := hls _ (List.mem_singleton.mpr rfl)
    exact (hs v rfl).step hf hk hu
  | run hv =>
    obtain ⟨hf, -⟩ := hls _ (List.mem_singleton.mpr rfl)
    exact (hs _ (Outcome.hart?_of_caller? hv)).run hf hu

/-- A fence changes nothing but the program counter, and the block that holds it goes on. -/
theorem step_fence {i : Instruction} (hcur : h.current = some i) (hop : i.operation = .fence) :
    h.step = (h.withArch h.nextPC).execNextInstr := by
  rw [step_instr hcur (by rw [hop]; decide), effect, hop]
  rfl

/-- Fences leave the blocks alone. A store is seen all the same by the code that
is not held in a block: if at some moment no block has an instruction at the
address, then control that reaches it finds the word in the memory, as long as
that word stays and no fetch fails. -/
theorem stored_code_seen [LawfulMemory M] {h₀ u : Hart M} {o : Outcome M}
    {before after : List (Call M)} (hinit : Initial h₀)
    (hbefore : Run Calls (.returned h₀) before o) (hu : o.hart? = some u)
    (hno : ¬u.Covers a) (hafter : Run Calls o after (.running h))
    (hkept : ∀ c ∈ after, c.Fetches ∧ c.Keeps a) (hat : h.At a) :
    (∃ word, Memory.contents h.mem .word a = .ok word ∧ h.current = some (Dec.parse word) ∧
      h.step = h.apply (effect (Dec.parse word) h.toArch)) ∧
    (∀ w, opcode w = 0b0001111 → funct3 w = 0b001 → (Dec.parse w).operation = .fence) ∧
    (∀ (v : Hart M) i, v.current = some i → i.operation = .fence →
      v.step = (v.withArch v.nextPC).execNextInstr) := by
  refine ⟨?_, fun w hc hf => ?_, fun v i => step_fence⟩
  · obtain ⟨p, i, hptr, hcur, hop, ha⟩ := hat
    obtain ⟨p', hptr', hpast⟩ := passed_calls hinit (hbefore.trans hafter)
    obtain rfl : p = p' := Option.some.inj (hptr.symm.trans hptr')
    have hi : (h.bbCache.bbs p.index).instrs p.pos = some i := (current_of_ptr hptr).symm.trans hcur
    have hseen := seen_calls hafter hkept (fun t ht => by
      rw [hu] at ht
      exact Option.some.inj ht ▸ seen_of_uncovered hno) h rfl
    obtain ⟨word, hword, hdec⟩ := hseen p.index p.pos ha fun j hj => by
      obtain hlt | rfl := Nat.lt_or_eq_of_le hj
      · exact hpast j hlt
      · exact ⟨i, hi, hop⟩
    have hcur' : h.current = some (Dec.parse word) := (current_of_ptr hptr).trans hdec
    exact ⟨word, hword, hcur', step_instr hcur' (Dec.parse_ne_bbEnd word)⟩
  · refine Dec.parse_miscMem hc ?_
    rw [Dec.cellOf, hc, hf]
    rfl

theorem bbCache_of_quiet {i : Instruction} (hcur : h.current = some i) (hop : i.operation ≠ .bbEnd)
    (hquiet : ∀ id r, ¬Raises i h.toArch id r) (hstep : h.step = .running h') :
    h'.bbCache = h.bbCache := by
  rw [step_instr hcur hop] at hstep
  obtain ⟨s, -, hnext⟩ := apply_running (fun id s r he => hquiet id r (raises_of_effect he).2) hstep
  obtain ⟨p, j, -, -, rfl⟩ := execNextInstr_running hnext
  rfl

theorem uncovered_of_first {garbage : Register → RV64UDWord} {mem : M} {pos : Nat} {i : Instruction}
    (hf : (Hart.create garbage mem).fetchBB = (.ok (), h)) (hcache : h'.bbCache = h.bbCache)
    (hi : (h'.bbCache.bbs 0).instrs pos = some i) (hend : i.operation = .bbEnd)
    (ha : ∀ k < pos, (h'.bbCache.bbs 0).addr k ≠ a) (hodd : a ≠ 1) : ¬h'.Covers a := by
  have hcreate : a ∉ BasicBlock.create.words := by
    rintro ⟨k, rfl, hk⟩
    cases k with
    | zero => exact hodd rfl
    | succ k =>
      obtain ⟨j, hj, -⟩ := hk 1 (by omega)
      cases hj
  have hfirst : a ∉ (h'.bbCache.bbs 0).words := by
    rintro ⟨k, rfl, hk⟩
    by_cases hlt : k < pos
    · exact ha k hlt rfl
    · obtain ⟨j, hj, hop⟩ := hk pos (Nat.not_lt.mp hlt)
      exact hop (Option.some.inj (hj.symm.trans hi) ▸ hend)
  rintro ⟨index, hindex⟩
  by_cases h0 : index = 0
  · exact hfirst (h0 ▸ hindex)
  · rw [hcache] at hindex
    obtain ⟨hbbs, -⟩ | ⟨slot, bb, rfl, -, hbbs⟩ := fetchBB_ok_cases hf
    · rw [hbbs] at hindex
      exact hcreate hindex
    · have hslot : ((create garbage mem).bbCache.lookup (create garbage mem).pc).2.1 = 0 := by
        change (BasicBlockCache.create.lookup ((GPRF.create garbage).read GPRF.pc)).2.1 = 0
        rw [GPRF.read_create_pc]
        decide +kernel
      rw [hbbs, hslot, Function.update_of_ne h0] at hindex
      exact hcreate hindex

theorem kept_of_running (hstep : h.step = .running h')
    (hmem : Memory.contents h'.mem .word a = Memory.contents h.mem .word a) :
    (Call.step h).Fetches ∧ (Call.step h).Keeps a := by
  refine ⟨fun e t ht => ?_, fun t ht => ?_⟩
  · rw [hstep] at ht
    cases ht
  · change h.step.hart? = some t at ht
    rw [hstep] at ht
    exact Option.some.inj ht ▸ hmem

theorem stored_code_seen_behind :
    ∃ u h : Hart FlatMemory,
      (Hart.create (fun _ => 0) (FlatMemory.image
        [0x01002103, 0x02202023, 0x0000100F, 0x0140006F, 0x00000013])).runFor 2 = some u ∧
      (Hart.create (fun _ => 0) (FlatMemory.image
        [0x01002103, 0x02202023, 0x0000100F, 0x0140006F, 0x00000013])).runFor 5 = some h ∧
      ¬u.Covers 0x20 ∧ h.At 0x20 ∧
      ∃ word, Memory.contents h.mem .word 0x20 = .ok word ∧ h.current = some (Dec.parse word) ∧
        h.step = h.apply (effect (Dec.parse word) h.toArch) := by
  let h₀ := Hart.create (fun _ => 0) (FlatMemory.image
    [0x01002103, 0x02202023, 0x0000100F, 0x0140006F, 0x00000013])
  have hsome : (h₀.runFor 5).isSome = true := by decide +kernel
  obtain ⟨h, hr⟩ := Option.isSome_iff_exists.mp hsome
  obtain ⟨h₄, hr₄, hs₄⟩ := Option.bind_eq_some_iff.mp hr
  obtain ⟨h₃, hr₃, hs₃⟩ := Option.bind_eq_some_iff.mp hr₄
  obtain ⟨u, hru, hs₂⟩ := Option.bind_eq_some_iff.mp hr₃
  obtain ⟨h₁, hr₁, hs₁⟩ := Option.bind_eq_some_iff.mp hru
  obtain ⟨g, hg, hs₀⟩ := Option.bind_eq_some_iff.mp hr₁
  have hcurg : g.current = some ⟨2, 0, 0, 16, .lw⟩ :=
    of_runFor (f := fun h => h.current) hg (by decide +kernel)
  have hcur₁ : h₁.current = some ⟨0, 0, 2, 32, .sw⟩ :=
    of_runFor (f := fun h => h.current) hr₁ (by decide +kernel)
  have hword : ∀ {n} {t : Hart FlatMemory}, h₀.runFor n = some t →
      (h₀.runFor n).map (fun t => Memory.contents t.mem .word 0x20) = some (.ok 0x13) →
      Memory.contents t.mem .word 0x20 = .ok 0x13 := fun ht => of_runFor ht
  rw [Outcome.running?_eq_some] at hs₄ hs₃ hs₂ hs₁ hs₀
  have hrun : h₀.run = .running g := Outcome.running?_eq_some.mp hg
  have hcache : u.bbCache = g.bbCache := by
    rw [bbCache_of_quiet hcur₁ (by decide) (by intro id r hr; cases hr <;> contradiction) hs₁,
      bbCache_of_quiet hcurg (by decide) (by intro id r hr; cases hr <;> contradiction) hs₀]
  have hend : ((u.bbCache.bbs 0).instrs 4).map Instruction.operation = some .bbEnd :=
    of_runFor (f := fun u => ((u.bbCache.bbs 0).instrs 4).map Instruction.operation) hru
      (by decide +kernel)
  have hpc : (u.bbCache.bbs 0).pc = 0 :=
    of_runFor (f := fun u => (u.bbCache.bbs 0).pc) hru (by decide +kernel)
  obtain ⟨i, hi, hop⟩ := Option.map_eq_some_iff.mp hend
  have hno : ¬u.Covers 0x20 := by
    refine uncovered_of_first (execBBEND_running hrun) hcache hi hop (fun k hk => ?_) (by decide)
    rw [BasicBlock.addr, hpc]
    revert k
    decide
  have hcalls : ∀ {v w : Hart FlatMemory}, v.step = .running w →
      Calls (.running v) [.step v] (.running w) := fun {v w} hs => hs ▸ .step v
  have hfirst : Calls (.returned h₀) [.run h₀] (.running g) := hrun ▸ .run rfl
  have hbefore := ((Run.single hfirst).tail (hcalls hs₀)).tail (hcalls hs₁)
  have hafter := ((Run.single (hcalls hs₂)).tail (hcalls hs₃)).tail (hcalls hs₄)
  have hptr : h.currentInstr = some ⟨8, 0⟩ :=
    of_runFor (f := fun h => h.currentInstr) hr (by decide +kernel)
  have hat : h.At 0x20 := ⟨_, ⟨0, 0, 0, 0, .addi⟩, hptr,
    of_runFor (f := fun h => h.current) hr (by decide +kernel), by decide,
    of_runFor (f := fun h => (h.bbCache.bbs 8).addr 0) hr (by decide +kernel)⟩
  refine ⟨u, h, hru, hr, hno, hat, ?_⟩
  refine (stored_code_seen ⟨_, _, rfl⟩ hbefore rfl hno hafter ?_ hat).1
  have hu := hword hru (by decide +kernel)
  have h3 := hword hr₃ (by decide +kernel)
  have h4 := hword hr₄ (by decide +kernel)
  have h5 := hword hr (by decide +kernel)
  simp only [List.forall_mem_append, List.forall_mem_singleton]
  exact ⟨⟨kept_of_running hs₂ (h3.trans hu.symm), kept_of_running hs₃ (h4.trans h3.symm)⟩,
    kept_of_running hs₄ (h5.trans h4.symm)⟩

/-- A guest that overwrites the first word of the block it runs, executes a
FENCE.I, and then runs the old instruction again. -/
theorem overwritten_code_unseen :
    ∃ g u v h : Hart FlatMemory,
      (Hart.create (fun _ => 0) (FlatMemory.image
        [0x01002103, 0x00202023, 0x0000100F, 0xFF5FF06F, 0x00000013])).runFor 1 = some g ∧
      g.current.map Instruction.operation = some .sw ∧ g.step = .running u ∧
      Memory.contents g.mem .word 0 = .ok 0x01002103 ∧ Memory.contents u.mem .word 0 = .ok 0x13 ∧
      u.current = some (Dec.parse 0x0000100F) ∧ (Dec.parse 0x0000100F).operation = .fence ∧
      u.step = .running v ∧
      (Hart.create (fun _ => 0) (FlatMemory.image
        [0x01002103, 0x00202023, 0x0000100F, 0xFF5FF06F, 0x00000013])).runFor 5 = some h ∧
      v.pc = 0xC ∧ h.pc = 0 ∧ h.At 0 ∧ Memory.contents h.mem .word 0 = .ok 0x13 ∧
      h.current = some (Dec.parse 0x01002103) ∧ h.current ≠ some (Dec.parse 0x13) ∧
      h.step = h.apply (effect (Dec.parse 0x01002103) h.toArch) := by
  let h₀ := Hart.create (fun _ => 0) (FlatMemory.image
    [0x01002103, 0x00202023, 0x0000100F, 0xFF5FF06F, 0x00000013])
  have hsome : (h₀.runFor 5).isSome = true := by decide +kernel
  obtain ⟨h, hr⟩ := Option.isSome_iff_exists.mp hsome
  obtain ⟨w, hrw, -⟩ := Option.bind_eq_some_iff.mp hr
  obtain ⟨v, hrv, -⟩ := Option.bind_eq_some_iff.mp hrw
  obtain ⟨u, hru, hsv⟩ := Option.bind_eq_some_iff.mp hrv
  obtain ⟨g, hrg, hsu⟩ := Option.bind_eq_some_iff.mp hru
  have hptr : h.currentInstr = some ⟨0, 0⟩ :=
    of_runFor (f := fun h => h.currentInstr) hr (by decide +kernel)
  have hcur : h.current = some (Dec.parse 0x01002103) :=
    of_runFor (f := fun h => h.current) hr (by decide +kernel)
  have hlw : (Dec.parse 0x01002103).operation ≠ .bbEnd := Dec.parse_ne_bbEnd _
  refine ⟨g, u, v, h, hrg, of_runFor (f := fun g => g.current.map Instruction.operation) hrg
    (by decide +kernel), Outcome.running?_eq_some.mp hsu, ?_, ?_, ?_, by decide +kernel,
    Outcome.running?_eq_some.mp hsv, hr, ?_, ?_, ⟨_, _, hptr, hcur, hlw, ?_⟩, ?_, hcur, ?_,
    step_instr hcur hlw⟩
  · exact of_runFor (f := fun g => Memory.contents g.mem .word 0) hrg (by decide +kernel)
  · exact of_runFor (f := fun u => Memory.contents u.mem .word 0) hru (by decide +kernel)
  · exact of_runFor (f := fun u => u.current) hru (by decide +kernel)
  · exact of_runFor (f := fun v => v.pc) hrv (by decide +kernel)
  · exact of_runFor (f := fun h => h.pc) hr (by decide +kernel)
  · exact of_runFor (f := fun h => (h.bbCache.bbs 0).addr 0) hr (by decide +kernel)
  · exact of_runFor (f := fun h => Memory.contents h.mem .word 0) hr (by decide +kernel)
  · rw [hcur]
    decide +kernel

end Hart

end Besm.Sim
