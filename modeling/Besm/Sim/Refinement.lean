import Besm.Memory.Flat
import Besm.Sim.Blocks
import Besm.Sim.Interpreter

namespace Besm.Exec

open Besm.Mem

def BasicBlock.words (bb : BasicBlock) : Set RV64Ptr :=
  {a | ∃ k, a = bb.addr k ∧ ∀ j ≤ k, ∃ i, bb.instrs j = some i ∧ i.operation ≠ .bbEnd}

def BasicBlock.Poisoned (bb : BasicBlock) : Prop :=
  ∃ i, bb.instrs 0 = some i ∧ i.operation = .invOp

variable {bb : BasicBlock} {n : Nat}
  {contents contents' : (w : Width) → RV64Ptr → Except MemError (BitVec (8 * w.size))}

theorem BasicBlock.Built.addr_mem_words (hb : bb.Built contents n) {k : Nat} (hk : k < n) :
    bb.addr k ∈ bb.words :=
  ⟨k, rfl, fun _ hj => hb.instr (Nat.lt_of_le_of_lt hj hk)⟩

theorem BasicBlock.Built.congr (hb : bb.Built contents n)
    (h : ∀ k < n, contents' .word (bb.addr k) = contents .word (bb.addr k)) :
    bb.Built contents' n := by
  refine { hb with decoded := fun k hk => ?_ }
  obtain ⟨word, hw, hi⟩ := hb.decoded k hk
  exact ⟨word, (h k hk).trans hw, hi⟩

end Besm.Exec

namespace Besm.Sim

open Besm.Exec Besm.Mem Besm.Lib.Transition

variable {M : Type}

namespace Hart

def fetchedWords (h : Hart M) : Set RV64Ptr :=
  {a | ∃ bb, HookEvent.bbFetched bb ∈ h.hooks ∧ a ∈ bb.words}

theorem fetchedWords_subset {h h' : Hart M} (hh : ∃ l, h'.hooks = h.hooks ++ l) :
    h.fetchedWords ⊆ h'.fetchedWords := by
  rintro a ⟨bb, hb, ha⟩
  obtain ⟨l, hl⟩ := hh
  exact ⟨bb, by rw [hl]; exact List.mem_append_left _ hb, ha⟩

def StoresApart (h : Hart M) (i : Instruction) : Prop :=
  ∀ w, storeWidth i.operation = some w → ∀ a ∈ h.fetchedWords,
    Memory.Apart (h.address i) w.size a 4

/-- A hart that has not run yet, with any registers and any memory. -/
structure Fresh (h : Hart M) : Prop where
  bbCache : h.bbCache = BasicBlockCache.create
  hooks : h.hooks = []

variable [Memory M]

def view (h : Hart M) : View := h.toArch.view

end Hart

variable [Memory M]

/-- One handler call of a run that raises no trap and stores into no fetched
word. The call that ends a block is silent. -/
inductive QuietStep : Hart M → List Applied → Hart M → Prop
  | bbEnd {h h' : Hart M} {i : Instruction} (hcur : h.current = some i)
      (hop : i.operation = .bbEnd) (hstep : h.step = .running h') : QuietStep h [] h'
  | instr {h h' : Hart M} {i : Instruction} (hcur : h.current = some i)
      (hop : i.operation ≠ .bbEnd)
      (hquiet : ∀ id s r, effect i h.toArch ≠ .raise id s r)
      (hapart : h.StoresApart i) (hstep : h.step = .running h') :
      QuietStep h [⟨h.pc, i, h'.view⟩] h'

def Hart.advance (h : Hart M) : Option (List Applied × Hart M) :=
  match h.current, h.step with
  | some i, .running h' =>
    if i.operation = .bbEnd then some ([], h')
    else if storeWidth i.operation = none then
      match effect i h.toArch with
      | .raise _ _ _ => none
      | _ => some ([⟨h.pc, i, h'.view⟩], h')
    else none
  | _, _ => none

theorem quietStep_of_advance {h h' : Hart M} {ls : List Applied}
    (ha : h.advance = some (ls, h')) : QuietStep h ls h' := by
  unfold Hart.advance at ha
  cases hcur : h.current with
  | none => simp [hcur] at ha
  | some i =>
    cases hstep : h.step with
    | running t =>
      rw [hcur, hstep] at ha
      dsimp only at ha
      split_ifs at ha with hop hw
      · cases ha
        exact .bbEnd hcur hop hstep
      · split at ha
        case h_1 => cases ha
        case h_2 hquiet =>
          cases ha
          exact .instr hcur hop hquiet (fun w hw' => nomatch hw.symm.trans hw') hstep
    | _ => simp [hcur, hstep] at ha

namespace Hart

/-- A block of the words that memory still holds at its address, all of them
fetched in this run. -/
structure Holds (h : Hart M) (bb : BasicBlock) (n : Nat) : Prop where
  built : bb.Built (Memory.contents h.mem) n
  fetched : ∀ k < n, bb.addr k ∈ h.fetchedWords

def SlotHolds (h : Hart M) (bb : BasicBlock) : Prop := bb.Poisoned ∨ ∃ n, h.Holds bb n

/-- The current instruction lies in its block where the program counter says,
or is the end mark of the block. -/
def CursorHolds (h : Hart M) (p : InstrPtr) : Prop :=
  ((h.bbCache.bbs p.index).Poisoned ∧ p.pos = 0) ∨
    ∃ n, h.Holds (h.bbCache.bbs p.index) n ∧ p.pos ≤ n ∧
      (p.pos < n → h.pc = (h.bbCache.bbs p.index).addr p.pos)

structure Coherent (h : Hart M) : Prop where
  slots : ∀ index, h.SlotHolds (h.bbCache.bbs index)
  cursor : ∃ p, h.currentInstr = some p ∧ h.CursorHolds p

theorem CursorHolds.instr {h : Hart M} {p : InstrPtr} (hp : h.CursorHolds p) :
    ∃ i, (h.bbCache.bbs p.index).instrs p.pos = some i := by
  obtain ⟨⟨i, hi, -⟩, hpos⟩ | ⟨n, hb, hle, -⟩ := hp
  · exact ⟨i, hpos ▸ hi⟩
  · obtain hlt | heq := Nat.lt_or_eq_of_le hle
    · obtain ⟨i, hi, -⟩ := hb.built.instr hlt
      exact ⟨i, hi⟩
    · obtain ⟨i, hi, -⟩ := hb.built.stop
      exact ⟨i, heq ▸ hi⟩

theorem Coherent.current {h : Hart M} (hc : h.Coherent) : ∃ i, h.current = some i := by
  obtain ⟨p, hp, hcur⟩ := hc.cursor
  obtain ⟨i, hi⟩ := hcur.instr
  exact ⟨i, by rw [Hart.current, hp]; exact hi⟩

theorem Holds.mono {h h' : Hart M} {bb : BasicBlock} {n : Nat} (hb : h.Holds bb n)
    (hm : ∀ a ∈ h.fetchedWords, Memory.contents h'.mem .word a = Memory.contents h.mem .word a)
    (hw : h.fetchedWords ⊆ h'.fetchedWords) : h'.Holds bb n :=
  ⟨hb.built.congr fun k hk => hm _ (hb.fetched k hk), fun k hk => hw (hb.fetched k hk)⟩

theorem SlotHolds.mono {h h' : Hart M} {bb : BasicBlock} (hs : h.SlotHolds bb)
    (hm : ∀ a ∈ h.fetchedWords, Memory.contents h'.mem .word a = Memory.contents h.mem .word a)
    (hw : h.fetchedWords ⊆ h'.fetchedWords) : h'.SlotHolds bb :=
  hs.imp_right fun ⟨n, hb⟩ => ⟨n, hb.mono hm hw⟩

theorem enterBB_coherent {h : Hart M} {index : Nat}
    (hslots : ∀ j, j ≠ index → h.SlotHolds (h.bbCache.bbs j))
    (hbb : (h.bbCache.bbs index).Poisoned ∨
      ∃ n, (h.bbCache.bbs index).Built (Memory.contents h.mem) n)
    (hpc : (h.bbCache.bbs index).pc = h.pc) :
    (h.enterBB index).Coherent ∧
      ∃ i, (h.enterBB index).current = some i ∧ i.operation ≠ .bbEnd := by
  have hsub : h.fetchedWords ⊆ (h.enterBB index).fetchedWords := fetchedWords_subset ⟨_, rfl⟩
  have hnew : (h.bbCache.bbs index).words ⊆ (h.enterBB index).fetchedWords :=
    fun a ha => ⟨_, List.mem_append_right _ (List.mem_singleton.mpr rfl), ha⟩
  have hholds : ∀ n, (h.bbCache.bbs index).Built (Memory.contents h.mem) n →
      (h.enterBB index).Holds (h.bbCache.bbs index) n :=
    fun n hb => ⟨hb, fun k hk => hnew (hb.addr_mem_words hk)⟩
  refine ⟨⟨fun j => ?_, ⟨index, 0⟩, rfl, ?_⟩, ?_⟩
  · by_cases hj : j = index
    · subst hj
      exact hbb.imp_right fun ⟨n, hb⟩ => ⟨n, hholds n hb⟩
    · exact (hslots j hj).mono (fun _ _ => rfl) hsub
  · obtain hp | ⟨n, hb⟩ := hbb
    · exact .inl ⟨hp, rfl⟩
    · exact .inr ⟨n, hholds n hb, Nat.zero_le n, fun _ => hpc.symm.trans (BasicBlock.addr_zero _).symm⟩
  · obtain ⟨i, hi, hop⟩ | ⟨n, hb⟩ := hbb
    · exact ⟨i, hi, by rw [hop]; decide⟩
    · exact hb.instr hb.pos

/-- A block fetched without an exception is one the memory holds at the program
counter, and fetching it changes nothing the program can see. -/
theorem fetchBB_coherent [LawfulMemory M] {h h' : Hart M}
    (hslots : ∀ index, h.SlotHolds (h.bbCache.bbs index)) (hf : h.fetchBB = (.ok (), h')) :
    h'.view = h.view ∧ h'.Coherent ∧ ∃ i, h'.current = some i ∧ i.operation ≠ .bbEnd := by
  have hbbs := BasicBlockCache.lookup_bbs h.bbCache h.pc
  have hhit := BasicBlockCache.lookup_hit_pc h.bbCache h.pc
  unfold fetchBB at hf
  revert hf hbbs hhit
  obtain ⟨_ | _, index, cache⟩ := h.bbCache.lookup h.pc <;> intro hf hbbs hhit
  · have hbuilt := assembleBB_spec (cache.bbs index) h.pc h.mem
    dsimp only at hf
    revert hf hbuilt
    obtain ⟨_ | _, bb, mem⟩ := assembleBB (cache.bbs index) h.pc h.mem <;> intro hf hbuilt
    · cases hf
    · obtain ⟨hmem, hpc, hbb⟩ := hbuilt
      cases hf
      dsimp only at hmem hpc hbb
      refine ⟨?_, enterBB_coherent (fun j hj => ?_) ?_ ?_⟩
      · exact congrArg (View.mk h.gprf h.csrf) hmem
      · rw [BasicBlockCache.setBB_ne _ _ hj, hbbs]
        exact (hslots j).mono (fun a _ => congrFun (congrFun hmem .word) a) fun _ ha => ha
      · rw [BasicBlockCache.setBB_same]
        exact .inr (hmem ▸ hbb rfl)
      · rw [BasicBlockCache.setBB_same]
        exact hpc
  · cases hf
    dsimp only at hbbs hhit
    refine ⟨rfl, enterBB_coherent (fun j _ => ?_) ?_ ?_⟩
    · rw [hbbs]
      exact (hslots j).mono (fun _ _ => rfl) fun _ ha => ha
    · rw [hbbs]
      exact (hslots index).imp_right fun ⟨n, hb⟩ => ⟨n, hb.built⟩
    · rw [hbbs]
      exact hhit rfl

end Hart

theorem pc_of_advances {i : Instruction} {s s' : Arch M} (hrd : i.rd < 32)
    (hjump : i.isJump = false) (h : Advances i s s') : s'.pc = s.pc + 4 := by
  have hop : i.operation ≠ .jal ∧ i.operation ≠ .jalr ∧ i.operation ≠ .mret ∧
      isBranch i.operation = false := by
    revert hjump
    unfold Instruction.isJump isBranch
    cases i.operation <;> simp [InstructionOp.isJump]
  cases h with
  | retire value => rw [Arch.pc_nextPC, Arch.pc_write _ _ hrd]
  | fence => exact Arch.pc_nextPC s
  | jal h => exact absurd h hop.1
  | jalr h => exact absurd h hop.2.1
  | taken h => rw [hop.2.2.2] at h; cases h
  | notTaken => exact Arch.pc_nextPC s
  | load w value => rw [Arch.pc_nextPC, Arch.pc_write _ _ hrd]; rfl
  | store w h value => rw [Arch.pc_nextPC]; rfl
  | csrRead value => rw [Arch.pc_nextPC, Arch.pc_write _ _ hrd]
  | csrWrite f => rw [Arch.pc_nextPC, Arch.pc_write _ _ hrd]; rfl
  | mret _ h => exact absurd h hop.2.2.1

theorem word_of_advances [LawfulMemory M] {i : Instruction} {s s' : Arch M} (h : Advances i s s')
    {a : RV64Ptr} (ha : ∀ w, storeWidth i.operation = some w → Memory.Apart (s.address i) w.size a 4) :
    Memory.contents s'.mem .word a = Memory.contents s.mem .word a := by
  cases h with
  | load w value =>
    exact congrFun (congrFun (LawfulMemory.load_contents s.mem w (s.address i)) .word) a
  | store w hop value => exact LawfulMemory.store_apart s.mem w _ a value (ha w hop)
  | _ => rfl

namespace Hart

/-- The current instruction, if it traps not and ends no block, is the decoded
word at the program counter, and the next slot comes after it. -/
theorem Coherent.decoded {h : Hart M} (hc : h.Coherent) {i : Instruction}
    (hcur : h.current = some i) (hop : i.operation ≠ .bbEnd)
    (hquiet : ∀ id s r, effect i h.toArch ≠ .raise id s r) :
    ∃ p n, h.currentInstr = some p ∧ h.Holds (h.bbCache.bbs p.index) n ∧ p.pos < n ∧
      h.pc = (h.bbCache.bbs p.index).addr p.pos ∧
      (h.bbCache.bbs p.index).instrs p.pos = some i := by
  obtain ⟨p, hp, hh⟩ := hc.cursor
  have hi : (h.bbCache.bbs p.index).instrs p.pos = some i := by
    rw [Hart.current, hp] at hcur
    exact hcur
  obtain ⟨⟨j, hj, hinv⟩, hpos⟩ | ⟨n, hb, hle, hpc⟩ := hh
  · rw [hpos, hj] at hi
    obtain rfl := Option.some.inj hi
    refine absurd ?_ (hquiet .illegalInstr h.toArch .ret)
    rw [effect, hinv]
    rfl
  · obtain hlt | heq := Nat.lt_or_eq_of_le hle
    · exact ⟨p, n, hp, hb, hlt, hpc hlt, hi⟩
    · obtain ⟨j, hj, hend⟩ := hb.built.stop
      rw [heq, hj] at hi
      exact absurd (Option.some.inj hi ▸ hend) hop

/-- Any instruction of a quiet run leaves the blocks true to the memory and
the cursor where the program counter is. -/
theorem Coherent.instr [LawfulMemory M] {h h' : Hart M} (hc : h.Coherent) {i : Instruction}
    (hcur : h.current = some i) (hop : i.operation ≠ .bbEnd)
    (hquiet : ∀ id s r, effect i h.toArch ≠ .raise id s r) (hapart : h.StoresApart i)
    {s : Arch M} (he : effect i h.toArch = .next s)
    (hnext : (h.withArch s).execNextInstr = .running h') : h'.Coherent ∧ h'.toArch = s := by
  obtain ⟨p, n, hp, hb, hlt, hpc, hi⟩ := hc.decoded hcur hop hquiet
  have hadv := advances_of_effect hop he
  have hmem : ∀ a ∈ h.fetchedWords,
      Memory.contents s.mem .word a = Memory.contents h.mem .word a :=
    fun a ha => word_of_advances hadv fun w hw => hapart w hw a ha
  obtain ⟨p', i', hp', -, rfl⟩ := execNextInstr_running hnext
  obtain rfl : p = p' := Option.some.inj (hp.symm.trans hp')
  have hsub : h.fetchedWords ⊆ fetchedWords { h.withArch s with
      instrsExecuted := h.instrsExecuted + 1
      hooks := h.hooks ++ [.instrExecuted i']
      currentInstr := some { p with pos := p.pos + 1 } } :=
    fetchedWords_subset ⟨_, rfl⟩
  refine ⟨⟨fun index => (hc.slots index).mono hmem hsub, _, rfl,
    .inr ⟨n, hb.mono hmem hsub, hlt, fun hlt' => ?_⟩⟩, rfl⟩
  obtain ⟨word, -, hword⟩ := hb.built.decoded _ hlt
  obtain rfl : i = Dec.parse word := Option.some.inj (hi.symm.trans hword)
  have hpc' := pc_of_advances (Dec.parse_registers word).1 (hb.built.straight _ hlt' _ hi) hadv
  rw [BasicBlock.addr_succ]
  exact hpc'.trans (congrArg (· + 4) hpc)

end Hart

def Refines (h : Hart M) (s : Arch M) : Prop := h.Coherent ∧ s.view = h.view

theorem Refines.fetch [LawfulMemory M] {h : Hart M} {s : Arch M} (hr : Refines h s)
    {i : Instruction} (hcur : h.current = some i) (hop : i.operation ≠ .bbEnd)
    (hquiet : ∀ id s r, effect i h.toArch ≠ .raise id s r) :
    ∃ e, Interpreter.fetch s = some (i, e) ∧
      e.map Arch.view = (effect i h.toArch).map Arch.view := by
  obtain ⟨hc, hv⟩ := hr
  obtain ⟨p, n, -, hb, hlt, hpc, hi⟩ := hc.decoded hcur hop hquiet
  obtain ⟨word, hword, hi'⟩ := hb.built.decoded _ hlt
  obtain rfl : i = Dec.parse word := Option.some.inj (hi.symm.trans hi')
  have hpc' : s.pc = h.pc := congrArg (fun v : View => v.gprf.read GPRF.pc) hv
  have hm : Memory.contents s.mem = Memory.contents h.mem := congrArg View.contents hv
  have hload : (Memory.load s.mem .word s.pc).1 = .ok word := by
    rw [hpc', hpc, ← hword]
    exact congrFun (congrFun hm .word) _
  have hkeep := LawfulMemory.load_contents s.mem .word s.pc
  unfold Interpreter.fetch
  revert hload hkeep
  obtain ⟨r, mem⟩ := Memory.load s.mem .word s.pc
  rintro (rfl : r = .ok word) hkeep
  exact ⟨_, rfl, effect_congr _ ((congrArg (View.mk s.gprf s.csrf) hkeep).trans hv)⟩

/-- A quiet step of the hart is a step of the interpreter, or none. -/
theorem refines_simulates [LawfulMemory M] :
    Simulates (QuietStep (M := M)) Interpreter.Step Refines := by
  intro h s hr ls h' hstep
  obtain ⟨hc, hv⟩ := hr
  cases hstep with
  | bbEnd hcur hop hstep =>
    rw [Hart.step_bbEnd hcur hop] at hstep
    obtain ⟨hv', hc', -⟩ := Hart.fetchBB_coherent hc.slots (Hart.execBBEND_running hstep)
    exact ⟨s, .refl s, hc', hv.trans hv'.symm⟩
  | instr hcur hop hquiet hapart hstep =>
    rename_i i
    rw [Hart.step_instr hcur hop] at hstep
    obtain ⟨t, he, hnext⟩ := Hart.apply_running hquiet hstep
    obtain ⟨hc', ht⟩ := hc.instr hcur hop hquiet hapart he hnext
    obtain ⟨e, hf, hmap⟩ := Refines.fetch ⟨hc, hv⟩ hcur hop hquiet
    rw [he] at hmap
    cases e with
    | next s' =>
      have hs' : s'.view = h'.view := (Effect.next.inj hmap).trans (congrArg Arch.view ht.symm)
      have hpc : s.pc = h.pc := congrArg (fun v : View => v.gprf.read GPRF.pc) hv
      refine ⟨s', Run.single ?_, hc', hs'⟩
      rw [← hpc, ← hs']
      exact .next hf
    | _ => cases hmap

theorem Hart.Fresh.refines [LawfulMemory M] {h₀ h₁ : Hart M} (hf : h₀.Fresh)
    (hrun : h₀.run = .running h₁) : Refines h₁ h₀.toArch := by
  have hslots : ∀ index, h₀.SlotHolds (h₀.bbCache.bbs index) := by
    intro index
    rw [hf.bbCache]
    exact .inl ⟨_, rfl, rfl⟩
  obtain ⟨hv, hc, -⟩ := Hart.fetchBB_coherent hslots (Hart.execBBEND_running hrun)
  exact ⟨hc, hv.symm⟩

/-- Block-cached execution applies the instructions of the plain interpreter,
in its order and with its states. What the hart is about to apply is the next
instruction of the interpreter, also where it is the last. -/
theorem run_refines_interpreter [LawfulMemory M] {h₀ h₁ h : Hart M} {ls : List Applied}
    (hfresh : h₀.Fresh) (hrun : h₀.run = .running h₁) (hsteps : Run QuietStep h₁ ls h) :
    ∃ s, Run Interpreter.Step h₀.toArch ls s ∧ s.view = h.view ∧ (∃ i, h.current = some i) ∧
      (∀ i, h.current = some i → i.operation ≠ .bbEnd →
        (∀ id s r, effect i h.toArch ≠ .raise id s r) →
        ∃ e, Interpreter.fetch s = some (i, e) ∧
          e.map Arch.view = (effect i h.toArch).map Arch.view) ∧
      (∀ i h', h.current = some i → i.operation = .bbEnd → h.step = .running h' →
        ∃ i', h'.current = some i' ∧ i'.operation ≠ .bbEnd) := by
  obtain ⟨s, hrun', hr⟩ := refines_simulates.run hsteps (hfresh.refines hrun)
  refine ⟨s, hrun', hr.2, hr.1.current, fun i hcur hop hquiet => hr.fetch hcur hop hquiet, ?_⟩
  intro i h' hcur hop hstep
  rw [Hart.step_bbEnd hcur hop] at hstep
  exact (Hart.fetchBB_coherent hr.1.slots (Hart.execBBEND_running hstep)).2.2

/-- Seven instructions and a jump back to the second: a block that is full, one
of the jump, and one that the third time round is found in the cache. -/
def loopWords : List RV64UWord :=
  [0x00300093, 0x00110113, 0x00118193, 0x00118193, 0x00118193, 0x00118193, 0x00118193, 0xFE1114E3]

theorem run_refines_interpreter_loop :
    ∃ (h₁ h : Hart FlatMemory) (ls : List Applied) (s : Arch FlatMemory),
      (Hart.create (fun _ => 0) (FlatMemory.image loopWords)).run = .running h₁ ∧
      Run QuietStep h₁ ls h ∧ ls.length = 22 ∧
      Run Interpreter.Step (Hart.create (fun _ => 0) (FlatMemory.image loopWords)).toArch ls s ∧
      s.view = h.view ∧ h.read 2 = 3 ∧ h.read 3 = 15 := by
  let h₀ := Hart.create (fun _ => 0) (FlatMemory.image loopWords)
  have hsome : (h₀.runFor 0).isSome = true := by decide +kernel
  obtain ⟨h₁, hr⟩ := Option.isSome_iff_exists.mp hsome
  have hends : ((h₀.runFor 0).bind (iterate Hart.advance 25)).map (fun p =>
      (p.1.length, p.2.read 2, p.2.read 3)) = some (22, 3, 15) := by decide +kernel
  rw [hr] at hends
  obtain ⟨⟨ls, h⟩, hit, hend⟩ := Option.map_eq_some_iff.mp hends
  obtain ⟨hlen, h2, h3⟩ : ls.length = 22 ∧ h.read 2 = 3 ∧ h.read 3 = 15 := by
    simpa only [Prod.mk.injEq] using hend
  have hrun := Outcome.running?_eq_some.mp hr
  have hsteps := Run.of_iterate (fun _ _ _ => quietStep_of_advance) hit
  obtain ⟨s, hi, hv, -⟩ := run_refines_interpreter ⟨rfl, rfl⟩ hrun hsteps
  exact ⟨h₁, h, ls, s, hrun, hsteps, hlen, hi, hv, h2, h3⟩

end Besm.Sim
