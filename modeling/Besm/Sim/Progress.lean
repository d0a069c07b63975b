import Besm.Sim.Accesses
import Besm.Sim.Assembly

namespace Besm.Exec

open Besm.Mem

variable {bb : BasicBlock} {n : Nat}
  {contents contents' : (w : Width) → RV64Ptr → Except MemError (BitVec (8 * w.size))}

/-- The words from an address on that a block there takes: those up to the first
jump, and no more than it has room for. -/
def Taken (contents : (w : Width) → RV64Ptr → Except MemError (BitVec (8 * w.size)))
    (pc : RV64Ptr) (k : Nat) : Prop :=
  k < BasicBlock.kCapacity - 1 ∧ ∀ j < k, ∃ word : RV64UWord,
    contents .word (pc + BitVec.ofNat 64 (4 * j)) = .ok word ∧ (Dec.parse word).isJump = false

/-- A block at the address takes only words that can be read and are code. -/
def InCode (C : Set RV64Ptr)
    (contents : (w : Width) → RV64Ptr → Except MemError (BitVec (8 * w.size)))
    (pc : RV64Ptr) : Prop :=
  ∀ k, Taken contents pc k → pc + BitVec.ofNat 64 (4 * k) ∈ C ∧
    ∃ word, contents .word (pc + BitVec.ofNat 64 (4 * k)) = .ok word

theorem Taken.congr {C : Set RV64Ptr} {pc : RV64Ptr} (hc : InCode C contents pc)
    (h : ∀ a ∈ C, contents' .word a = contents .word a) {k : Nat} (hk : Taken contents' pc k) :
    Taken contents pc k := by
  induction k with
  | zero => exact ⟨hk.1, fun j hj => absurd hj (Nat.not_lt_zero j)⟩
  | succ k ih =>
    have hprev := ih ⟨Nat.lt_of_succ_lt hk.1, fun j hj => hk.2 j (Nat.lt_succ_of_lt hj)⟩
    refine ⟨hk.1, fun j hj => ?_⟩
    obtain hlt | rfl := Nat.lt_succ_iff_lt_or_eq.mp hj
    · exact hprev.2 j hlt
    · obtain ⟨word, hw, hjump⟩ := hk.2 j hj
      exact ⟨word, (h _ (hc j hprev).1).symm.trans hw, hjump⟩

theorem InCode.congr {C : Set RV64Ptr} {pc : RV64Ptr} (hc : InCode C contents pc)
    (h : ∀ a ∈ C, contents' .word a = contents .word a) : InCode C contents' pc := by
  intro k hk
  obtain ⟨hmem, word, hw⟩ := hc k (hk.congr hc h)
  exact ⟨hmem, word, (h _ hmem).trans hw⟩

theorem InCode.mono {C D : Set RV64Ptr} {pc : RV64Ptr} (hc : InCode C contents pc) (h : C ⊆ D) :
    InCode D contents pc :=
  fun k hk => ⟨h (hc k hk).1, (hc k hk).2⟩

theorem InCode.mem {C : Set RV64Ptr} {pc : RV64Ptr} (hc : InCode C contents pc) : pc ∈ C := by
  have h0 := (hc 0 ⟨by decide, fun j hj => absurd hj (Nat.not_lt_zero j)⟩).1
  rwa [Nat.mul_zero, BitVec.add_zero] at h0

theorem BasicBlock.Built.taken (hb : bb.Built contents n) {k : Nat} (hk : k < n) :
    Taken contents bb.pc k := by
  have hn := hb.lt
  refine ⟨by omega, fun j hj => ?_⟩
  obtain ⟨word, hw, hi⟩ := hb.decoded j (by omega)
  exact ⟨word, hw, hb.straight j (by omega) _ hi⟩

theorem BasicBlock.Built.words_subset (hb : bb.Built contents n) {A : Set RV64Ptr}
    (h : ∀ k < n, bb.addr k ∈ A) : bb.words ⊆ A := by
  rintro a ⟨k, rfl, hall⟩
  refine h k ?_
  by_contra hk
  obtain ⟨i, hi, hop⟩ := hall n (Nat.le_of_not_lt hk)
  obtain ⟨i', hi', hend⟩ := hb.stop
  exact hop (Option.some.inj (hi.symm.trans hi') ▸ hend)

end Besm.Exec

namespace Besm.Sim

open Besm.Exec Besm.Mem Besm.Lib.Transition Besm.Util

variable {M : Type}

/-- The instruction that was applied stored into no code. After a store the
register its address came from is what it was. -/
def Applied.SparesCode (C : Set RV64Ptr) (l : Applied) : Prop :=
  ∀ w, storeWidth l.instr.operation = some w → ∀ a ∈ C,
    Memory.Apart (l.after.gprf.read l.instr.rs1 + signExtend 12 l.instr.immidiate) w.size a 4

theorem Hart.fetchedWords_enterBB {h : Hart M} {index : Nat} {C : Set RV64Ptr}
    (hsub : h.fetchedWords ⊆ C) (hnew : (h.bbCache.bbs index).words ⊆ C) :
    (h.enterBB index).fetchedWords ⊆ C := by
  rintro a ⟨bb, hbb, ha⟩
  obtain hold | hlast := List.mem_append.mp hbb
  · exact hsub ⟨bb, hold, ha⟩
  · obtain rfl := HookEvent.bbFetched.inj (List.mem_singleton.mp hlast)
    exact hnew ha

theorem Hart.execNextInstr_of_current {h : Hart M} {p : InstrPtr} {i : Instruction}
    (hptr : h.currentInstr = some p) (hcur : h.current = some i) :
    h.execNextInstr = .running { h with
      instrsExecuted := h.instrsExecuted + 1
      hooks := h.hooks ++ [.instrExecuted i]
      currentInstr := some { p with pos := p.pos + 1 } } := by
  unfold Hart.execNextInstr
  rw [hcur, hptr]

variable [Memory M]

def Interpreter.StepIn (C : Set RV64Ptr)
    (contents : (w : Width) → RV64Ptr → Except MemError (BitVec (8 * w.size)))
    (s : Arch M) (ls : List Applied) (s' : Arch M) : Prop :=
  Interpreter.Step s ls s' ∧ ∀ l ∈ ls, InCode C contents l.pc ∧ l.SparesCode C

namespace Hart

def StepAt (C : Set RV64Ptr) (h : Hart M) (ls : List Applied) (h' : Hart M) : Prop :=
  h.pc ∈ C ∧ QuietStep h ls h'

/-- A hart in a block of words that memory still holds, in whose cache no block
was left half assembled. -/
structure Primed (h : Hart M) : Prop where
  slots : ∀ index, h.bbCache.bbs index = BasicBlock.create ∨ ∃ n, h.Holds (h.bbCache.bbs index) n
  cursor : ∃ p n, h.currentInstr = some p ∧ h.Holds (h.bbCache.bbs p.index) n ∧ p.pos ≤ n ∧
    (p.pos < n → h.pc = (h.bbCache.bbs p.index).addr p.pos)

def AtInstr (h : Hart M) : Prop :=
  ∃ i, h.current = some i ∧ i.operation ≠ .bbEnd

variable {h : Hart M}

theorem slots_mono {h' : Hart M} {bb : BasicBlock}
    (hs : bb = BasicBlock.create ∨ ∃ n, h.Holds bb n)
    (hm : ∀ a ∈ h.fetchedWords, Memory.contents h'.mem .word a = Memory.contents h.mem .word a)
    (hw : h.fetchedWords ⊆ h'.fetchedWords) : bb = BasicBlock.create ∨ ∃ n, h'.Holds bb n :=
  hs.imp_right fun ⟨n, hb⟩ => ⟨n, hb.mono hm hw⟩

theorem enterBB_primed (index : Nat) {n : Nat}
    (hslots : ∀ j, j ≠ index → h.bbCache.bbs j = BasicBlock.create ∨ ∃ n, h.Holds (h.bbCache.bbs j) n)
    (hb : (h.bbCache.bbs index).Built (Memory.contents h.mem) n)
    (hpc : (h.bbCache.bbs index).pc = h.pc) : (h.enterBB index).Primed ∧ (h.enterBB index).AtInstr := by
  have hsub : h.fetchedWords ⊆ (h.enterBB index).fetchedWords := fetchedWords_subset ⟨_, rfl⟩
  have hnew : (h.bbCache.bbs index).words ⊆ (h.enterBB index).fetchedWords :=
    fun a ha => ⟨_, List.mem_append_right _ (List.mem_singleton.mpr rfl), ha⟩
  have hholds : (h.enterBB index).Holds (h.bbCache.bbs index) n :=
    ⟨hb, fun k hk => hnew (hb.addr_mem_words hk)⟩
  refine ⟨⟨fun j => ?_, ⟨index, 0⟩, n, rfl, hholds, Nat.zero_le n, fun _ => ?_⟩, hb.instr hb.pos⟩
  · by_cases hj : j = index
    · subst hj
      exact .inr ⟨n, hholds⟩
    · exact slots_mono (hslots j hj) (fun _ _ => rfl) hsub
  · exact hpc.symm.trans (BasicBlock.addr_zero _).symm

theorem assembleBB_inCode [LawfulMemory M] {C : Set RV64Ptr} {pc : RV64Ptr} {mem : M}
    (hc : InCode C (Memory.contents mem) pc) (bb : BasicBlock) : (assembleBB bb pc mem).1 = .ok () := by
  refine (assembleLoop_ok_iff _ _ _ _).mpr fun k hk => ?_
  obtain ⟨hlt, hgo⟩ := (lt_wordsRead_iff _ _ _ _ rfl k).mp hk
  rw [wordAt_eq]
  refine (hc k ⟨hlt, fun j hj => ?_⟩).2
  rw [← wordAt_eq]
  exact hgo j hj

theorem fetchBB_inCode [LawfulMemory M] {C : Set RV64Ptr} (hpoison : (1 : RV64Ptr) ∉ C)
    (hslots : ∀ index, h.bbCache.bbs index = BasicBlock.create ∨ ∃ n, h.Holds (h.bbCache.bbs index) n)
    (hsub : h.fetchedWords ⊆ C) (hc : InCode C (Memory.contents h.mem) h.pc) :
    ∃ h', h.fetchBB = (.ok (), h') ∧ h'.view = h.view ∧ h'.Primed ∧ h'.AtInstr ∧
      h'.fetchedWords ⊆ C := by
  have hbbs := BasicBlockCache.lookup_bbs h.bbCache h.pc
  have hhit := BasicBlockCache.lookup_hit_pc h.bbCache h.pc
  unfold fetchBB
  revert hbbs hhit
  obtain ⟨_ | _, index, cache⟩ := h.bbCache.lookup h.pc <;> intro hbbs hhit <;> dsimp only at hbbs hhit ⊢
  · have hok := assembleBB_inCode hc (cache.bbs index)
    have hspec := assembleBB_spec (cache.bbs index) h.pc h.mem
    revert hok hspec
    obtain ⟨x, bb, mem⟩ := assembleBB (cache.bbs index) h.pc h.mem
    rintro (rfl : x = .ok ()) ⟨hmem, hpc, hbuilt⟩
    dsimp only at hmem hpc hbuilt
    obtain ⟨n, hb⟩ := hbuilt rfl
    have hnew : bb.words ⊆ C := hb.words_subset fun k hk => by
      have htaken := hb.taken hk
      rw [hpc] at htaken
      rw [BasicBlock.addr, hpc]
      exact (hc k htaken).1
    obtain ⟨hprimed, hin⟩ := enterBB_primed index (n := n)
      (h := { h with mem := mem, bbCache := cache.setBB index bb }) (fun j hj => by
        rw [BasicBlockCache.setBB_ne _ _ hj, hbbs]
        exact slots_mono (hslots j) (fun a _ => congrFun (congrFun hmem .word) a) fun _ ha => ha)
      (by rw [BasicBlockCache.setBB_same]; exact hmem ▸ hb)
      (by rw [BasicBlockCache.setBB_same]; exact hpc)
    refine ⟨_, rfl, congrArg (View.mk h.gprf h.csrf) hmem, hprimed, hin, ?_⟩
    exact fetchedWords_enterBB hsub (by rw [BasicBlockCache.setBB_same]; exact hnew)
  · have hheld : ∃ n, h.Holds (h.bbCache.bbs index) n := by
      obtain hcreate | hheld := hslots index
      · have hpc : (cache.bbs index).pc = h.pc := by rw [hbbs]; exact hhit rfl
        rw [hbbs, hcreate] at hpc
        refine absurd hc.mem ?_
        rw [← hpc]
        exact hpoison
      · exact hheld
    obtain ⟨n, hb⟩ := hheld
    obtain ⟨hprimed, hin⟩ := enterBB_primed index (n := n)
      (h := { h with bbCache := cache }) (fun j _ => by
        rw [hbbs]
        exact slots_mono (hslots j) (fun _ _ => rfl) fun _ ha => ha)
      (by rw [hbbs]; exact hb.built) (by rw [hbbs]; exact hhit rfl)
    refine ⟨_, rfl, rfl, hprimed, hin, fetchedWords_enterBB hsub ?_⟩
    rw [hbbs]
    exact hb.built.words_subset fun k hk => hsub (hb.fetched k hk)

theorem Primed.instr [LawfulMemory M] (hp : h.Primed) {i : Instruction} (hcur : h.current = some i)
    (hop : i.operation ≠ .bbEnd) (hapart : h.StoresApart i) {s : Arch M}
    (he : effect i h.toArch = .next s) : ∃ h', h.step = .running h' ∧ h'.toArch = s ∧ h'.Primed ∧
      h'.fetchedWords = h.fetchedWords := by
  obtain ⟨p, n, hptr, hb, hle, hpc⟩ := hp.cursor
  have hi : (h.bbCache.bbs p.index).instrs p.pos = some i := (current_of_ptr hptr).symm.trans hcur
  have hlt : p.pos < n := by
    obtain hlt | rfl := Nat.lt_or_eq_of_le hle
    · exact hlt
    · obtain ⟨j, hj, hend⟩ := hb.built.stop
      exact absurd (Option.some.inj (hj.symm.trans hi) ▸ hend) hop
  have hadv := advances_of_effect hop he
  have hmem : ∀ a ∈ h.fetchedWords,
      Memory.contents s.mem .word a = Memory.contents h.mem .word a :=
    fun a ha => word_of_advances hadv fun w hw => hapart w hw a ha
  have hnext : h.step = .running { h.withArch s with
      instrsExecuted := h.instrsExecuted + 1
      hooks := h.hooks ++ [.instrExecuted i]
      currentInstr := some { p with pos := p.pos + 1 } } := by
    rw [Hart.step_instr hcur hop, he]
    exact execNextInstr_of_current (h := h.withArch s) hptr hcur
  have hsub : h.fetchedWords ⊆ fetchedWords { h.withArch s with
      instrsExecuted := h.instrsExecuted + 1
      hooks := h.hooks ++ [.instrExecuted i]
      currentInstr := some { p with pos := p.pos + 1 } } := fetchedWords_subset ⟨_, rfl⟩
  refine ⟨_, hnext, rfl, ⟨fun index => slots_mono (hp.slots index) hmem hsub, _, n, rfl,
    hb.mono hmem hsub, hlt, fun hlt' => ?_⟩, Set.Subset.antisymm ?_ hsub⟩
  · obtain ⟨word, -, hword⟩ := hb.built.decoded _ hlt
    obtain rfl : i = Dec.parse word := Option.some.inj (hi.symm.trans hword)
    have hpc' := pc_of_advances (Dec.parse_registers word).1 (hb.built.straight _ hlt' _ hi) hadv
    rw [BasicBlock.addr_succ]
    exact hpc'.trans (congrArg (· + 4) (hpc hlt))
  · rintro a ⟨bb, hbb, ha⟩
    obtain hold | hlast := List.mem_append.mp hbb
    · exact ⟨bb, hold, ha⟩
    · exact absurd (List.mem_singleton.mp hlast) nofun

end Hart

theorem Applied.SparesCode.apart {C : Set RV64Ptr} {s s' : Arch M} {i : Instruction}
    (hl : (⟨s.pc, i, s'.view⟩ : Applied).SparesCode C) (hrs1 : i.rs1 < 32)
    (he : effect i s = .next s') {w : Width} (hw : storeWidth i.operation = some w)
    {a : RV64Ptr} (ha : a ∈ C) : Memory.Apart (s.address i) w.size a 4 := by
  have hread : s'.gprf.read i.rs1 = s.read i.rs1 :=
    read_of_store ((effect_store s hw).symm.trans he) hrs1
  have happart := hl w hw a ha
  dsimp only [Arch.view] at happart
  rwa [hread] at happart

structure Runs (C : Set RV64Ptr)
    (contents : (w : Width) → RV64Ptr → Except MemError (BitVec (8 * w.size)))
    (s : Arch M) (h : Hart M) : Prop where
  primed : h.Primed
  view : s.view = h.view
  fetched : h.fetchedWords ⊆ C
  code : ∀ a ∈ C, Memory.contents h.mem .word a = contents .word a

section Simulation

variable {C : Set RV64Ptr}
  {contents : (w : Width) → RV64Ptr → Except MemError (BitVec (8 * w.size))} {s s' : Arch M}
  {h : Hart M} {ls : List Applied}

theorem Runs.pc (hr : Runs C contents s h) : s.pc = h.pc :=
  congrArg (fun v : View => v.gprf.read GPRF.pc) hr.view

theorem Hart.Primed.current (hp : h.Primed) : ∃ i, h.current = some i := by
  obtain ⟨p, n, hptr, hb, hle, -⟩ := hp.cursor
  obtain hlt | heq := Nat.lt_or_eq_of_le hle
  · obtain ⟨i, hi, -⟩ := hb.built.instr hlt
    exact ⟨i, (Hart.current_of_ptr hptr).trans hi⟩
  · obtain ⟨i, hi, -⟩ := hb.built.stop
    exact ⟨i, (Hart.current_of_ptr hptr).trans (heq ▸ hi)⟩

theorem Runs.enters [LawfulMemory M] (hpoison : (1 : RV64Ptr) ∉ C) (hr : Runs C contents s h)
    (hc : InCode C contents s.pc) :
    ∃ h', Run (Hart.StepAt C) h [] h' ∧ Runs C contents s h' ∧ h'.AtInstr := by
  obtain ⟨i, hcur⟩ := hr.primed.current
  by_cases hop : i.operation = .bbEnd
  · have hcode := hc.congr hr.code
    rw [hr.pc] at hcode
    obtain ⟨h', hf, hv, hprimed, hin, hsub⟩ :=
      Hart.fetchBB_inCode hpoison hr.primed.slots hr.fetched hcode
    have hstep : h.step = .running h' := by
      rw [Hart.step_bbEnd hcur hop, Hart.execBBEND, hf]
    refine ⟨h', .single ⟨hcode.mem, .bbEnd hcur hop hstep⟩, ⟨hprimed, hr.view.trans hv.symm, hsub,
      fun a ha => ?_⟩, hin⟩
    rw [← hr.code a ha]
    exact congrFun (congrFun (congrArg View.contents hv) .word) a
  · exact ⟨h, .refl h, hr, i, hcur, hop⟩

theorem Hart.Primed.decoded (hp : h.Primed) {i : Instruction} (hcur : h.current = some i)
    (hop : i.operation ≠ .bbEnd) : ∃ word : RV64UWord,
      Memory.contents h.mem .word h.pc = .ok word ∧ i = Dec.parse word := by
  obtain ⟨p, n, hptr, hb, hle, hpc⟩ := hp.cursor
  have hi := (Hart.current_of_ptr hptr).symm.trans hcur
  obtain hlt | heq := Nat.lt_or_eq_of_le hle
  · obtain ⟨word, hw, hi'⟩ := hb.built.decoded _ hlt
    exact ⟨word, by rw [hpc hlt]; exact hw, Option.some.inj (hi.symm.trans hi')⟩
  · obtain ⟨j, hj, hend⟩ := hb.built.stop
    rw [heq, hj] at hi
    exact absurd (Option.some.inj hi ▸ hend) hop

theorem Interpreter.fetch_of_contents [LawfulMemory M] {word : RV64UWord} {i : Instruction}
    {e : Effect (Arch M)} (hw : Memory.contents s.mem .word s.pc = .ok word)
    (hfetch : Interpreter.fetch s = some (i, e)) : i = Dec.parse word ∧
      (effect i s).map Arch.view = e.map Arch.view := by
  have hload : (Memory.load s.mem .word s.pc).1 = .ok word := hw
  have hkeep := LawfulMemory.load_contents s.mem .word s.pc
  unfold Interpreter.fetch at hfetch
  revert hload hkeep
  revert hfetch
  obtain ⟨r, mem⟩ := Memory.load s.mem .word s.pc
  rintro hfetch (rfl : r = .ok word) hkeep
  cases hfetch
  exact ⟨rfl, effect_congr _ (congrArg (View.mk s.gprf s.csrf) hkeep.symm)⟩

theorem Runs.applies [LawfulMemory M] (hr : Runs C contents s h) (hin : h.AtInstr)
    (hc : InCode C contents s.pc) {i : Instruction}
    (hfetch : Interpreter.fetch s = some (i, .next s'))
    (hspares : (⟨s.pc, i, s'.view⟩ : Applied).SparesCode C) :
    ∃ h', Hart.StepAt C h [⟨s.pc, i, s'.view⟩] h' ∧ Runs C contents s' h' := by
  obtain ⟨j, hcur, hop⟩ := hin
  obtain ⟨word, hw, rfl⟩ := hr.primed.decoded hcur hop
  have hword : Memory.contents s.mem .word s.pc = .ok word := by
    rw [hr.pc, ← hw]
    exact congrFun (congrFun (congrArg View.contents hr.view) .word) _
  obtain ⟨rfl, hmap⟩ := Interpreter.fetch_of_contents hword hfetch
  rw [effect_congr _ hr.view] at hmap
  -- the effect on the hart's own state is the interpreter's, up to what can be seen
  obtain ⟨t, he, ht⟩ : ∃ t, effect (Dec.parse word) h.toArch = .next t ∧ t.view = s'.view := by
    cases he : effect (Dec.parse word) h.toArch with
    | next t =>
      rw [he] at hmap
      exact ⟨t, rfl, Effect.next.inj hmap⟩
    | _ => rw [he] at hmap; cases hmap
  rw [hr.pc, ← ht] at hspares
  have hapart := fun w hw a ha => hspares.apart (w := w) (Dec.parse_registers word).2.1 he hw (a := a) ha
  have hstores : h.StoresApart (Dec.parse word) := fun w hw a ha => hapart w hw a (hr.fetched ha)
  obtain ⟨h', hstep, harch, hprimed, hwords⟩ := hr.primed.instr hcur hop hstores he
  have hview : h'.view = s'.view := (congrArg Arch.view harch).trans ht
  refine ⟨h', ⟨hr.pc ▸ hc.mem, ?_⟩, hprimed, hview.symm, hwords ▸ hr.fetched, fun a ha => ?_⟩
  · rw [hr.pc, ← hview]
    exact .instr hcur hop (fun id s r hraise => nomatch he.symm.trans hraise) hstores hstep
  · rw [← hr.code a ha, harch]
    exact word_of_advances (advances_of_effect hop he) fun w hw => hapart w hw a ha

/-- What the interpreter does in code the hart does, in as many steps or more. -/
theorem interpreter_simulated [LawfulMemory M] (hpoison : (1 : RV64Ptr) ∉ C) :
    Simulates (Interpreter.StepIn C contents) (Hart.StepAt C) (Runs (M := M) C contents) := by
  rintro s h hr ls s' ⟨hstep, hls⟩
  cases hstep with
  | next hfetch =>
    obtain ⟨hc, hspares⟩ := hls _ (List.mem_singleton.mpr rfl)
    obtain ⟨h₁, hrun, hr₁, hin⟩ := hr.enters hpoison hc
    obtain ⟨h', hstep, hr'⟩ := hr₁.applies hin hc hfetch hspares
    exact ⟨h', hrun.tail hstep, hr'⟩

end Simulation

theorem run_beside_interpreter [LawfulMemory M] (h₀ : Hart M) (hfresh : h₀.Fresh)
    {C : Set RV64Ptr} (hpoison : (1 : RV64Ptr) ∉ C)
    (hstart : InCode C (Memory.contents h₀.mem) h₀.pc) {ls : List Applied} {s : Arch M}
    (hrun : Run (Interpreter.StepIn C (Memory.contents h₀.mem)) h₀.toArch ls s) :
    ∃ h₁ h, h₀.run = .running h₁ ∧ Run (Hart.StepAt C) h₁ ls h ∧
      Runs C (Memory.contents h₀.mem) s h := by
  have hslots : ∀ index, h₀.bbCache.bbs index = BasicBlock.create ∨
      ∃ n, h₀.Holds (h₀.bbCache.bbs index) n := by
    intro index
    rw [hfresh.bbCache]
    exact .inl rfl
  have hnone : h₀.fetchedWords ⊆ C := by
    rintro a ⟨bb, hbb, -⟩
    rw [hfresh.hooks] at hbb
    exact absurd hbb List.not_mem_nil
  obtain ⟨h₁, hf, hv, hprimed, -, hsub⟩ := Hart.fetchBB_inCode hpoison hslots hnone hstart
  have hruns : Runs C (Memory.contents h₀.mem) h₀.toArch h₁ :=
    ⟨hprimed, hv.symm, hsub, fun a _ => congrFun (congrFun (congrArg View.contents hv) .word) a⟩
  obtain ⟨h, hsteps, hr⟩ := (interpreter_simulated hpoison).run hrun hruns
  refine ⟨h₁, h, ?_, hsteps, hr⟩
  rw [Hart.run, Hart.execBBEND, hf]

/-- Whatever the plain interpreter does in code that it does not write, the hart
does with its cached blocks, without a fault and in states that look the same. -/
theorem run_matches_interpreter [LawfulMemory M] (h₀ : Hart M) (hfresh : h₀.Fresh)
    {C : Set RV64Ptr} (hpoison : (1 : RV64Ptr) ∉ C)
    (hstart : InCode C (Memory.contents h₀.mem) h₀.pc) {ls : List Applied} {s : Arch M}
    (hrun : Run (Interpreter.StepIn C (Memory.contents h₀.mem)) h₀.toArch ls s) :
    ∃ h₁ h, h₀.run = .running h₁ ∧ Run (Hart.StepAt C) h₁ ls h ∧ h.view = s.view := by
  obtain ⟨h₁, h, hrun₁, hsteps, hr⟩ := run_beside_interpreter h₀ hfresh hpoison hstart hrun
  exact ⟨h₁, h, hrun₁, hsteps, hr.view.symm⟩

theorem Interpreter.runs_of_iterate {C : Set RV64Ptr} {s s' : Arch M} {ls : List Applied} {n : Nat}
    (h : iterate Interpreter.advance n s = some (ls, s'))
    (hc : ∀ l ∈ ls, InCode C contents l.pc ∧ l.SparesCode C) :
    Run (Interpreter.StepIn C contents) s ls s' :=
  (Run.of_iterate (fun _ _ _ => Interpreter.step_of_advance) h).and_labels hc

theorem inCode_image (words : List RV64UWord) (pc : RV64Ptr) (hpc : pc.toNat % 4 = 0) :
    InCode {a | a.toNat % 4 = 0} (Memory.contents (FlatMemory.image words)) pc := by
  intro k hk
  have hal : (pc + BitVec.ofNat 64 (4 * k)).toNat % 4 = 0 := by
    rw [BitVec.toNat_add, BitVec.toNat_ofNat]
    omega
  refine ⟨hal, (FlatMemory.image words).read .word (pc + BitVec.ofNat 64 (4 * k)), ?_⟩
  have hr : (FlatMemory.image words).refuses .word (pc + BitVec.ofNat 64 (4 * k)) = none :=
    FlatMemory.refuses_eq_none.mpr ⟨hal, fun _ _ => rfl⟩
  change FlatMemory.load _ _ _ = _
  rw [FlatMemory.load, hr]

theorem run_matches_interpreter_loop :
    ∃ (h₁ h : Hart FlatMemory) (ls : List Applied),
      (Hart.create (fun _ => 0) (FlatMemory.image loopWords)).run = .running h₁ ∧
      Run (Hart.StepAt {a | a.toNat % 4 = 0}) h₁ ls h ∧ ls.length = 22 ∧
      h.view.gprf.read 2 = 3 ∧ h.view.gprf.read 3 = 15 := by
  let h₀ := Hart.create (fun _ => 0) (FlatMemory.image loopWords)
  have hends : (iterate Interpreter.advance 22 h₀.toArch).map (fun p =>
      (p.1.length, p.2.read 2, p.2.read 3, p.1.all fun l =>
        l.pc.toNat % 4 = 0 && (storeWidth l.instr.operation).isNone)) = some (22, 3, 15, true) := by
    decide +kernel
  obtain ⟨⟨ls, s⟩, hit, hend⟩ := Option.map_eq_some_iff.mp hends
  obtain ⟨hlen, h2, h3, hall⟩ : ls.length = 22 ∧ s.read 2 = 3 ∧ s.read 3 = 15 ∧
      ∀ l ∈ ls, l.pc.toNat % 4 = 0 ∧ storeWidth l.instr.operation = none := by
    simpa using hend
  have hrun := Interpreter.runs_of_iterate hit fun l hl =>
    ⟨inCode_image loopWords l.pc (hall l hl).1, fun w hw => nomatch (hall l hl).2.symm.trans hw⟩
  obtain ⟨h₁, h, hr, hsteps, hv⟩ :=
    run_matches_interpreter h₀ ⟨rfl, rfl⟩ (by decide) (inCode_image _ 0 rfl) hrun
  exact ⟨h₁, h, ls, hr, hsteps, hlen, hv ▸ h2, hv ▸ h3⟩

end Besm.Sim
