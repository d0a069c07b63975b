import Besm.Sim.Retention
import Besm.Sim.Seen

namespace Besm.Sim

open Besm.Exec Besm.Mem Besm.Lib.Transition

variable {M : Type}

namespace Hart

def Abreast (h k : Hart M) (pos : Nat) : Prop :=
  ∃ index index' n, h.currentInstr = some ⟨index, pos⟩ ∧ k.currentInstr = some ⟨index', pos⟩ ∧
    pos ≤ n ∧ (h.bbCache.bbs index).Level (k.bbCache.bbs index') n

theorem Abreast.current {h k : Hart M} {pos : Nat} (ha : h.Abreast k pos) :
    (∃ i, h.current = some i ∧ k.current = some i ∧ i.operation ≠ .bbEnd) ∨
      ∃ i j, h.current = some i ∧ k.current = some j ∧ i.operation = .bbEnd ∧
        j.operation = .bbEnd := by
  obtain ⟨index, index', n, hp, hq, hle, hl⟩ := ha
  rw [current_of_ptr hp, current_of_ptr hq]
  obtain hlt | rfl := Nat.lt_or_eq_of_le hle
  · obtain ⟨i, hi, hop⟩ := hl.instr pos hlt
    exact .inl ⟨i, hi, (hl.instrs pos hlt).symm.trans hi, hop⟩
  · obtain ⟨i, hi, hend⟩ := hl.stop
    obtain ⟨j, hj, hend'⟩ := hl.stop'
    exact .inr ⟨i, j, hi, hj, hend, hend'⟩

theorem fetchedWords_executed {h h' : Hart M} {i : Instruction}
    (hh : h'.hooks = h.hooks ++ [.instrExecuted i]) : h'.fetchedWords = h.fetchedWords := by
  refine Set.Subset.antisymm ?_ (fetchedWords_subset ⟨_, hh⟩)
  rintro a ⟨bb, hbb, ha⟩
  rw [hh] at hbb
  obtain hold | hlast := List.mem_append.mp hbb
  · exact ⟨bb, hold, ha⟩
  · cases List.mem_singleton.mp hlast

end Hart

variable [Memory M]

namespace Hart

/-- A cache of blocks that were forgotten or that memory still holds. -/
def Slots (h : Hart M) : Prop :=
  ∀ index, (h.bbCache.bbs index).pc = BasicBlock.create.pc ∨
    ∃ n, h.Holds (h.bbCache.bbs index) n

structure Entered (h h' : Hart M) (index n : Nat) : Prop where
  view : h'.view = h.view
  instrsExecuted : h'.instrsExecuted = h.instrsExecuted
  hooks : h'.hooks = h.hooks ++ [.bbFetched (h'.bbCache.bbs index)]
  currentInstr : h'.currentInstr = some ⟨index, 0⟩
  built : (h'.bbCache.bbs index).Built (Memory.contents h.mem) n
  pc : (h'.bbCache.bbs index).pc = h.pc
  slots : h'.Slots

/-- Two harts, of which one may know more blocks than the other. -/
structure Beside (h k : Hart M) : Prop where
  seen : h.seen = k.seen
  fetched : h.fetchedWords = k.fetchedWords
  slots : h.Slots
  slots' : k.Slots

variable {h k h' : Hart M} {pos : Nat}

theorem Slots.mono (hslots : h.Slots) (hbbs : h'.bbCache.bbs = h.bbCache.bbs)
    (hm : ∀ a ∈ h.fetchedWords, Memory.contents h'.mem .word a = Memory.contents h.mem .word a)
    (hw : h.fetchedWords ⊆ h'.fetchedWords) : h'.Slots := by
  intro index
  rw [hbbs]
  exact (hslots index).imp_right fun ⟨n, hb⟩ => ⟨n, hb.mono hm hw⟩

theorem Beside.execNextInstr (hb : h.Beside k) (ha : h.Abreast k pos) {i : Instruction}
    (hcur : h.current = some i) (hcur' : k.current = some i) (hop : i.operation ≠ .bbEnd) :
    ∃ t u, h.execNextInstr = .running t ∧ k.execNextInstr = .running u ∧ t.Beside u ∧
      t.Abreast u (pos + 1) := by
  obtain ⟨index, index', n, hp, hq, hle, hl⟩ := ha
  have hlt : pos < n := by
    obtain hlt | rfl := Nat.lt_or_eq_of_le hle
    · exact hlt
    · obtain ⟨j, hj, hend⟩ := hl.stop
      rw [current_of_ptr hp] at hcur
      exact absurd (Option.some.inj (hj.symm.trans hcur) ▸ hend) hop
  refine ⟨_, _, execNextInstr_of_current hp hcur, execNextInstr_of_current hq hcur',
    ⟨?_, ?_, ?_, ?_⟩, index, index', n, rfl, rfl, hlt, hl⟩
  · obtain ⟨hview, hexecuted, hheard⟩ := Observed.mk.inj hb.seen
    exact seen_eq_iff.mpr ⟨hview, congrArg (· + 1) hexecuted, heard_append hheard rfl⟩
  · refine (fetchedWords_executed (i := i) ?_).trans
      (hb.fetched.trans (fetchedWords_executed (i := i) ?_).symm) <;> rfl
  · exact hb.slots.mono rfl (fun _ _ => rfl) (fetchedWords_subset ⟨_, rfl⟩)
  · exact hb.slots'.mono rfl (fun _ _ => rfl) (fetchedWords_subset ⟨_, rfl⟩)

theorem assembleLoop_status [LawfulMemory M] (fuel : Nat) (r r' : BasicBlockRebuilder)
    (pc : RV64Ptr) (mem mem' : M) (hcount : r.count = r'.count)
    (hm : Memory.contents mem = Memory.contents mem') :
    (assembleLoop fuel r pc mem).1 = (assembleLoop fuel r' pc mem').1 := by
  induction fuel generalizing r r' pc mem mem' with
  | zero => rfl
  | succ fuel ih =>
    obtain ⟨hword, hnext⟩ : (Memory.fetchWord mem pc).1 = (Memory.fetchWord mem' pc).1 ∧
        Memory.contents (Memory.fetchWord mem pc).2 =
          Memory.contents (Memory.fetchWord mem' pc).2 := by
      rw [LawfulMemory.fetch_eq, LawfulMemory.fetch_eq, LawfulMemory.fetch_contents,
        LawfulMemory.fetch_contents, hm]
      exact ⟨rfl, rfl⟩
    unfold assembleLoop
    revert hword hnext
    obtain ⟨x, m⟩ := Memory.fetchWord mem pc
    obtain ⟨x', m'⟩ := Memory.fetchWord mem' pc
    rintro (rfl : x = x') hnext
    cases x with
    | error e => rfl
    | ok word =>
      obtain ⟨hgo, hcount'⟩ := BasicBlockRebuilder.append_congr (Dec.parse word) hcount
      dsimp only
      revert hgo hcount'
      obtain ⟨b, s⟩ := r.append (Dec.parse word)
      obtain ⟨b', s'⟩ := r'.append (Dec.parse word)
      rintro (rfl : b = b') hcount'
      cases b with
      | false => rfl
      | true => exact ih s s' _ m m' hcount' hnext

theorem fetchBB_status [LawfulMemory M] (hslots : h.Slots) (hpc : h.pc ≠ 1) (bb : BasicBlock)
    {mem : M} (hm : Memory.contents h.mem = Memory.contents mem) :
    h.fetchBB.1 = (assembleBB bb h.pc mem).1 := by
  have hbbs := BasicBlockCache.lookup_bbs h.bbCache h.pc
  have hhit := BasicBlockCache.lookup_hit_pc h.bbCache h.pc
  rw [fetchBB_fst, blockAt]
  revert hbbs hhit
  obtain ⟨_ | _, index, cache⟩ := h.bbCache.lookup h.pc <;> intro hbbs hhit
  · exact assembleLoop_status _ _ _ _ _ _ rfl hm
  · obtain hforgot | ⟨n, hb⟩ := hslots index
    · exact absurd ((hhit rfl).symm.trans hforgot) hpc
    · have hin := hb.built.inCode
      rw [hhit rfl, hm] at hin
      exact (assembleBB_inCode hin bb).symm

theorem entered_enterBB {t : Hart M} {index n : Nat} (hview : t.view = h.view)
    (hexecuted : t.instrsExecuted = h.instrsExecuted) (hhooks : t.hooks = h.hooks)
    (hslots : ∀ j, j ≠ index → t.bbCache.bbs j = h.bbCache.bbs j) (hold : h.Slots)
    (hb : (t.bbCache.bbs index).Built (Memory.contents h.mem) n)
    (hpc : (t.bbCache.bbs index).pc = h.pc) : h.Entered (t.enterBB index) index n where
  view := hview
  instrsExecuted := hexecuted
  hooks := by rw [← hhooks]; rfl
  currentInstr := rfl
  built := hb
  pc := hpc
  slots := by
    have hm : Memory.contents t.mem = Memory.contents h.mem := congrArg View.contents hview
    have hsub : h.fetchedWords ⊆ (t.enterBB index).fetchedWords :=
      fetchedWords_subset ⟨[.bbFetched (t.bbCache.bbs index)], by rw [← hhooks]; rfl⟩
    have hnew : (t.bbCache.bbs index).words ⊆ (t.enterBB index).fetchedWords :=
      fun a ha => ⟨_, List.mem_append_right _ (List.mem_singleton.mpr rfl), ha⟩
    intro j
    by_cases hj : j = index
    · subst hj
      exact .inr ⟨n, hm ▸ hb, fun k hk => hnew (hb.addr_mem_words hk)⟩
    · have hsame : (t.enterBB index).bbCache.bbs j = h.bbCache.bbs j := hslots j hj
      rw [hsame]
      exact (hold j).imp_right fun ⟨n, hb⟩ =>
        ⟨n, hb.mono (fun a _ => congrFun (congrFun hm .word) a) hsub⟩

/-- A fetch enters a block that memory holds at the program counter, or fails and
changes nothing that can be seen. -/
theorem fetchBB_entered [LawfulMemory M] (hslots : h.Slots) (hpc : h.pc ≠ 1) :
    (∃ t index n, h.fetchBB = (.ok (), t) ∧ h.Entered t index n) ∨
      ∃ e t, h.fetchBB = (.error e, t) ∧ t.seen = h.seen := by
  have hbbs := BasicBlockCache.lookup_bbs h.bbCache h.pc
  have hhit := BasicBlockCache.lookup_hit_pc h.bbCache h.pc
  unfold fetchBB
  revert hbbs hhit
  obtain ⟨_ | _, index, cache⟩ := h.bbCache.lookup h.pc <;> intro hbbs hhit
  · have hspec := assembleBB_spec (cache.bbs index) h.pc h.mem
    dsimp only at hbbs ⊢
    revert hspec
    obtain ⟨_ | _, bb, mem⟩ := assembleBB (cache.bbs index) h.pc h.mem <;>
      rintro ⟨hmem, hpc', hbuilt⟩ <;> dsimp only at hmem hpc' hbuilt
    · refine .inr ⟨_, _, rfl, seen_eq_iff.mpr ⟨?_, rfl, rfl⟩⟩
      exact congrArg (View.mk h.gprf h.csrf) hmem
    · obtain ⟨n, hb⟩ := hbuilt rfl
      refine .inl ⟨_, index, n, rfl, entered_enterBB ?_ rfl rfl (fun j hj => ?_) hslots ?_ ?_⟩
      · exact congrArg (View.mk h.gprf h.csrf) hmem
      · rw [BasicBlockCache.setBB_ne _ _ hj, hbbs]
      · rw [BasicBlockCache.setBB_same]
        exact hb
      · rw [BasicBlockCache.setBB_same]
        exact hpc'
  · obtain hforgot | ⟨n, hb⟩ := hslots index
    · exact absurd ((hhit rfl).symm.trans hforgot) hpc
    · dsimp only at hbbs hhit
      refine .inl ⟨_, index, n, rfl, entered_enterBB rfl rfl rfl (fun j _ => ?_) hslots ?_ ?_⟩
      · rw [hbbs]
      · rw [hbbs]
        exact hb.built
      · rw [hbbs]
        exact hhit rfl

theorem Entered.fetchedWords {index n : Nat} (he : h.Entered h' index n) :
    h'.fetchedWords = h.fetchedWords ∪ (h'.bbCache.bbs index).words := by
  refine Set.Subset.antisymm ?_ (Set.union_subset (fetchedWords_subset ⟨_, he.hooks⟩) ?_)
  · rintro a ⟨bb, hbb, ha⟩
    rw [he.hooks] at hbb
    obtain hold | hnew := List.mem_append.mp hbb
    · exact .inl ⟨bb, hold, ha⟩
    · exact .inr (HookEvent.bbFetched.inj (List.mem_singleton.mp hnew) ▸ ha)
  · intro a ha
    refine ⟨_, ?_, ha⟩
    rw [he.hooks]
    exact List.mem_append_right _ (List.mem_singleton.mpr rfl)

theorem Beside.entered (hb : h.Beside k) {t u : Hart M} {index index' n n' : Nat}
    (he : h.Entered t index n) (he' : k.Entered u index' n') : ∃ i, t.Beside u ∧ t.Abreast u 0 ∧
      t.current = some i ∧ u.current = some i ∧ i.operation ≠ .bbEnd := by
  have hpc : (t.bbCache.bbs index).pc = (u.bbCache.bbs index').pc := by
    rw [he.pc, he'.pc, pc_of_seen hb.seen]
  have hbuilt := he'.built
  rw [← contents_of_seen hb.seen] at hbuilt
  obtain ⟨rfl, hl⟩ := he.built.level hbuilt hpc
  obtain ⟨hview, hexecuted, hheard⟩ := seen_eq_iff.mp hb.seen
  have hbody : HookEvent.heard (.bbFetched (t.bbCache.bbs index)) =
      HookEvent.heard (.bbFetched (u.bbCache.bbs index')) := by
    rw [HookEvent.heard, HookEvent.heard, hpc, hl.body he.built.lt]
  obtain ⟨i, hi, hop⟩ := hl.instr 0 he.built.pos
  refine ⟨i, ⟨seen_eq_iff.mpr ⟨?_, ?_, ?_⟩, ?_, he.slots, he'.slots⟩,
    ⟨index, index', n, he.currentInstr, he'.currentInstr, n.zero_le, hl⟩, ?_, ?_, hop⟩
  · rw [he.view, he'.view, hview]
  · rw [he.instrsExecuted, he'.instrsExecuted, hexecuted]
  · rw [he.hooks, he'.hooks]
    exact heard_append hheard hbody
  · rw [he.fetchedWords, he'.fetchedWords, hb.fetched, he.built.words_eq hbuilt hpc]
  · rw [current_of_ptr he.currentInstr, hi]
  · rw [current_of_ptr he'.currentInstr, ← hl.instrs 0 he.built.pos, hi]

theorem Beside.fetchBB [LawfulMemory M] (hb : h.Beside k) (hpc : h.pc ≠ 1) :
    (∃ t u i, h.fetchBB = (.ok (), t) ∧ k.fetchBB = (.ok (), u) ∧ t.Beside u ∧ t.Abreast u 0 ∧
      t.current = some i ∧ u.current = some i ∧ i.operation ≠ .bbEnd) ∨
      ∃ e t u, h.fetchBB = (.error e, t) ∧ k.fetchBB = (.error e, u) ∧ t.seen = u.seen := by
  have hpc' : k.pc ≠ 1 := pc_of_seen hb.seen ▸ hpc
  have hm := contents_of_seen hb.seen
  have hstatus : h.fetchBB.1 = k.fetchBB.1 := by
    rw [fetchBB_status hb.slots hpc .create rfl, fetchBB_status hb.slots' hpc' .create hm.symm,
      pc_of_seen hb.seen]
  obtain ⟨t, index, n, hf, he⟩ | ⟨e, t, hf, ht⟩ := fetchBB_entered hb.slots hpc
  · obtain ⟨u, index', n', hf', he'⟩ | ⟨e, u, hf', -⟩ := fetchBB_entered hb.slots' hpc'
    · obtain ⟨i, hbeside⟩ := hb.entered he he'
      exact .inl ⟨t, u, i, hf, hf', hbeside⟩
    · rw [hf, hf'] at hstatus
      cases hstatus
  · obtain ⟨u, index', n', hf', -⟩ | ⟨e', u, hf', hu⟩ := fetchBB_entered hb.slots' hpc'
    · rw [hf, hf'] at hstatus
      cases hstatus
    · rw [hf, hf'] at hstatus
      obtain rfl := Except.error.inj hstatus
      exact .inr ⟨e, t, u, hf, hf', ht.trans (hb.seen.trans hu.symm)⟩

theorem Beside.withArch (hb : h.Beside k) {s t : Arch M} (hv : s.view = t.view)
    (hm : ∀ a ∈ h.fetchedWords,
      Memory.contents s.mem .word a = Memory.contents h.mem .word a) :
    (h.withArch s).Beside (k.withArch t) := by
  obtain ⟨-, hexecuted, hheard⟩ := seen_eq_iff.mp hb.seen
  refine ⟨seen_eq_iff.mpr ⟨hv, hexecuted, hheard⟩, hb.fetched, hb.slots.mono rfl hm subset_rfl,
    hb.slots'.mono rfl (fun a ha => ?_) subset_rfl⟩
  have hmem : Memory.contents t.mem = Memory.contents s.mem := (congrArg View.contents hv).symm
  rw [Hart.withArch, hmem, hm a (hb.fetched ▸ ha), contents_of_seen hb.seen]

theorem raiseException_view {s t : Arch M} (hv : s.view = t.view) (id : ExceptionId) :
    (s.raiseException id).view = (t.raiseException id).view := by
  obtain ⟨hgprf, hcsrf, hmem⟩ := View.mk.inj hv
  simp only [Arch.view, Arch.raiseException, Arch.pc, hgprf, hcsrf, hmem]

theorem Beside.raiseException [LawfulMemory M] (hb : h.Beside k) (id : ExceptionId) :
    (∃ t u i, h.raiseException id = (.ok (), t) ∧ k.raiseException id = (.ok (), u) ∧ t.Beside u ∧
      t.Abreast u 0 ∧ t.current = some i ∧ u.current = some i ∧ i.operation ≠ .bbEnd) ∨
      ∃ e t u, h.raiseException id = (.error e, t) ∧ k.raiseException id = (.error e, u) ∧
        t.seen = u.seen := by
  refine (hb.withArch (raiseException_view (view_of_seen hb.seen) id) fun _ _ => rfl).fetchBB ?_
  have hpc : (h.toArch.raiseException id).pc = trapVector h.csrf id := GPRF.read_pc_write_pc _ _
  exact BasicBlockCache.ne_poison (hpc ▸ even_of_word (trapVector_mod_four h.csrf id))

end Hart

inductive Outcome.Beside : Outcome M → Outcome M → Prop
  | running {h k : Hart M} {pos : Nat} (hb : h.Beside k) (ha : h.Abreast k pos) :
      Beside (.running h) (.running k)
  | returned {h k : Hart M} (hs : h.seen = k.seen) : Beside (.returned h) (.returned k)
  | thrown (e : MemError) {h k : Hart M} (hs : h.seen = k.seen) :
      Beside (.thrown e h) (.thrown e k)
  | terminated : Beside .terminated .terminated

theorem Outcome.Beside.like {o p : Outcome M} (h : o.Beside p) : o.Like p := by
  cases h with
  | running hb _ => exact .running hb.seen
  | returned hs => exact .returned hs
  | thrown e hs => exact .thrown e hs
  | terminated => exact .terminated

namespace Hart

variable {h k : Hart M} {pos : Nat}

theorem Beside.goesOn (hb : h.Beside k) (ha : h.Abreast k pos) {i : Instruction}
    (hcur : h.current = some i) (hcur' : k.current = some i) (hop : i.operation ≠ .bbEnd) :
    Outcome.Beside h.execNextInstr k.execNextInstr := by
  obtain ⟨t, u, ht, hu, hb', ha'⟩ := hb.execNextInstr ha hcur hcur' hop
  rw [ht, hu]
  exact .running hb' ha'

theorem Beside.resume (hb : h.Beside k) (ha : h.Abreast k pos) {i : Instruction}
    (hcur : h.current = some i) (hcur' : k.current = some i) (hop : i.operation ≠ .bbEnd)
    (r : Resume) : Outcome.Beside (h.resume r) (k.resume r) := by
  cases r with
  | ret => exact .returned hb.seen
  | execNextInstr => exact hb.goesOn ha hcur hcur' hop
  | jumpMepc =>
    have hview : (h.setPC (MEPC.value.get h.csrf.mepc)).view =
        (k.setPC (MEPC.value.get k.csrf.mepc)).view := by
      obtain ⟨hgprf, hcsrf, hmem⟩ := View.mk.inj (view_of_seen hb.seen)
      simp only [Arch.view, Arch.setPC, hgprf, hcsrf, hmem]
    exact (hb.withArch hview fun _ _ => rfl).goesOn (h := h.withArch _) (k := k.withArch _) ha
      hcur hcur' hop

theorem Beside.execBBEND [LawfulMemory M] (hb : h.Beside k) (hpc : h.pc ≠ 1) :
    Outcome.Beside h.execBBEND k.execBBEND := by
  unfold Hart.execBBEND
  obtain ⟨t, u, i, ht, hu, hb', ha, -⟩ | ⟨e, t, u, ht, hu, hs⟩ := hb.fetchBB hpc
  · rw [ht, hu]
    exact .running hb' ha
  · rw [ht, hu]
    exact .thrown e hs

theorem apply_raised {t : Hart M} {id : ExceptionId} {r : Resume}
    (ht : h.raiseException id = (.ok (), t)) : h.apply (.raise id h.toArch r) = t.resume r := by
  obtain ⟨u, hu, happly⟩ | ⟨e, u, hu, -⟩ := h.apply_raise id r
  · cases ht.symm.trans hu
    exact happly
  · cases ht.symm.trans hu

theorem apply_unraised {t : Hart M} {id : ExceptionId} {r : Resume} {e : MemError}
    (ht : h.raiseException id = (.error e, t)) : h.apply (.raise id h.toArch r) = .thrown e t := by
  obtain ⟨u, hu, -⟩ | ⟨e', u, hu, happly⟩ := h.apply_raise id r
  · cases ht.symm.trans hu
  · cases ht.symm.trans hu
    exact happly

theorem Beside.apply [LawfulMemory M] (hb : h.Beside k) (ha : h.Abreast k pos) {i : Instruction}
    (hcur : h.current = some i) (hcur' : k.current = some i) (hop : i.operation ≠ .bbEnd)
    (hapart : h.StoresApart i) :
    Outcome.Beside (h.apply (effect i h.toArch)) (k.apply (effect i k.toArch)) := by
  have hmap := effect_congr i (view_of_seen hb.seen)
  have hseen : ∀ s t : Arch M, s.view = t.view → (h.withArch s).seen = (k.withArch t).seen := by
    intro s t hv
    obtain ⟨-, hexecuted, hheard⟩ := seen_eq_iff.mp hb.seen
    exact seen_eq_iff.mpr ⟨hv, hexecuted, hheard⟩
  cases he : effect i h.toArch with
  | next s =>
    cases he' : effect i k.toArch with
    | next t =>
      rw [he, he'] at hmap
      have hm : ∀ a ∈ h.fetchedWords,
          Memory.contents s.mem .word a = Memory.contents h.mem .word a :=
        fun a ha => word_of_advances (advances_of_effect hop he) fun w hw => hapart w hw a ha
      exact (hb.withArch (Effect.next.inj hmap) hm).goesOn (h := h.withArch s)
        (k := k.withArch t) ha hcur hcur' hop
    | _ => rw [he, he'] at hmap; cases hmap
  | raise id s r =>
    cases he' : effect i k.toArch with
    | raise id' t r' =>
      rw [he, he'] at hmap
      obtain ⟨rfl, -, rfl⟩ := Effect.raise.inj hmap
      obtain ⟨rfl, -⟩ := raises_of_effect he
      obtain ⟨rfl, -⟩ := raises_of_effect he'
      obtain ⟨t, u, j, ht, hu, hb', ha', hj, hj', hend⟩ | ⟨e, t, u, ht, hu, hs⟩ :=
        hb.raiseException id
      · rw [apply_raised ht, apply_raised hu]
        exact hb'.resume ha' hj hj' hend r
      · rw [apply_unraised ht, apply_unraised hu]
        exact .thrown e hs
    | _ => rw [he, he'] at hmap; cases hmap
  | ret s =>
    cases he' : effect i k.toArch with
    | ret t =>
      rw [he, he'] at hmap
      exact .returned (hseen s t (Effect.ret.inj hmap))
    | _ => rw [he, he'] at hmap; cases hmap
  | throw e s =>
    cases he' : effect i k.toArch with
    | throw e' t =>
      rw [he, he'] at hmap
      obtain ⟨rfl, hv⟩ := Effect.throw.inj hmap
      exact .thrown e (hseen s t hv)
    | _ => rw [he, he'] at hmap; cases hmap
  | terminate =>
    cases he' : effect i k.toArch with
    | terminate => exact .terminated
    | _ => rw [he, he'] at hmap; cases hmap

theorem Beside.step [LawfulMemory M] (hb : h.Beside k) (ha : h.Abreast k pos) (hpc : h.pc ≠ 1)
    (hapart : (Call.step h).StoresApart) : Outcome.Beside h.step k.step := by
  obtain ⟨i, hcur, hcur', hop⟩ | ⟨i, j, hcur, hcur', hend, hend'⟩ := ha.current
  · rw [step_instr hcur hop, step_instr hcur' hop]
    exact hb.apply ha hcur hcur' hop (hapart i hcur)
  · rw [step_bbEnd hcur hend, step_bbEnd hcur' hend']
    exact hb.execBBEND hpc

theorem Beside.storesApart (hb : h.Beside k) (ha : h.Abreast k pos)
    (hapart : (Call.step k).StoresApart) : (Call.step h).StoresApart := by
  intro i hcur w hw a hmem
  obtain ⟨i', hcur', hk, -⟩ | ⟨i', j, hcur', -, hend, -⟩ := ha.current
  · obtain rfl := Option.some.inj (hcur.symm.trans hcur')
    have haddress : h.address i = k.address i := by
      simp only [Arch.address, Arch.read, (View.mk.inj (view_of_seen hb.seen)).1]
    change Memory.Apart (h.address i) w.size a 4
    rw [haddress]
    exact hapart i hk w hw a (hb.fetched ▸ hmem)
  · obtain rfl := Option.some.inj (hcur.symm.trans hcur')
    rw [hend] at hw
    cases hw

end Hart

end Besm.Sim
