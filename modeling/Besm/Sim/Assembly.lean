import Besm.Memory.Flat
import Besm.Sim.Blocks
import Besm.Sim.Steps

namespace Besm.Sim

open Besm.Exec Besm.Mem

namespace Hart

variable {M : Type} [Memory M] {h t : Hart M} {e : MemError}

/-- What was appended before the failure is decoded from the words that were
read, and the rest of the block is as it was. -/
theorem assembleLoop_failed (fuel : Nat) (r : BasicBlockRebuilder) (pc : RV64Ptr) (mem : M)
    (hf : (assembleLoop fuel r pc mem).1 = .error e) :
    ∃ n, n < fuel ∧
      (∀ k < n, ∃ w, (assembleLoop fuel r pc mem).2.1.instrs (r.count + k) = some (Dec.parse w)) ∧
      ∀ k, k < r.count ∨ r.count + n ≤ k →
        (assembleLoop fuel r pc mem).2.1.instrs k = r.bb.instrs k := by
  induction fuel generalizing r pc mem with
  | zero => cases hf
  | succ fuel ih =>
    unfold assembleLoop at hf ⊢
    revert hf
    obtain ⟨e' | word, mem'⟩ := Memory.fetchWord mem pc
    · exact fun _ => ⟨0, Nat.succ_pos fuel, fun k hk => absurd hk (Nat.not_lt_zero k),
        fun k _ => rfl⟩
    · dsimp only
      rcases ha : r.append (Dec.parse word) with ⟨_ | _, r'⟩
      · intro hf
        cases hf
      · obtain ⟨-, -, rfl⟩ := BasicBlockRebuilder.append_true ha
        intro hf
        obtain ⟨n, hn, hnew, hold⟩ := ih _ _ mem' hf
        dsimp only at hnew hold ⊢
        have hfirst := (hold r.count (.inl (Nat.lt_succ_self _))).trans
          (BasicBlock.setInstr_same r.bb r.count (Dec.parse word))
        refine ⟨n + 1, by omega, fun k hk => ?_, fun k hk => ?_⟩
        · cases k with
          | zero => exact ⟨word, hfirst⟩
          | succ k =>
            obtain ⟨w, hw⟩ := hnew k (by omega)
            exact ⟨w, by rw [← hw]; congr 1; omega⟩
        · rw [hold k (by omega), BasicBlock.setInstr_ne _ _ (by omega)]

/-- A fetch that fails had claimed a slot for the address first. -/
theorem fetchBB_error_cases (hf : h.fetchBB = (.error e, t)) :
    ∃ cache bb mem, h.bbCache.lookup h.pc = (false, (h.bbCache.lookup h.pc).2.1, cache) ∧
      assembleBB (h.bbCache.bbs (h.bbCache.lookup h.pc).2.1) h.pc h.mem = (.error e, bb, mem) ∧
      t = { h with mem := mem, bbCache := cache.setBB (h.bbCache.lookup h.pc).2.1 bb } := by
  have hbbs := BasicBlockCache.lookup_bbs h.bbCache h.pc
  unfold fetchBB at hf
  revert hf hbbs
  obtain ⟨_ | _, slot, cache⟩ := h.bbCache.lookup h.pc <;> intro hf hbbs
  · dsimp only at hf hbbs ⊢
    rw [← hbbs]
    rcases ha : assembleBB (cache.bbs slot) h.pc h.mem with ⟨_ | _, bb, mem⟩ <;> rw [ha] at hf
    · obtain ⟨he, rfl⟩ := Prod.mk.inj hf
      exact ⟨cache, bb, mem, rfl, by rw [Except.error.inj he], rfl⟩
    · cases hf
  · cases hf

/-- The slot claimed for a block that could not be read holds no block: the next
lookup of its address misses. -/
def LeavesNoBlock (h : Hart M) : Prop :=
  ∀ e t, h.fetchBB = (.error e, t) → (t.bbCache.lookup h.pc).1 = false

/-- However far the assembly came, the next run enters the slot that the block
was to be assembled in, with what is left there of the block before. -/
theorem failed_block_held (hrows : ∀ set, h.bbCache.lruRowers set < BasicBlockCache.kWays)
    (hf : h.fetchBB = (.error e, t)) : ¬h.LeavesNoBlock ∧
      t.run = .running (t.enterBB (h.bbCache.lookup h.pc).2.1) ∧
      ∃ n < BasicBlock.kCapacity - 1,
        (∀ k < n, ∃ w, (t.bbCache.bbs (h.bbCache.lookup h.pc).2.1).instrs k =
          some (Dec.parse w)) ∧
        ∀ k, n ≤ k → (t.bbCache.bbs (h.bbCache.lookup h.pc).2.1).instrs k =
          (h.bbCache.bbs (h.bbCache.lookup h.pc).2.1).instrs k := by
  obtain ⟨cache, bb, mem, hl, ha, rfl⟩ := fetchBB_error_cases hf
  have hbbs := BasicBlockCache.lookup_bbs h.bbCache h.pc
  have hpc := assembleBB_pc (h.bbCache.bbs (h.bbCache.lookup h.pc).2.1) h.pc h.mem
  have hagain := BasicBlockCache.lookup_again hrows h.pc
    (cache.setBB (h.bbCache.lookup h.pc).2.1 bb)
  rw [hl] at hbbs
  rw [ha] at hpc
  generalize (h.bbCache.lookup h.pc).2.1 = slot at hl ha hbbs hpc hagain hf ⊢
  have hhit : (cache.setBB slot bb).lookup h.pc = (true, slot, cache.setBB slot bb) := by
    refine hagain (fun j hj => ?_) ?_
    · rw [BasicBlockCache.setBB_ne _ _ hj]
      exact congrFun hbbs j
    · rw [BasicBlockCache.setBB_same]
      exact hpc
  refine ⟨fun hno => ?_, ?_, ?_⟩
  · have hmiss := hno _ _ hf
    dsimp only at hmiss
    rw [hhit] at hmiss
    cases hmiss
  · have hfetch : fetchBB { h with mem := mem, bbCache := cache.setBB slot bb } =
        (.ok (), Hart.enterBB { h with mem := mem, bbCache := cache.setBB slot bb } slot) := by
      unfold fetchBB
      have hlook : (cache.setBB slot bb).lookup (Arch.pc { h with mem := mem }.toArch) =
        (true, slot, cache.setBB slot bb) := hhit
      rw [hlook]
    unfold run execBBEND
    rw [hfetch]
  · obtain ⟨n, hn, hnew, hold⟩ := assembleLoop_failed _ _ _ _ (congrArg Prod.fst ha)
    have hloop : (assembleLoop (BasicBlock.kCapacity - 1)
        (BasicBlockRebuilder.create (h.bbCache.bbs slot) h.pc) h.pc h.mem).2.1 = bb :=
      congrArg (fun x => x.2.1) ha
    rw [hloop] at hnew hold
    refine ⟨n, hn, fun k hk => ?_, fun k hk => ?_⟩
    · obtain ⟨w, hw⟩ := hnew k hk
      refine ⟨w, ?_⟩
      rw [BasicBlockCache.setBB_same, ← hw]
      exact congrArg _ (Nat.zero_add k).symm
    · rw [BasicBlockCache.setBB_same]
      exact hold k (.inr (le_of_eq_of_le (Nat.zero_add n) hk))

theorem failed_block_held_unmapped :
    (Hart.create (fun _ => 0) (FlatMemory.filled 0 0)).fetchBB.1 =
        .error (.invalidAddress "Device not found") ∧
      ¬(Hart.create (fun _ => 0) (FlatMemory.filled 0 0)).LeavesNoBlock :=
  have hf : (Hart.create (fun _ => 0) (FlatMemory.filled 0 0)).fetchBB.1 =
      .error (.invalidAddress "Device not found") := by decide +kernel
  ⟨hf, (failed_block_held (fun _ => Nat.zero_lt_succ 7) (Prod.ext hf rfl)).1⟩

/-- The eight blocks below the end of the memory fill a set; the ninth takes the
slot of the first, cannot be read, and is then run as the first. -/
theorem leftover_jump : ∃ h t u : Hart FlatMemory,
    (Hart.create (fun _ => 0) (FlatMemory.filled 0x8000 0x0000106F)).runFor 15 = some h ∧
      h.fetchBB = (.error (.invalidAddress "Device not found"), t) ∧ ¬h.LeavesNoBlock ∧
      t.run = .running u ∧ u.pc = 0x8000 ∧ u.current = some ⟨0, 0, 0, 0x1000, .jal⟩ ∧
      Memory.contents u.mem .word u.pc = .error (.invalidAddress "Device not found") := by
  let h₀ := Hart.create (fun _ => 0) (FlatMemory.filled 0x8000 0x0000106F)
  have hsome : (h₀.runFor 15).isSome = true := by decide +kernel
  obtain ⟨h, hr⟩ := Option.isSome_iff_exists.mp hsome
  have hfetch : h.fetchBB.1 = .error (.invalidAddress "Device not found") :=
    of_runFor (f := fun h => h.fetchBB.1) hr (by decide +kernel)
  have hhit : (h.fetchBB.2.bbCache.lookup h.pc).1 = true :=
    of_runFor (f := fun h => (h.fetchBB.2.bbCache.lookup h.pc).1) hr (by decide +kernel)
  have hgo : (h.fetchBB.2.run.running?.map fun u =>
      (u.pc, u.current, Memory.contents u.mem .word u.pc)) = some (0x8000,
        some ⟨0, 0, 0, 0x1000, .jal⟩, .error (.invalidAddress "Device not found")) :=
    of_runFor (f := fun h => h.fetchBB.2.run.running?.map fun u =>
      (u.pc, u.current, Memory.contents u.mem .word u.pc)) hr (by decide +kernel)
  obtain ⟨u, hu, hshows⟩ := Option.map_eq_some_iff.mp hgo
  obtain ⟨hpc, hrest⟩ := Prod.mk.inj hshows
  obtain ⟨hcur, hcontents⟩ := Prod.mk.inj hrest
  have hf : h.fetchBB = (.error (.invalidAddress "Device not found"), h.fetchBB.2) :=
    Prod.ext hfetch rfl
  refine ⟨h, _, u, hr, hf, fun hno => ?_, Outcome.running?_eq_some.mp hu, hpc, hcur, hcontents⟩
  exact absurd (hno _ _ hf) (by simp [hhit])

end Hart

def AlwaysTraps (M : Type) [Memory M] (i : Instruction) : Prop :=
  ∀ s : Arch M, ∃ id t r, effect i s = .raise id t r

/-- An instruction after which execution never goes straight on. -/
def Stops (M : Type) [Memory M] (i : Instruction) : Prop :=
  i.isJump = true ∨ i.operation = .ebreak ∨ AlwaysTraps M i

section Words

variable {M : Type} [Memory M]

def wordAt (m : M) (pc : RV64Ptr) : Nat → Except MemError RV64UWord
  | 0 => (Memory.fetchWord m pc).1
  | k + 1 => wordAt (Memory.fetchWord m pc).2 (pc + ialign / 8) k

theorem wordAt_eq [LawfulMemory M] (m : M) (pc : RV64Ptr) (k : Nat) :
    wordAt m pc k = Memory.contents m .word (pc + BitVec.ofNat 64 (4 * k)) := by
  induction k generalizing m pc with
  | zero =>
    rw [Nat.mul_zero, BitVec.add_zero]
    exact LawfulMemory.fetch_eq m pc
  | succ k ih =>
    have hnext : pc + ialign / 8 + BitVec.ofNat 64 (4 * k) = pc + BitVec.ofNat 64 (4 * (k + 1)) := by
      have h : (ialign / 8 : RV64UDWord) = BitVec.ofNat 64 4 := rfl
      rw [h, BitVec.add_assoc, ← BitVec.ofNat_add, Nat.mul_succ, Nat.add_comm 4]
    rw [wordAt, ih, LawfulMemory.fetch_contents, hnext]

def StraightTo (m : M) (pc : RV64Ptr) (k : Nat) : Prop :=
  ∀ j < k, ∃ w, wordAt m pc j = .ok w ∧ ¬Stops M (Dec.parse w)

def ReadsMapped (m : M) (pc : RV64Ptr) : Prop :=
  ∀ k, StraightTo m pc k → ∃ w, wordAt m pc k = .ok w

def wordsRead : (fuel : Nat) → BasicBlockRebuilder → RV64Ptr → M → Nat
  | 0, _, _, _ => 0
  | fuel + 1, rebuilder, pc, mem =>
    match Memory.fetchWord mem pc with
    | (.error _, _) => 1
    | (.ok word, mem) =>
      match rebuilder.append (Dec.parse word) with
      | (true, rebuilder) => wordsRead fuel rebuilder (pc + ialign / 8) mem + 1
      | (false, _) => 1

theorem forall_lt_succ_iff {p : Nat → Prop} {k : Nat} :
    (∀ j < k + 1, p j) ↔ p 0 ∧ ∀ j < k, p (j + 1) := by
  constructor
  · exact fun h => ⟨h 0 (Nat.succ_pos k), fun j hj => h (j + 1) (Nat.succ_lt_succ hj)⟩
  · rintro ⟨h0, hs⟩ (_ | j) hj
    · exact h0
    · exact hs j (Nat.lt_of_succ_lt_succ hj)

theorem lt_wordsRead_iff (fuel : Nat) (r : BasicBlockRebuilder) (pc : RV64Ptr) (mem : M)
    (hfuel : fuel + r.count = BasicBlock.kCapacity - 1) (k : Nat) :
    k < wordsRead fuel r pc mem ↔
      k < fuel ∧ ∀ j < k, ∃ w, wordAt mem pc j = .ok w ∧ (Dec.parse w).isJump = false := by
  induction fuel generalizing r pc mem k with
  | zero => exact iff_of_false (Nat.not_lt_zero k) fun h => Nat.not_lt_zero k h.1
  | succ fuel ih =>
    have h0 : wordAt mem pc 0 = (Memory.fetchWord mem pc).1 := rfl
    have hs : ∀ k, wordAt mem pc (k + 1) =
      wordAt (Memory.fetchWord mem pc).2 (pc + ialign / 8) k := fun _ => rfl
    unfold wordsRead
    cases k with
    | zero =>
      refine iff_of_true ?_ ⟨Nat.succ_pos fuel, fun j hj => absurd hj (Nat.not_lt_zero j)⟩
      split
      · exact Nat.one_pos
      · split
        · exact Nat.succ_pos _
        · exact Nat.one_pos
    | succ k =>
      rw [forall_lt_succ_iff]
      revert h0 hs
      obtain ⟨e | word, mem'⟩ := Memory.fetchWord mem pc <;> intro h0 hs
      · refine iff_of_false (by simp) ?_
        rintro ⟨-, ⟨w, hw, -⟩, -⟩
        cases h0.symm.trans hw
      · dsimp only at h0 hs ⊢
        rcases ha : r.append (Dec.parse word) with ⟨_ | _, r'⟩
        · obtain ⟨hlast, -⟩ := BasicBlockRebuilder.append_false ha
          refine iff_of_false (by simp) ?_
          rintro ⟨hk, ⟨w, hw, hj⟩, -⟩
          obtain rfl := Except.ok.inj (h0.symm.trans hw)
          obtain hjump | hfull := hlast
          · cases hjump.symm.trans hj
          · omega
        · obtain ⟨hj, -, rfl⟩ := BasicBlockRebuilder.append_true ha
          simp only [hs]
          rw [Nat.succ_lt_succ_iff, Nat.succ_lt_succ_iff, ih _ _ mem' (by dsimp only; omega)]
          exact and_congr_right fun _ => (and_iff_right ⟨word, h0, hj⟩).symm

theorem assembleLoop_ok_iff (fuel : Nat) (r : BasicBlockRebuilder) (pc : RV64Ptr) (mem : M) :
    (Hart.assembleLoop fuel r pc mem).1 = .ok () ↔
      ∀ k < wordsRead fuel r pc mem, ∃ w, wordAt mem pc k = .ok w := by
  induction fuel generalizing r pc mem with
  | zero => exact iff_of_true rfl fun k hk => absurd hk (Nat.not_lt_zero k)
  | succ fuel ih =>
    have h0 : wordAt mem pc 0 = (Memory.fetchWord mem pc).1 := rfl
    have hs : ∀ k, wordAt mem pc (k + 1) =
      wordAt (Memory.fetchWord mem pc).2 (pc + ialign / 8) k := fun _ => rfl
    unfold wordsRead Hart.assembleLoop
    revert h0 hs
    obtain ⟨e | word, mem'⟩ := Memory.fetchWord mem pc <;> intro h0 hs
    · refine iff_of_false (fun he => (by cases he)) fun hall => ?_
      obtain ⟨w, hw⟩ := hall 0 Nat.one_pos
      cases h0.symm.trans hw
    · dsimp only at h0 hs ⊢
      obtain ⟨_ | _, r'⟩ := r.append (Dec.parse word)
      · refine iff_of_true rfl fun k hk => ?_
        obtain rfl := Nat.lt_one_iff.mp hk
        exact ⟨word, h0⟩
      · rw [forall_lt_succ_iff]
        simp only [hs]
        rw [ih r' _ mem']
        exact (and_iff_right ⟨word, h0⟩).symm

/-- The assembly of a block does not throw, and reads no word that execution
does not come to. -/
def Faultless (m : M) (pc : RV64Ptr) (bb : BasicBlock) : Prop :=
  (Hart.assembleBB bb pc m).1 = .ok () ∧
    ∀ k < wordsRead (BasicBlock.kCapacity - 1) (BasicBlockRebuilder.create bb pc) pc m,
      StraightTo m pc k

theorem StraightTo.eq_zero {m : M} {pc : RV64Ptr} {k : Nat} {w : RV64UWord}
    (h : StraightTo m pc k) (hword : wordAt m pc 0 = .ok w) (hstop : Stops M (Dec.parse w)) :
    k = 0 := by
  by_contra hk
  obtain ⟨w', hw', hgo⟩ := h 0 (Nat.pos_of_ne_zero hk)
  obtain rfl := Except.ok.inj (hword.symm.trans hw')
  exact hgo hstop

theorem readsMapped_of_stops {m : M} {pc : RV64Ptr} {w : RV64UWord}
    (hword : wordAt m pc 0 = .ok w) (hstop : Stops M (Dec.parse w)) : ReadsMapped m pc :=
  fun _ hk => hk.eq_zero hword hstop ▸ ⟨w, hword⟩

/-- Where execution reads only mapped words, the assembly is as careful exactly
if what stops execution first, among the words before the block is full, is a jump. -/
theorem faultless_iff (m : M) (pc : RV64Ptr) (bb : BasicBlock) (hmapped : ReadsMapped m pc) :
    Faultless m pc bb ↔ ∀ n < BasicBlock.kCapacity - 2, StraightTo m pc n →
      ∀ w, wordAt m pc n = .ok w → Stops M (Dec.parse w) → (Dec.parse w).isJump = true := by
  have hread := lt_wordsRead_iff (BasicBlock.kCapacity - 1) (BasicBlockRebuilder.create bb pc) pc m
    rfl
  constructor
  · rintro ⟨-, hstraight⟩ n hn hto w hw hstop
    by_contra hj
    have hnext : StraightTo m pc (n + 1) := by
      refine hstraight (n + 1) ((hread _).mpr ⟨Nat.succ_lt_of_lt_pred hn, fun j hjn => ?_⟩)
      obtain hlt | rfl := Nat.lt_succ_iff_lt_or_eq.mp hjn
      · obtain ⟨w', hw', hgo⟩ := hto j hlt
        exact ⟨w', hw', Bool.eq_false_iff.mpr fun hj => hgo (.inl hj)⟩
      · exact ⟨w, hw, Bool.eq_false_iff.mpr hj⟩
    obtain ⟨w', hw', hgo⟩ := hnext n (Nat.lt_succ_self n)
    obtain rfl := Except.ok.inj (hw.symm.trans hw')
    exact hgo hstop
  · intro hjumps
    have hstraight : ∀ k, k < BasicBlock.kCapacity - 1 →
        (∀ j < k, ∃ w, wordAt m pc j = .ok w ∧ (Dec.parse w).isJump = false) →
        StraightTo m pc k := by
      intro k
      induction k with
      | zero => exact fun _ _ j hj => absurd hj (Nat.not_lt_zero j)
      | succ k ih =>
        intro hk hgo j hj
        have hto := ih (by omega) fun j hj => hgo j (by omega)
        obtain hlt | rfl := Nat.lt_succ_iff_lt_or_eq.mp hj
        · exact hto j hlt
        · obtain ⟨w, hw, hjump⟩ := hgo j (Nat.lt_succ_self j)
          refine ⟨w, hw, fun hstop => ?_⟩
          have htrue := hjumps j (Nat.lt_pred_of_succ_lt hk) hto w hw hstop
          cases htrue.symm.trans hjump
    have hall : ∀ k < wordsRead (BasicBlock.kCapacity - 1) (BasicBlockRebuilder.create bb pc) pc m,
        StraightTo m pc k := fun k hk => hstraight k ((hread k).mp hk).1 ((hread k).mp hk).2
    exact ⟨(assembleLoop_ok_iff _ _ _ _).mpr fun k hk => hmapped k (hall k hk), hall⟩

end Words

theorem faultless_jal : Faultless (FlatMemory.filled 4 0x0000006F) 0 BasicBlock.create := by
  have hword : wordAt (FlatMemory.filled 4 0x0000006F) 0 0 = .ok 0x0000006F := by decide +kernel
  have hjal : (Dec.parse 0x0000006F).isJump = true := by decide +kernel
  refine (faultless_iff _ _ _ (readsMapped_of_stops hword (.inl hjal))).mpr fun n _ hn w hw _ => ?_
  obtain rfl := hn.eq_zero hword (.inl hjal)
  obtain rfl := Except.ok.inj (hword.symm.trans hw)
  exact hjal

/-- An `EBREAK` in the last word of the memory. -/
theorem faulty_ebreak : ReadsMapped (FlatMemory.filled 4 0x00100073) 0 ∧
    (Hart.assembleBB BasicBlock.create 0 (FlatMemory.filled 4 0x00100073)).1 =
      .error (.invalidAddress "Device not found") ∧
    ¬Faultless (FlatMemory.filled 4 0x00100073) 0 BasicBlock.create := by
  have hword : wordAt (FlatMemory.filled 4 0x00100073) 0 0 = .ok 0x00100073 := by decide +kernel
  have hthrows : (Hart.assembleBB BasicBlock.create 0 (FlatMemory.filled 4 0x00100073)).1 =
      .error (.invalidAddress "Device not found") := by decide +kernel
  refine ⟨readsMapped_of_stops hword (.inr (.inl (by decide +kernel))), hthrows, fun hf => ?_⟩
  cases hf.1.symm.trans hthrows

end Besm.Sim
