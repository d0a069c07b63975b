import Besm.Decoder.Immediates
import Besm.Exec.Fetches
import Besm.Memory.Flat
import Besm.Sim.Jumps

namespace Besm.Exec

/-- A block of `n` decoded instructions and its end mark, as far as a pointer
that goes over it needs to know. -/
structure BasicBlock.Shaped (bb : BasicBlock) (n : Nat) : Prop where
  pos : 1 ≤ n
  le : n ≤ 7
  lt : n < kCapacity
  written : ∀ k < n, ∃ word, bb.instrs k = some (Dec.parse word)
  stop : ∃ i, bb.instrs n = some i ∧ i.operation = .bbEnd
  jumps : ∀ k < n, ∀ i, bb.instrs k = some i → i.isJump = true → k = n - 1

theorem BasicBlock.Shaped.current {bb : BasicBlock} {n pos : Nat} (h : bb.Shaped n)
    (hpos : pos ≤ n) : ∃ i, bb.instrs pos = some i ∧ (i.operation = .bbEnd ↔ pos = n) ∧
      (pos < n → ∃ word, i = Dec.parse word) := by
  obtain hlt | rfl := Nat.lt_or_eq_of_le hpos
  · obtain ⟨word, hi⟩ := h.written pos hlt
    exact ⟨_, hi, iff_of_false (Dec.parse_ne_bbEnd word) (by omega), fun _ => ⟨word, rfl⟩⟩
  · obtain ⟨i, hi, hop⟩ := h.stop
    exact ⟨i, hi, iff_of_true hop rfl, fun hlt => absurd hlt (Nat.lt_irrefl _)⟩

/-- A block under construction holds decoded instructions, none of which is a jump. -/
def BasicBlockRebuilder.Filling (r : BasicBlockRebuilder) : Prop :=
  ∀ k < r.count, ∃ word, r.bb.instrs k = some (Dec.parse word) ∧ (Dec.parse word).isJump = false

namespace BasicBlockRebuilder

theorem Filling.append {r r' : BasicBlockRebuilder} (h : r.Filling) {word : RV64UWord}
    (ha : r.append (Dec.parse word) = (true, r')) : r'.Filling ∧ r'.count = r.count + 1 := by
  obtain ⟨hj, -, rfl⟩ := append_true ha
  refine ⟨fun k hk => ?_, rfl⟩
  obtain hlt | rfl := Nat.lt_succ_iff_lt_or_eq.mp hk
  · obtain ⟨word', hi, hj'⟩ := h k hlt
    exact ⟨word', (BasicBlock.setInstr_ne _ _ (by omega)).trans hi, hj'⟩
  · exact ⟨word, BasicBlock.setInstr_same _ _ _, hj⟩

theorem Filling.shaped {r r' : BasicBlockRebuilder} (h : r.Filling)
    (hcount : r.count < BasicBlock.kCapacity - 1) {word : RV64UWord}
    (ha : r.append (Dec.parse word) = (false, r')) : r'.bb.Shaped (r.count + 1) := by
  obtain ⟨-, rfl⟩ := append_false ha
  have hlast : ((r.bb.setInstr r.count (Dec.parse word)).setOperation (r.count + 1) .bbEnd).instrs
      r.count = some (Dec.parse word) := by
    rw [BasicBlock.setOperation_ne _ _ (by omega), BasicBlock.setInstr_same]
  have hold : ∀ k < r.count, ((r.bb.setInstr r.count (Dec.parse word)).setOperation (r.count + 1)
      .bbEnd).instrs k = r.bb.instrs k := fun k hk => by
    rw [BasicBlock.setOperation_ne _ _ (by omega), BasicBlock.setInstr_ne _ _ (by omega)]
  have hcap : BasicBlock.kCapacity = 8 := rfl
  refine ⟨by omega, by omega, by omega, fun k hk => ?_, BasicBlock.setOperation_same _ _ _,
    fun k hk i hi hj => ?_⟩
  · obtain hlt | rfl := Nat.lt_succ_iff_lt_or_eq.mp hk
    · obtain ⟨word', hi, -⟩ := h k hlt
      exact ⟨word', (hold k hlt).trans hi⟩
    · exact ⟨word, hlast⟩
  · obtain hlt | rfl := Nat.lt_succ_iff_lt_or_eq.mp hk
    · obtain ⟨word', hi', hj'⟩ := h k hlt
      obtain rfl := Option.some.inj (hi'.symm.trans ((hold k hlt).symm.trans hi))
      exact absurd hj (Bool.eq_false_iff.mp hj')
    · rfl

theorem Completes.shaped {r : BasicBlockRebuilder} {bb : BasicBlock} (h : r.Completes bb)
    (hr : r.Filling) (hcount : r.count < BasicBlock.kCapacity - 1) : ∃ n, bb.Shaped n := by
  induction h with
  | last ha => exact ⟨_, hr.shaped hcount ha⟩
  | more ha _ ih =>
    obtain ⟨-, hfull, -⟩ := append_true ha
    obtain ⟨hr', hcount'⟩ := hr.append ha
    exact ih hr' (by omega)

end BasicBlockRebuilder

namespace BasicBlockCache

theorem lookup_lt {c : BasicBlockCache} (h : ∀ set, c.lruRowers set < kWays) (pc : RV64Ptr) :
    (c.lookup pc).2.1 < kSets * kWays := by
  have hset : hash pc + 1 ≤ kSets := hash_lt pc
  have hslot : ∀ i < kWays, setPos pc + i < kSets * kWays := fun i hi => calc
    setPos pc + i < hash pc * kWays + kWays := Nat.add_lt_add_left hi _
    _ = (hash pc + 1) * kWays := (Nat.succ_mul _ _).symm
    _ ≤ kSets * kWays := Nat.mul_le_mul_right _ hset
  unfold lookup
  cases hw : c.findWay pc with
  | none =>
    change c.lruRowers (hash pc) + setPos pc < _
    rw [Nat.add_comm]
    exact hslot _ (h (hash pc))
  | some i => exact hslot i (findWay_eq_some.mp hw).1

end BasicBlockCache

end Besm.Exec

namespace Besm.Sim

open Besm.Exec Besm.Mem Besm.Util Besm.Lib.Encoding Besm.Lib.Transition

variable {M : Type}

theorem even_of_getLsbD {n : Nat} {x : BitVec n} (h : x.getLsbD 0 = false) : x.toNat % 2 = 0 := by
  rw [← BitVec.testBit_toNat, Nat.testBit_zero, decide_eq_false_iff_not] at h
  omega

theorem add_even {a b : RV64Ptr} (ha : a.toNat % 2 = 0) (hb : b.toNat % 2 = 0) :
    (a + b).toNat % 2 = 0 := by
  rw [BitVec.toNat_add]
  omega

theorem even_of_word {a : RV64Ptr} (h : a.toNat % 4 = 0) : a.toNat % 2 = 0 := by
  omega

theorem clear_lowest_even (a : RV64Ptr) : (a &&& ~~~(1 : RV64UDWord)).toNat % 2 = 0 := by
  apply even_of_getLsbD
  simp

theorem offset_even {n signBits : Nat} {x : BitVec n} (h : x.getLsbD 0 = false) (hlow : 1 < signBits)
    (hfit : signBits ≤ 64) : (signExtend signBits (x.setWidth 64)).toNat % 2 = 0 := by
  have hx : (x.setWidth 64).getLsbD 0 = false := by
    rw [BitVec.getLsbD_setWidth, h, Bool.and_false]
  have hmod := toNat_signExtend_mod (k := 1) (x.setWidth 64) hlow hfit
  rw [Nat.pow_one] at hmod
  exact hmod.trans (even_of_getLsbD hx)

section Effects

variable [Memory M] {s s' : Arch M} {w : RV64UWord}

/-- Only the decoder keeps jumps to halfwords: JALR alone clears the lowest bit. -/
theorem even_of_next (hpc : s.pc.toNat % 2 = 0) (hmepc : s.csrf.mepc.toNat % 4 = 0)
    (he : effect (Dec.parse w) s = .next s') : s'.pc.toNat % 2 = 0 := by
  have hrd := (Dec.parse_registers w).1
  have hnext : ∀ t : Arch M, t.pc = s.pc → t.nextPC.pc.toNat % 2 = 0 := by
    intro t ht
    rw [Arch.pc_nextPC, ht]
    exact add_even hpc rfl
  cases advances_of_effect (Dec.parse_ne_bbEnd w) he with
  | retire value => exact hnext _ (Arch.pc_write _ _ hrd)
  | fence => exact hnext s rfl
  | jal hop =>
    rw [Arch.pc_setPC, Dec.parse_j hop rfl rfl]
    exact add_even hpc (offset_even (offsetJ_even w) (by decide) (by decide))
  | jalr hop =>
    rw [Arch.pc_setPC]
    exact clear_lowest_even _
  | taken hop =>
    obtain ⟨⟨f3, hf⟩, hl⟩ := form_of_branch hop
    rw [Arch.pc_setPC, Dec.parse_b rfl hl hf]
    exact add_even hpc (offset_even (offsetB_even w) (by decide) (by decide))
  | notTaken => exact hnext s rfl
  | load w value => exact hnext _ (Arch.pc_write _ _ hrd)
  | store w hop value => exact hnext { s with mem := _ } rfl
  | csrRead value => exact hnext _ (Arch.pc_write _ _ hrd)
  | csrWrite f hf reg => exact hnext _ (Arch.pc_write _ _ hrd)
  | mret =>
    rw [Arch.pc_setPC, mepc_get]
    exact even_of_word hmepc

end Effects

namespace Hart

variable {h : Hart M} {k : Nat}

/-- A state from which a block can be fetched: a block that is held is either
poisoned, at an odd address, or complete. -/
structure Ready (h : Hart M) : Prop where
  pc : h.pc.toNat % 2 = 0
  mepc : h.csrf.mepc.toNat % 4 = 0
  blocks : ∀ index, (h.bbCache.bbs index).pc = 1 ∨ ∃ n, (h.bbCache.bbs index).Shaped n
  rows : ∀ set, h.bbCache.lruRowers set < BasicBlockCache.kWays

/-- The pointer to the current instruction is within its slot, at the block's
end at the latest. -/
structure Inside (h : Hart M) (k : Nat) : Prop where
  slot : k < BasicBlockCache.kSets * BasicBlockCache.kWays
  cursor : ∃ pos n, h.currentInstr = some ⟨k, pos⟩ ∧ (h.bbCache.bbs k).Shaped n ∧ pos ≤ n

/-- The call reaches no memory behind a block, and goes on within slot `k`. -/
def Keeps (k : Nat) (o : Outcome M) : Prop :=
  o ≠ .undefined ∧ ∀ h', o = .running h' ∨ o = .returned h' → h'.Ready ∧ h'.Inside k

theorem keeps_running (hr : h.Ready) (hin : h.Inside k) : Keeps k (.running h) := by
  refine ⟨fun hu => (by cases hu), ?_⟩
  rintro h' (hh | hh)
  · exact Outcome.running.inj hh ▸ ⟨hr, hin⟩
  · cases hh

theorem keeps_returned (hr : h.Ready) (hin : h.Inside k) : Keeps k (.returned h) := by
  refine ⟨fun hu => (by cases hu), ?_⟩
  rintro h' (hh | hh)
  · cases hh
  · exact Outcome.returned.inj hh ▸ ⟨hr, hin⟩

theorem keeps_thrown (e : MemError) : Keeps k (.thrown e h) := by
  refine ⟨fun hu => (by cases hu), ?_⟩
  rintro h' (hh | hh) <;> cases hh

theorem Ready.execNextInstr (hr : h.Ready) (hin : h.Inside k) {pos n : Nat}
    (hptr : h.currentInstr = some ⟨k, pos⟩) (hn : (h.bbCache.bbs k).Shaped n) (hlt : pos < n) :
    Keeps k h.execNextInstr := by
  obtain ⟨i, hi, -⟩ := hn.current (Nat.le_of_lt hlt)
  have hcur : h.current = some i := (current_of_ptr hptr).trans hi
  have hgo : h.execNextInstr = .running { h with
      instrsExecuted := h.instrsExecuted + 1
      hooks := h.hooks ++ [.instrExecuted i]
      currentInstr := some ⟨k, pos + 1⟩ } := by
    rw [Hart.execNextInstr, hptr, hcur]
  rw [hgo]
  exact keeps_running ⟨hr.pc, hr.mepc, hr.blocks, hr.rows⟩ ⟨hin.slot, pos + 1, n, rfl, hn, hlt⟩

theorem Ready.resume (hr : h.Ready) (hin : h.Inside k) (hptr : h.currentInstr = some ⟨k, 0⟩)
    (r : Resume) : Keeps k (h.resume r) := by
  obtain ⟨pos, n, hptr', hn, -⟩ := hin.cursor
  cases r with
  | ret => exact keeps_returned hr hin
  | execNextInstr => exact hr.execNextInstr hin hptr hn hn.pos
  | jumpMepc =>
    have hpc : (h.setPC (MEPC.value.get h.csrf.mepc)).pc.toNat % 2 = 0 := by
      rw [Arch.pc_setPC, mepc_get]
      exact even_of_word hr.mepc
    exact Ready.execNextInstr (h := h.withArch (h.setPC (MEPC.value.get h.csrf.mepc)))
      ⟨hpc, hr.mepc, hr.blocks, hr.rows⟩ ⟨hin.slot, hin.cursor⟩ hptr hn hn.pos

theorem ready_initial (hinit : Initial h) : h.Ready := by
  obtain ⟨garbage, mem, rfl⟩ := hinit
  exact ⟨rfl, rfl, fun _ => .inl rfl, fun _ => Nat.zero_lt_succ 7⟩

variable [Memory M] {h' : Hart M}

theorem assembleLoop_completes (fuel : Nat) (r : BasicBlockRebuilder) (pc : RV64Ptr) (mem : M)
    (hfuel : fuel + r.count = BasicBlock.kCapacity - 1) (hpos : 0 < fuel)
    (hok : (assembleLoop fuel r pc mem).1 = .ok ()) :
    r.Completes (assembleLoop fuel r pc mem).2.1 := by
  induction fuel generalizing r pc mem with
  | zero => omega
  | succ fuel ih =>
    unfold assembleLoop at hok ⊢
    revert hok
    obtain ⟨e | word, mem'⟩ := Memory.fetchWord mem pc
    · intro hok
      cases hok
    · dsimp only
      rcases ha : r.append (Dec.parse word) with ⟨_ | _, r'⟩
      · exact fun _ => .last ha
      · obtain ⟨-, hfull, rfl⟩ := BasicBlockRebuilder.append_true ha
        exact fun hok => .more ha (ih _ _ mem' (by dsimp only; omega) (by omega) hok)

theorem assembleBB_completes {bb : BasicBlock} {pc : RV64Ptr} {mem : M}
    (hok : (assembleBB bb pc mem).1 = .ok ()) :
    (BasicBlockRebuilder.create bb pc).Completes (assembleBB bb pc mem).2.1 :=
  assembleLoop_completes _ _ _ _ rfl (by decide) hok

theorem assembleBB_shaped {bb : BasicBlock} {pc : RV64Ptr} {mem : M}
    (hok : (assembleBB bb pc mem).1 = .ok ()) : ∃ n, (assembleBB bb pc mem).2.1.Shaped n :=
  (assembleBB_completes hok).shaped (fun k hk => absurd hk (Nat.not_lt_zero k))
    (by decide : 0 < BasicBlock.kCapacity - 1)

def slotOf (h : Hart M) : Nat := (h.bbCache.lookup h.pc).2.1

def fetchedSlot (h : Hart M) : Option Nat :=
  match h.current with
  | none => none
  | some i =>
    if i.operation = .bbEnd then some h.slotOf
    else match effect i h.toArch with
      | .raise id s _ => some (h.withArch (s.raiseException id)).slotOf
      | _ => none

inductive Started : Hart M × Nat → Prop
  | run {h₀ h : Hart M} (hinit : Initial h₀) (hrun : h₀.run = .running h) :
      Started (h, h₀.slotOf)

inductive Goes : Hart M × Nat → Hart M × Nat → Prop
  | step {h h' : Hart M} {k : Nat} (hstep : h.step = .running h' ∨ h.step = .returned h') :
      Goes (h, k) (h', h.fetchedSlot.getD k)
  | run {h h' : Hart M} {k : Nat} (hrun : h.run = .running h') : Goes (h, k) (h', h.slotOf)

theorem slot_fetchBB (hf : h.fetchBB = (.ok (), h')) : h'.currentInstr = some ⟨h.slotOf, 0⟩ := by
  unfold fetchBB at hf
  unfold slotOf
  revert hf
  obtain ⟨_ | _, index, cache⟩ := h.bbCache.lookup h.pc
  · dsimp only
    obtain ⟨e | _, bb, mem⟩ := assembleBB (cache.bbs index) h.pc h.mem <;> intro hf
    · cases hf
    · obtain rfl := (Prod.mk.inj hf).2
      rfl
  · intro hf
    obtain rfl := (Prod.mk.inj hf).2
    rfl

theorem Ready.blocks_fetchBB (hr : h.Ready) (hf : h.fetchBB = (.ok (), h')) (index : Nat) :
    (h'.bbCache.bbs index).pc = 1 ∨ ∃ n, (h'.bbCache.bbs index).Shaped n := by
  obtain ⟨hbbs, -⟩ | ⟨slot, bb, -, ha, hbbs⟩ := fetchBB_ok_cases hf
  · rw [hbbs]
    exact hr.blocks index
  · have hnew : ∃ n, bb.Shaped n := by
      have hshaped := assembleBB_shaped (congrArg Prod.fst ha)
      rwa [ha] at hshaped
    rw [hbbs]
    by_cases hi : index = slot
    · rw [hi, Function.update_self]
      exact .inr hnew
    · rw [Function.update_of_ne hi]
      exact hr.blocks index

/-- No block that `fetchBB` enters is poisoned, because no program counter is odd. -/
theorem Ready.fetchBB (hr : h.Ready) (hf : h.fetchBB = (.ok (), h')) :
    h'.Ready ∧ h'.Inside h.slotOf := by
  have hpc : h'.pc = h.pc := by
    rw [← pc_fetchBB h, hf]
  have hcsrf : h'.csrf = h.csrf := by
    rw [← csrf_fetchBB h, hf]
  have hptr := slot_fetchBB hf
  have hblocks := hr.blocks_fetchBB hf
  have hrows := fetchBB_lruRowers hr.rows
  rw [hf] at hrows
  refine ⟨⟨by rw [hpc]; exact hr.pc, by rw [hcsrf]; exact hr.mepc, hblocks, hrows⟩,
    BasicBlockCache.lookup_lt hr.rows h.pc, ?_⟩
  obtain ⟨index, hptr', -, hat, -⟩ := fetchBB_ok hr.rows hf
  obtain rfl : h.slotOf = index := congrArg InstrPtr.index (Option.some.inj (hptr.symm.trans hptr'))
  obtain hodd | ⟨n, hn⟩ := hblocks h.slotOf
  · have heven := hr.pc
    rw [hat.symm.trans hodd] at heven
    cases heven
  · exact ⟨0, n, hptr, hn, Nat.zero_le n⟩

theorem Ready.execBBEND (hr : h.Ready) : Keeps h.slotOf h.execBBEND := by
  obtain ⟨t, ht, hend⟩ | ⟨e, t, -, hend⟩ := h.execBBEND_cases
  · obtain ⟨ht', hin⟩ := hr.fetchBB ht
    rw [hend]
    exact keeps_running ht' hin
  · rw [hend]
    exact keeps_thrown e

theorem Ready.raise (hr : h.Ready) (id : ExceptionId) (r : Resume) :
    Keeps (h.withArch (h.toArch.raiseException id)).slotOf (h.apply (.raise id h.toArch r)) := by
  have htrap : (h.withArch (h.toArch.raiseException id)).Ready := by
    refine ⟨?_, mepc_trapCSRF_aligned hr.mepc id h.pc, hr.blocks, hr.rows⟩
    have hvec : (h.withArch (h.toArch.raiseException id)).pc = trapVector h.csrf id :=
      GPRF.read_pc_write_pc _ _
    rw [hvec]
    exact even_of_word (trapVector_mod_four h.csrf id)
  obtain ⟨t, ht, happly⟩ | ⟨e, t, -, happly⟩ := h.apply_raise id r
  · obtain ⟨ht', hin⟩ := htrap.fetchBB ht
    rw [happly]
    exact ht'.resume hin (slot_fetchBB ht) r
  · rw [happly]
    exact keeps_thrown e

theorem Ready.apply (hr : h.Ready) (hin : h.Inside k) {pos n : Nat}
    (hptr : h.currentInstr = some ⟨k, pos⟩) (hn : (h.bbCache.bbs k).Shaped n) (hlt : pos < n)
    {w : RV64UWord} (hcur : h.current = some (Dec.parse w)) :
    Keeps (h.fetchedSlot.getD k) (h.apply (effect (Dec.parse w) h.toArch)) := by
  have hslot : h.fetchedSlot = match effect (Dec.parse w) h.toArch with
      | .raise id s _ => some (h.withArch (s.raiseException id)).slotOf
      | _ => none := by
    unfold fetchedSlot
    rw [hcur]
    exact if_neg (Dec.parse_ne_bbEnd w)
  rw [hslot]
  cases he : effect (Dec.parse w) h.toArch with
  | next s =>
    have hmepc := mepc_of_advances (advances_of_effect (Dec.parse_ne_bbEnd w) he) hr.mepc
    have hpc := even_of_next hr.pc hr.mepc he
    exact Ready.execNextInstr (h := h.withArch s) ⟨hpc, hmepc, hr.blocks, hr.rows⟩
      ⟨hin.slot, hin.cursor⟩ hptr hn hlt
  | raise id s r =>
    obtain ⟨rfl, -⟩ := raises_of_effect he
    exact hr.raise id r
  | ret s =>
    obtain ⟨rfl, -⟩ := ret_of_effect he
    exact keeps_returned hr hin
  | throw e s => exact keeps_thrown e
  | terminate =>
    refine ⟨fun hu => (by cases hu), ?_⟩
    rintro h' (hh | hh) <;> cases hh

theorem Ready.step (hr : h.Ready) (hin : h.Inside k) : Keeps (h.fetchedSlot.getD k) h.step := by
  obtain ⟨pos, n, hptr, hn, hle⟩ := hin.cursor
  obtain ⟨i, hi, hend, hword⟩ := hn.current hle
  have hcur : h.current = some i := (current_of_ptr hptr).trans hi
  by_cases hop : i.operation = .bbEnd
  · have hslot : h.fetchedSlot = some h.slotOf := by
      unfold fetchedSlot
      rw [hcur]
      exact if_pos hop
    rw [step_bbEnd hcur hop, hslot]
    exact hr.execBBEND
  · have hlt : pos < n := Nat.lt_of_le_of_ne hle (hend.not.mp hop)
    obtain ⟨w, rfl⟩ := hword hlt
    rw [step_instr hcur hop]
    exact hr.apply hin hptr hn hlt hcur

theorem ready_inside (hr : Reach Started Goes (h, k)) : h.Ready ∧ h.Inside k := by
  refine Reach.invariant (I := fun p => p.1.Ready ∧ p.1.Inside p.2) ?_ ?_ hr
  · rintro _ ⟨hinit, hrun⟩
    exact (ready_initial hinit).execBBEND.2 _ (.inl hrun)
  · rintro ⟨u, l⟩ _ ⟨hu, hin⟩ hgo
    cases hgo with
    | step hstep => exact (hu.step hin).2 _ hstep
    | run hrun => exact hu.execBBEND.2 _ (.inl hrun)

/-- Between C++ exceptions the current instruction is one that was written,
within the slot of the latest fetch. -/
theorem cursor_inside (hr : Reach Started Goes (h, k)) :
    (k < BasicBlockCache.kSets * BasicBlockCache.kWays ∧
      ∃ pos n i, h.currentInstr = some ⟨k, pos⟩ ∧ (h.bbCache.bbs k).Shaped n ∧ pos ≤ n ∧
        h.current = some i ∧ (i.operation = .bbEnd ↔ pos = n)) ∧
      h.step ≠ .undefined ∧
      (∀ bb pc (mem : M), (assembleBB bb pc mem).1 = .ok () →
        ∃ n, (assembleBB bb pc mem).2.1.Shaped n) ∧
      ∀ w, (Dec.parse w).operation ≠ .bbEnd := by
  obtain ⟨hready, hin⟩ := ready_inside hr
  obtain ⟨pos, n, hptr, hn, hle⟩ := hin.cursor
  obtain ⟨i, hi, hend, -⟩ := hn.current hle
  exact ⟨⟨hin.slot, pos, n, i, hptr, hn, hle, (current_of_ptr hptr).trans hi, hend⟩,
    (hready.step hin).1, fun bb pc mem => assembleBB_shaped, Dec.parse_ne_bbEnd⟩

theorem cursor_inside_ecall : ∃ h : Hart FlatMemory, ∃ k,
    (Hart.create (fun _ => 0) (FlatMemory.image [0x00000073])).runFor 1 = some h ∧
      h.currentInstr = some ⟨0, 1⟩ ∧
      (∃ pos n i, h.currentInstr = some ⟨k, pos⟩ ∧ (h.bbCache.bbs k).Shaped n ∧ pos ≤ n ∧
        h.current = some i ∧ (i.operation = .bbEnd ↔ pos = n)) ∧ h.step ≠ .undefined := by
  let h₀ := Hart.create (fun _ => 0) (FlatMemory.image [0x00000073])
  have hsome : (h₀.runFor 1).isSome = true := by decide +kernel
  obtain ⟨h, hr⟩ := Option.isSome_iff_exists.mp hsome
  obtain ⟨h₁, hr₁, hstep⟩ := Option.bind_eq_some_iff.mp hr
  have hgo : Reach Started Goes (h, h₁.fetchedSlot.getD h₀.slotOf) :=
    .step (.init (.run ⟨_, _, rfl⟩ (Outcome.running?_eq_some.mp hr₁)))
      (.step (.inl (Outcome.running?_eq_some.mp hstep)))
  exact ⟨h, _, hr, of_runFor (f := fun h => h.currentInstr) hr (by decide +kernel),
    (cursor_inside hgo).1.2, (cursor_inside hgo).2.1⟩

end Hart

end Besm.Sim
