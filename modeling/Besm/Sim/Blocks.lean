import Besm.Sim.Hart

namespace Besm.Exec

open Besm.Mem

def BasicBlock.addr (bb : BasicBlock) (k : Nat) : RV64Ptr := bb.pc + BitVec.ofNat 64 (4 * k)

theorem BasicBlock.addr_zero (bb : BasicBlock) : bb.addr 0 = bb.pc := BitVec.add_zero _

theorem BasicBlock.addr_succ (bb : BasicBlock) (k : Nat) :
    bb.addr (k + 1) = bb.addr k + ialign / 8 := by
  have h : (ialign / 8 : RV64UDWord) = BitVec.ofNat 64 4 := rfl
  rw [addr, addr, h, BitVec.add_assoc, ← BitVec.ofNat_add, Nat.mul_succ]

def BasicBlock.Decoded (bb : BasicBlock)
    (contents : (w : Width) → RV64Ptr → Except MemError (BitVec (8 * w.size))) (n : Nat) : Prop :=
  ∀ k < n, ∃ word : RV64UWord, contents .word (bb.addr k) = .ok word ∧
    bb.instrs k = some (Dec.parse word)

/-- A block of `n` instructions as `assembleBB` leaves it: only the last can be
a jump, the block ends at a jump or when it is full, and then comes its mark. -/
structure BasicBlock.Built (bb : BasicBlock)
    (contents : (w : Width) → RV64Ptr → Except MemError (BitVec (8 * w.size))) (n : Nat) :
    Prop where
  pos : 0 < n
  lt : n < kCapacity
  decoded : bb.Decoded contents n
  straight : ∀ k, k + 1 < n → ∀ i, bb.instrs k = some i → i.isJump = false
  last : n = kCapacity - 1 ∨ ∃ i, bb.instrs (n - 1) = some i ∧ i.isJump = true
  stop : ∃ i, bb.instrs n = some i ∧ i.operation = .bbEnd

theorem BasicBlock.Built.instr {bb : BasicBlock} {n : Nat}
    {contents : (w : Width) → RV64Ptr → Except MemError (BitVec (8 * w.size))}
    (hb : bb.Built contents n) {k : Nat} (hk : k < n) :
    ∃ i, bb.instrs k = some i ∧ i.operation ≠ .bbEnd := by
  obtain ⟨word, -, hi⟩ := hb.decoded k hk
  exact ⟨_, hi, Dec.parse_ne_bbEnd word⟩

end Besm.Exec

namespace Besm.Sim

open Besm.Exec Besm.Mem

variable {M : Type} [Memory M]

theorem decoded_setInstr {bb : BasicBlock} {n : Nat}
    {contents : (w : Width) → RV64Ptr → Except MemError (BitVec (8 * w.size))}
    (h : bb.Decoded contents n) {word : RV64UWord} (hw : contents .word (bb.addr n) = .ok word) :
    (bb.setInstr n (Dec.parse word)).Decoded contents (n + 1) := by
  intro k hk
  obtain hlt | rfl := Nat.lt_succ_iff_lt_or_eq.mp hk
  · obtain ⟨word', hw', hi⟩ := h k hlt
    exact ⟨word', hw', by rw [BasicBlock.setInstr_ne _ _ (by omega), hi]⟩
  · exact ⟨word, hw, BasicBlock.setInstr_same _ _ _⟩

theorem built_append {bb : BasicBlock} {n : Nat}
    {contents : (w : Width) → RV64Ptr → Except MemError (BitVec (8 * w.size))}
    (hn : n < BasicBlock.kCapacity - 1) (hdec : bb.Decoded contents n)
    (hstr : ∀ k < n, ∀ i, bb.instrs k = some i → i.isJump = false) {word : RV64UWord}
    (hw : contents .word (bb.addr n) = .ok word)
    (hlast : (Dec.parse word).isJump = true ∨ n + 1 = BasicBlock.kCapacity - 1) :
    ((bb.setInstr n (Dec.parse word)).setOperation (n + 1) .bbEnd).Built contents (n + 1) := by
  have hd := decoded_setInstr hdec hw
  have hne : ∀ k ≤ n, ((bb.setInstr n (Dec.parse word)).setOperation (n + 1) .bbEnd).instrs k =
      (bb.setInstr n (Dec.parse word)).instrs k :=
    fun k hk => BasicBlock.setOperation_ne _ _ (by omega)
  refine ⟨Nat.succ_pos n, by omega, ?_, ?_, ?_, BasicBlock.setOperation_same _ _ _⟩
  · intro k hk
    obtain ⟨word', hw', hi⟩ := hd k hk
    exact ⟨word', hw', by rw [hne k (by omega), hi]⟩
  · intro k hk i hi
    rw [hne k (by omega), BasicBlock.setInstr_ne _ _ (by omega)] at hi
    exact hstr k (by omega) i hi
  · obtain hj | hfull := hlast
    · exact .inr ⟨_, (hne n le_rfl).trans (BasicBlock.setInstr_same _ _ _), hj⟩
    · exact .inl hfull

theorem assembleLoop_spec [LawfulMemory M] (fuel : Nat) (r : BasicBlockRebuilder) (mem : M)
    (hfuel : fuel + r.count = BasicBlock.kCapacity - 1) (hpos : 0 < fuel)
    (hdec : r.bb.Decoded (Memory.contents mem) r.count)
    (hstr : ∀ k < r.count, ∀ i, r.bb.instrs k = some i → i.isJump = false) :
    Memory.contents (Hart.assembleLoop fuel r (r.bb.addr r.count) mem).2.2 = Memory.contents mem ∧
    (Hart.assembleLoop fuel r (r.bb.addr r.count) mem).2.1.pc = r.bb.pc ∧
    ((Hart.assembleLoop fuel r (r.bb.addr r.count) mem).1 = .ok () →
      ∃ n, (Hart.assembleLoop fuel r (r.bb.addr r.count) mem).2.1.Built
        (Memory.contents mem) n) := by
  induction fuel generalizing r mem with
  | zero => omega
  | succ fuel ih =>
    have hc : Memory.contents (Memory.fetchWord mem (r.bb.addr r.count)).2 = Memory.contents mem :=
      LawfulMemory.fetch_contents _ _
    have he : (Memory.fetchWord mem (r.bb.addr r.count)).1 =
        Memory.contents mem .word (r.bb.addr r.count) := LawfulMemory.fetch_eq _ _
    unfold Hart.assembleLoop
    revert hc he
    obtain ⟨_ | word, mem'⟩ := Memory.fetchWord mem (r.bb.addr r.count) <;> intro hc he
    · exact ⟨hc, rfl, fun h => nomatch h⟩
    · dsimp only
      rcases ha : r.append (Dec.parse word) with ⟨_ | _, r'⟩
      · obtain ⟨hlast, rfl⟩ := BasicBlockRebuilder.append_false ha
        exact ⟨hc, rfl, fun _ => ⟨_, built_append (by omega) hdec hstr he.symm hlast⟩⟩
      · obtain ⟨hj, hfull, rfl⟩ := BasicBlockRebuilder.append_true ha
        have hstr' : ∀ k < r.count + 1, ∀ i,
            (r.bb.setInstr r.count (Dec.parse word)).instrs k = some i → i.isJump = false := by
          intro k hk i hi
          obtain hlt | rfl := Nat.lt_succ_iff_lt_or_eq.mp hk
          · rw [BasicBlock.setInstr_ne _ _ (by omega)] at hi
            exact hstr k hlt i hi
          · rw [BasicBlock.setInstr_same] at hi
            exact Option.some.inj hi ▸ hj
        have h := ih ⟨r.bb.setInstr r.count (Dec.parse word), r.count + 1⟩ mem'
          (by simp only; omega) (by omega)
          (by rw [hc]; exact decoded_setInstr hdec he.symm) hstr'
        rw [hc] at h
        rw [← BasicBlock.addr_succ]
        exact h

theorem assembleBB_spec [LawfulMemory M] (bb : BasicBlock) (pc : RV64Ptr) (mem : M) :
    Memory.contents (Hart.assembleBB bb pc mem).2.2 = Memory.contents mem ∧
    (Hart.assembleBB bb pc mem).2.1.pc = pc ∧
    ((Hart.assembleBB bb pc mem).1 = .ok () →
      ∃ n, (Hart.assembleBB bb pc mem).2.1.Built (Memory.contents mem) n) := by
  have h := assembleLoop_spec (BasicBlock.kCapacity - 1) (BasicBlockRebuilder.create bb pc) mem
    rfl (by decide) (fun k hk => absurd hk (by simp [BasicBlockRebuilder.create]))
    (fun k hk => absurd hk (by simp [BasicBlockRebuilder.create]))
  have ha : (BasicBlockRebuilder.create bb pc).bb.addr (BasicBlockRebuilder.create bb pc).count =
      pc := BasicBlock.addr_zero _
  rw [ha] at h
  exact h

end Besm.Sim
