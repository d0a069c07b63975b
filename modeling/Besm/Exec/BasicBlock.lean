import Besm.Decoder.Decoder
import Mathlib.Logic.Function.Basic

namespace Besm.Exec

/-- A block of decoded instructions. A slot is `none` until its operation is
written for the first time. -/
structure BasicBlock where
  instrs : Nat → Option Instruction
  pc : RV64Ptr

namespace BasicBlock

def kCapacity : Nat := 8

/-- The poisoned block of a fresh cache: no instruction lies at address 1. -/
def create : BasicBlock :=
  ⟨fun i => if i = 0 then some { operation := .invOp } else none, 1⟩

theorem create_instrs {k : Nat} {i : Instruction} (hi : create.instrs k = some i) :
    i = { operation := .invOp } := by
  unfold create at hi
  dsimp only at hi
  split_ifs at hi
  exact (Option.some.inj hi).symm

def setInstr (bb : BasicBlock) (i : Nat) (instr : Instruction) : BasicBlock :=
  { bb with instrs := Function.update bb.instrs i (some instr) }

def setOperation (bb : BasicBlock) (i : Nat) (operation : InstructionOp) : BasicBlock :=
  bb.setInstr i { (bb.instrs i).getD { operation := operation } with operation := operation }

@[simp] theorem setInstr_same (bb : BasicBlock) (i : Nat) (instr : Instruction) :
    (bb.setInstr i instr).instrs i = some instr := by
  simp [setInstr]

theorem setInstr_ne (bb : BasicBlock) {i j : Nat} (instr : Instruction) (h : j ≠ i) :
    (bb.setInstr i instr).instrs j = bb.instrs j := by
  simp [setInstr, h]

theorem setOperation_ne (bb : BasicBlock) {i j : Nat} (operation : InstructionOp) (h : j ≠ i) :
    (bb.setOperation i operation).instrs j = bb.instrs j :=
  setInstr_ne bb _ h

theorem setOperation_same (bb : BasicBlock) (i : Nat) (operation : InstructionOp) :
    ∃ instr, (bb.setOperation i operation).instrs i = some instr ∧
      instr.operation = operation :=
  ⟨_, setInstr_same bb i _, rfl⟩

end BasicBlock

structure BasicBlockCache where
  bbs : Nat → BasicBlock
  lruRowers : Nat → Nat

namespace BasicBlockCache

def kSets : Nat := 128
def kWays : Nat := 8

def kSetMask : RV64Ptr := 127
def kWayMask : Nat := kWays - 1

def create : BasicBlockCache := ⟨fun _ => BasicBlock.create, fun _ => 0⟩

/-- The set of an address: two bits of alignment and three of block capacity
are dropped below it. -/
def hash (pc : RV64Ptr) : Nat := ((pc &&& (kSetMask <<< 5)) >>> 5).toNat

def setPos (pc : RV64Ptr) : Nat := hash pc * kWays

def findWay (c : BasicBlockCache) (pc : RV64Ptr) : Option Nat :=
  (List.range kWays).find? fun i => (c.bbs (setPos pc + i)).pc = pc

/-- Whether the block at `pc` is held, the slot that holds it or is to be
rebuilt for it, and the cache after the replacement index has moved. -/
def lookup (c : BasicBlockCache) (pc : RV64Ptr) : Bool × Nat × BasicBlockCache :=
  match c.findWay pc with
  | some i => (true, setPos pc + i, c)
  | none =>
    let row := c.lruRowers (hash pc)
    (false, row + setPos pc,
      { c with lruRowers := Function.update c.lruRowers (hash pc) ((row + 1) &&& kWayMask) })

def setBB (c : BasicBlockCache) (index : Nat) (bb : BasicBlock) : BasicBlockCache :=
  { c with bbs := Function.update c.bbs index bb }

@[simp] theorem setBB_same (c : BasicBlockCache) (index : Nat) (bb : BasicBlock) :
    (c.setBB index bb).bbs index = bb := by
  simp [setBB]

theorem setBB_ne (c : BasicBlockCache) {index j : Nat} (bb : BasicBlock) (h : j ≠ index) :
    (c.setBB index bb).bbs j = c.bbs j := by
  simp [setBB, h]

theorem lookup_bbs (c : BasicBlockCache) (pc : RV64Ptr) : (c.lookup pc).2.2.bbs = c.bbs := by
  unfold lookup
  split <;> rfl

theorem lookup_hit_pc (c : BasicBlockCache) (pc : RV64Ptr) (h : (c.lookup pc).1 = true) :
    (c.bbs (c.lookup pc).2.1).pc = pc := by
  unfold lookup at h ⊢
  cases hw : c.findWay pc with
  | none => simp [hw] at h
  | some i => simpa using List.find?_some hw

theorem findWay_eq_none {c : BasicBlockCache} {pc : RV64Ptr} (h : c.findWay pc = none) {i : Nat}
    (hi : i < kWays) : (c.bbs (setPos pc + i)).pc ≠ pc := by
  have hall := List.find?_eq_none.mp h i (List.mem_range.mpr hi)
  simpa using hall

theorem findWay_eq_some {c : BasicBlockCache} {pc : RV64Ptr} {i : Nat} :
    c.findWay pc = some i ↔ i < kWays ∧ (c.bbs (setPos pc + i)).pc = pc ∧
      ∀ j < i, (c.bbs (setPos pc + j)).pc ≠ pc := by
  unfold findWay
  rw [List.find?_range_eq_some]
  simp only [List.mem_range, decide_eq_true_eq, Bool.not_eq_true', decide_eq_false_iff_not]
  exact and_left_comm

theorem lookup_lruRowers {c : BasicBlockCache} (h : ∀ set, c.lruRowers set < kWays) (pc : RV64Ptr)
    (set : Nat) : (c.lookup pc).2.2.lruRowers set < kWays := by
  unfold lookup
  cases c.findWay pc with
  | some i => exact h set
  | none =>
    by_cases hs : set = hash pc
    · rw [hs]
      simp only [Function.update_self]
      exact Nat.lt_succ_of_le Nat.and_le_right
    · simpa only [Function.update_of_ne hs] using h set

theorem lookup_again {c : BasicBlockCache} (h : ∀ set, c.lruRowers set < kWays) (pc : RV64Ptr)
    (c' : BasicBlockCache) (hne : ∀ j, j ≠ (c.lookup pc).2.1 → c'.bbs j = c.bbs j)
    (hpc : (c'.bbs (c.lookup pc).2.1).pc = pc) : c'.lookup pc = (true, (c.lookup pc).2.1, c') := by
  obtain ⟨i, hi, hslot, hfirst⟩ : ∃ i < kWays, (c.lookup pc).2.1 = setPos pc + i ∧
      ∀ j < i, (c.bbs (setPos pc + j)).pc ≠ pc := by
    unfold lookup
    cases hw : c.findWay pc with
    | some i =>
      obtain ⟨hi, -, hfirst⟩ := findWay_eq_some.mp hw
      exact ⟨i, hi, rfl, hfirst⟩
    | none =>
      exact ⟨_, h (hash pc), Nat.add_comm _ _,
        fun j hj => findWay_eq_none hw (Nat.lt_trans hj (h _))⟩
  rw [hslot] at hne hpc ⊢
  have hfind : c'.findWay pc = some i := by
    refine findWay_eq_some.mpr ⟨hi, hpc, fun j hj => ?_⟩
    rw [hne _ (by omega)]
    exact hfirst j hj
  unfold lookup
  rw [hfind]

end BasicBlockCache

structure BasicBlockRebuilder where
  bb : BasicBlock
  count : Nat

namespace BasicBlockRebuilder

def create (targetBB : BasicBlock) (pc : RV64Ptr) : BasicBlockRebuilder :=
  ⟨{ targetBB with pc := pc }, 0⟩

/-- Whether more instructions are wanted, and the block with this one. -/
def append (r : BasicBlockRebuilder) (instr : Instruction) : Bool × BasicBlockRebuilder :=
  let bb := r.bb.setInstr r.count instr
  let count := r.count + 1
  if instr.isJump ∨ count = BasicBlock.kCapacity - 1 then
    (false, ⟨bb.setOperation count .bbEnd, count⟩)
  else
    (true, ⟨bb, count⟩)

theorem append_instrs {r : BasicBlockRebuilder} {instr i : Instruction} {k : Nat}
    (hi : (r.append instr).2.bb.instrs k = some i) :
    i = instr ∨ r.bb.instrs k = some i ∨ k = r.count + 1 ∧
      i = { (r.bb.instrs k).getD { operation := .bbEnd } with operation := .bbEnd } := by
  have hset : (r.bb.setInstr r.count instr).instrs k = some i →
      i = instr ∨ r.bb.instrs k = some i := by
    intro hi
    by_cases hk : k = r.count
    · rw [hk, BasicBlock.setInstr_same] at hi
      exact .inl (Option.some.inj hi).symm
    · rw [BasicBlock.setInstr_ne _ _ hk] at hi
      exact .inr hi
  unfold append at hi
  dsimp only at hi
  split_ifs at hi
  · by_cases hk : k = r.count + 1
    · have hold := BasicBlock.setInstr_ne r.bb instr (Nat.succ_ne_self r.count)
      rw [hk, BasicBlock.setOperation, BasicBlock.setInstr_same, hold] at hi
      exact .inr (.inr ⟨hk, hk ▸ (Option.some.inj hi).symm⟩)
    · rw [BasicBlock.setOperation_ne _ _ hk] at hi
      exact (hset hi).imp_right .inl
  · exact (hset hi).imp_right .inl

theorem append_true {r r' : BasicBlockRebuilder} {instr : Instruction}
    (h : r.append instr = (true, r')) : instr.isJump = false ∧
      r.count + 1 ≠ BasicBlock.kCapacity - 1 ∧ r' = ⟨r.bb.setInstr r.count instr, r.count + 1⟩ := by
  unfold append at h
  dsimp only at h
  split_ifs at h with hc
  · cases h
  · rw [not_or] at hc
    exact ⟨by simpa using hc.1, hc.2, (Prod.mk.inj h).2.symm⟩

theorem append_false {r r' : BasicBlockRebuilder} {instr : Instruction}
    (h : r.append instr = (false, r')) :
    (instr.isJump = true ∨ r.count + 1 = BasicBlock.kCapacity - 1) ∧
      r' = ⟨(r.bb.setInstr r.count instr).setOperation (r.count + 1) .bbEnd, r.count + 1⟩ := by
  unfold append at h
  dsimp only at h
  split_ifs at h with hc
  · exact ⟨hc, (Prod.mk.inj h).2.symm⟩
  · cases h

theorem append_pc (r : BasicBlockRebuilder) (instr : Instruction) :
    (r.append instr).2.bb.pc = r.bb.pc := by
  unfold append
  dsimp only
  split_ifs <;> rfl

/-- Decoded words are appended until no more are wanted, which leaves the block. -/
inductive Completes : BasicBlockRebuilder → BasicBlock → Prop
  | last {r r' : BasicBlockRebuilder} {word : RV64UWord}
      (h : r.append (Dec.parse word) = (false, r')) : Completes r r'.bb
  | more {r r' : BasicBlockRebuilder} {word : RV64UWord} {bb : BasicBlock}
      (h : r.append (Dec.parse word) = (true, r')) (hc : Completes r' bb) : Completes r bb

theorem Completes.pc {r : BasicBlockRebuilder} {bb : BasicBlock} (h : r.Completes bb) :
    bb.pc = r.bb.pc := by
  have hpc : ∀ {r r' : BasicBlockRebuilder} {instr : Instruction} {more : Bool},
      r.append instr = (more, r') → r'.bb.pc = r.bb.pc := fun {r r' instr more} h => by
    rw [← append_pc r instr, h]
  induction h with
  | last h => exact hpc h
  | more h _ ih => exact ih.trans (hpc h)

end BasicBlockRebuilder

/-- A block that was rebuilt completely for an address, over whatever the slot held. -/
def BasicBlock.Complete (bb : BasicBlock) (pc : RV64Ptr) : Prop :=
  ∃ old, (BasicBlockRebuilder.create old pc).Completes bb

theorem BasicBlock.Complete.pc {bb : BasicBlock} {pc : RV64Ptr} (h : bb.Complete pc) :
    bb.pc = pc := by
  obtain ⟨old, hc⟩ := h
  exact hc.pc

end Besm.Exec
