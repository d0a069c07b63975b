import Besm.Exec.BasicBlock
import Besm.Lib.Rotation
import Besm.Lib.Transition

namespace Besm.Exec.BasicBlockCache

open Lib.Rotation Lib.Transition

theorem hash_eq (pc : RV64Ptr) : hash pc = pc.toNat / 32 % kSets := by
  have hmask : (pc &&& (kSetMask <<< 5)) >>> 5 = (pc >>> 5) &&& kSetMask := by
    rw [BitVec.ushiftRight_and_distrib]
    rfl
  have hlow : kSetMask.toNat = 2 ^ 7 - 1 := rfl
  rw [hash, hmask, BitVec.toNat_and, BitVec.toNat_ushiftRight, hlow, Nat.and_two_pow_sub_one_eq_mod,
    Nat.shiftRight_eq_div_pow]
  rfl

theorem hash_lt (pc : RV64Ptr) : hash pc < kSets := by
  rw [hash_eq]
  exact Nat.mod_lt _ (by decide)

theorem lookup_hit {c c' : BasicBlockCache} {pc : RV64Ptr} {index : Nat}
    (h : c.lookup pc = (true, index, c')) :
    c' = c ∧ ∃ i < kWays, index = setPos pc + i ∧ (c.bbs index).pc = pc := by
  unfold lookup at h
  cases hw : c.findWay pc with
  | none =>
    rw [hw] at h
    cases h
  | some i =>
    rw [hw] at h
    cases h
    obtain ⟨hi, hpc, -⟩ := findWay_eq_some.mp hw
    exact ⟨rfl, i, hi, rfl, hpc⟩

theorem lookup_miss {c c' : BasicBlockCache} {pc : RV64Ptr} {index : Nat}
    (h : c.lookup pc = (false, index, c')) :
    c' = ⟨c.bbs, Function.update c.lruRowers (hash pc) ((c.lruRowers (hash pc) + 1) % kWays)⟩ ∧
      index = setPos pc + c.lruRowers (hash pc) ∧
      ∀ i < kWays, (c.bbs (setPos pc + i)).pc ≠ pc := by
  have hmask : (c.lruRowers (hash pc) + 1) &&& kWayMask = (c.lruRowers (hash pc) + 1) % kWays :=
    Nat.and_two_pow_sub_one_eq_mod _ 3
  unfold lookup at h
  cases hw : c.findWay pc with
  | none =>
    rw [hw] at h
    cases h
    exact ⟨by rw [hmask], Nat.add_comm _ _, fun i hi => findWay_eq_none hw hi⟩
  | some i =>
    rw [hw] at h
    cases h

theorem lookup_fst_iff {c : BasicBlockCache} {pc : RV64Ptr} :
    (c.lookup pc).1 = true ↔ ∃ i < kWays, (c.bbs (setPos pc + i)).pc = pc := by
  rcases h : c.lookup pc with ⟨_ | _, index, c'⟩
  · obtain ⟨-, -, hno⟩ := lookup_miss h
    exact iff_of_false Bool.false_ne_true fun ⟨i, hi, hpc⟩ => hno i hi hpc
  · obtain ⟨-, i, hi, rfl, hpc⟩ := lookup_hit h
    exact iff_of_true rfl ⟨i, hi, hpc⟩

/-- A fetch: the address, whether its block was held, the slot, and the block
that the slot has after the fetch. -/
structure Fetch where
  pc : RV64Ptr
  hit : Bool
  index : Nat
  bb : BasicBlock

/-- A lookup, and on a miss the complete rebuild of the slot for the address. -/
inductive Fetches : BasicBlockCache → List Fetch → BasicBlockCache → Prop
  | hit {c c' : BasicBlockCache} {pc : RV64Ptr} {index : Nat}
      (h : c.lookup pc = (true, index, c')) : Fetches c [⟨pc, true, index, c'.bbs index⟩] c'
  | miss {c c' : BasicBlockCache} {pc : RV64Ptr} {index : Nat} {bb : BasicBlock}
      (h : c.lookup pc = (false, index, c'))
      (hbb : (BasicBlockRebuilder.create (c'.bbs index) pc).Completes bb) :
      Fetches c [⟨pc, false, index, bb⟩] (c'.setBB index bb)

/-- The fetches at the addresses in turn, each missing block of `jal x0, 0`, and
the cache at their end. -/
def fetchAll (c : BasicBlockCache) : List RV64Ptr → List Fetch × BasicBlockCache
  | [] => ([], c)
  | pc :: pcs =>
    match c.lookup pc with
    | (true, index, c') =>
      let rest := fetchAll c' pcs
      (⟨pc, true, index, c'.bbs index⟩ :: rest.1, rest.2)
    | (false, index, c') =>
      let bb := ((BasicBlockRebuilder.create (c'.bbs index) pc).append (Dec.parse 0x0000006F)).2.bb
      let rest := fetchAll (c'.setBB index bb) pcs
      (⟨pc, false, index, bb⟩ :: rest.1, rest.2)

theorem append_jump (r : BasicBlockRebuilder) {instr : Instruction} (h : instr.isJump = true) :
    r.append instr = (false, (r.append instr).2) := by
  unfold BasicBlockRebuilder.append
  dsimp only
  rw [if_pos (.inl h)]

theorem fetches_fetchAll (c : BasicBlockCache) (pcs : List RV64Ptr) :
    Run Fetches c (c.fetchAll pcs).1 (c.fetchAll pcs).2 := by
  induction pcs generalizing c with
  | nil => exact .refl c
  | cons pc pcs ih =>
    unfold fetchAll
    rcases hl : c.lookup pc with ⟨_ | _, index, c'⟩
    · have hjump : (Dec.parse 0x0000006F).isJump = true := by decide
      exact (Run.single (.miss hl (.last (append_jump _ hjump)))).trans (ih _)
    · exact (Run.single (.hit hl)).trans (ih _)

def lastMiss (pc : RV64Ptr) (ls : List Fetch) : Option Fetch :=
  ls.reverse.find? fun f => !f.hit && decide (f.pc = pc)

/-- The misses in the set of the address after the last one for the address. -/
def missesSince (pc : RV64Ptr) (ls : List Fetch) : Nat :=
  (ls.reverse.takeWhile fun f => f.hit || decide (f.pc ≠ pc)).countP
    fun f => !f.hit && decide (hash f.pc = hash pc)

def rebuilt (set : Nat) (ls : List Fetch) : List (Nat × BasicBlock) :=
  (ls.reverse.filter fun f => !f.hit && decide (hash f.pc = set)).map fun f => (f.index, f.bb)

def slotPC (slot : Nat × BasicBlock) : RV64Ptr := slot.2.pc

theorem rebuilt_hit (set : Nat) (ls : List Fetch) {f : Fetch} (hf : f.hit = true) :
    rebuilt set (ls ++ [f]) = rebuilt set ls := by
  simp [rebuilt, hf]

theorem rebuilt_miss (ls : List Fetch) {f : Fetch} (hf : f.hit = false) :
    rebuilt (hash f.pc) (ls ++ [f]) = (f.index, f.bb) :: rebuilt (hash f.pc) ls := by
  simp [rebuilt, hf]

theorem rebuilt_apart {set : Nat} (ls : List Fetch) {f : Fetch} (hf : hash f.pc ≠ set) :
    rebuilt set (ls ++ [f]) = rebuilt set ls := by
  simp [rebuilt, hf]

section History

variable {pc : RV64Ptr} {ls : List Fetch} (hplaced : ∀ f ∈ ls, f.bb.pc = f.pc)

include hplaced

theorem rebuilt_newest :
    (rebuilt (hash pc) ls).find? (fun slot => slotPC slot = pc) =
      (lastMiss pc ls).map (fun f => (f.index, f.bb)) ∧
    ((rebuilt (hash pc) ls).takeWhile fun slot => slotPC slot ≠ pc).length =
      missesSince pc ls := by
  have hrev : ∀ f ∈ ls.reverse, f.bb.pc = f.pc := fun f hf => hplaced f (List.mem_reverse.mp hf)
  unfold rebuilt lastMiss missesSince
  generalize ls.reverse = l at hrev
  induction l with
  | nil => exact ⟨rfl, rfl⟩
  | cons f l ih =>
    have hpc : slotPC (f.index, f.bb) = f.pc := hrev f (by simp)
    have ih' := ih fun g hg => hrev g (by simp [hg])
    cases hf : f.hit with
    | true => simpa [hf] using ih'
    | false =>
      by_cases he : f.pc = pc
      · simp [hf, he, hpc]
      · by_cases hs : hash f.pc = hash pc
        · simpa [hf, he, hs, hpc] using ih'
        · simpa [hf, he, hs] using ih'

theorem rebuilt_exists : (∃ slot ∈ rebuilt (hash pc) ls, slotPC slot = pc) ↔
    ∃ f ∈ ls, f.hit = false ∧ f.pc = pc := by
  unfold rebuilt
  constructor
  · rintro ⟨slot, hslot, hpc⟩
    obtain ⟨f, hf, rfl⟩ := List.mem_map.mp hslot
    obtain ⟨hmem, hmiss⟩ := List.mem_filter.mp hf
    have hmem' := List.mem_reverse.mp hmem
    simp only [Bool.and_eq_true, Bool.not_eq_true'] at hmiss
    exact ⟨f, hmem', hmiss.1, (hplaced f hmem').symm.trans hpc⟩
  · rintro ⟨f, hf, hmiss, rfl⟩
    refine ⟨(f.index, f.bb), List.mem_map.mpr ⟨f, List.mem_filter.mpr ⟨by simpa using hf, ?_⟩, rfl⟩,
      hplaced f hf⟩
    simp [hmiss]

end History

/-- The slots of every set were rebuilt in turns, each for an address that no
other slot of its set had then. -/
structure Tracks (ls : List Fetch) (c : BasicBlockCache) : Prop where
  ring : ∀ set, Rotates kWays (fun i => (set * kWays + i, BasicBlock.create))
    (fun i => (set * kWays + i, c.bbs (set * kWays + i))) (c.lruRowers set) (rebuilt set ls)
  distinct : ∀ set, Distinct kWays slotPC (rebuilt set ls)
  complete : ∀ f ∈ ls, f.bb.Complete f.pc
  inserted : ∀ f ∈ ls, ∃ g ∈ ls, g.hit = false ∧ g.pc = f.pc

section Tracks

variable {c c' : BasicBlockCache} {ls : List Fetch} {pc : RV64Ptr}

theorem tracks_create : Tracks [] create where
  ring _ := .nil _ _
  distinct _ := List.nodup_nil
  complete _ hf := absurd hf List.not_mem_nil
  inserted _ hf := absurd hf List.not_mem_nil

theorem Tracks.placed (h : Tracks ls c) : ∀ f ∈ ls, f.bb.pc = f.pc := fun f hf => (h.complete f hf).pc

theorem Tracks.row_lt (h : Tracks ls c) (set : Nat) : c.lruRowers set < kWays := by
  rw [(h.ring set).row]
  exact Nat.mod_lt _ (by decide)

theorem unfilled_pc (hpc : pc ≠ 1) (set i : Nat) :
    slotPC (set * kWays + i, BasicBlock.create) ≠ pc := fun he => hpc he.symm

theorem Tracks.held_iff (h : Tracks ls c) (hpc : pc ≠ 1) :
    (c.lookup pc).1 = true ↔ ∃ slot ∈ (rebuilt (hash pc) ls).take kWays, slotPC slot = pc := by
  rw [lookup_fst_iff, ← (h.ring (hash pc)).exists_iff (p := fun slot => slotPC slot = pc)
    (unfilled_pc hpc _)]
  rfl

/-- A hit is on the slot that the most recent miss rebuilt for the address. -/
theorem Tracks.hit_slot (h : Tracks ls c) (hpc : pc ≠ 1) (hl : (c.lookup pc).1 = true) :
    ∃ f ∈ ls, lastMiss pc ls = some f ∧ f.hit = false ∧ f.pc = pc ∧
      f.index = (c.lookup pc).2.1 ∧ f.bb = c.bbs (c.lookup pc).2.1 := by
  rcases hlook : c.lookup pc with ⟨_ | _, index, c'⟩
  · rw [hlook] at hl
    cases hl
  · obtain ⟨-, i, hi, rfl, hat⟩ := lookup_hit hlook
    have hfind := (h.ring (hash pc)).find_slot (h.distinct (hash pc)) (unfilled_pc hpc _) hi hat
    rw [(rebuilt_newest h.placed).1] at hfind
    obtain ⟨f, hf, hslot⟩ := Option.map_eq_some_iff.mp hfind
    obtain ⟨hindex, hbb⟩ := Prod.mk.inj hslot
    have hfpc := List.find?_some hf
    simp only [Bool.and_eq_true, Bool.not_eq_true', decide_eq_true_eq] at hfpc
    exact ⟨f, List.mem_reverse.mp (List.mem_of_find?_eq_some hf), hf, hfpc.1, hfpc.2, hindex, hbb⟩

theorem Tracks.hit (h : Tracks ls c) (hpc : pc ≠ 1) {index : Nat}
    (hl : c.lookup pc = (true, index, c')) : Tracks (ls ++ [⟨pc, true, index, c'.bbs index⟩]) c' := by
  obtain ⟨rfl, -⟩ := lookup_hit hl
  obtain ⟨g, hg, -, hmiss, hgpc, -, hbb⟩ := h.hit_slot hpc (congrArg Prod.fst hl)
  rw [hl] at hbb
  refine ⟨fun set => ?_, fun set => ?_, ?_, ?_⟩
  · rw [rebuilt_hit set ls rfl]
    exact h.ring set
  · rw [rebuilt_hit set ls rfl]
    exact h.distinct set
  · rw [List.forall_mem_append, List.forall_mem_singleton]
    exact ⟨h.complete, hbb ▸ hgpc ▸ h.complete g hg⟩
  · intro f hf
    obtain hf | hf := List.mem_append.mp hf
    · obtain ⟨g, hg, hfg⟩ := h.inserted f hf
      exact ⟨g, List.mem_append_left _ hg, hfg⟩
    · obtain rfl := List.mem_singleton.mp hf
      exact ⟨g, List.mem_append_left _ hg, hmiss, hgpc⟩

theorem slots_update (bbs : Nat → BasicBlock) (set row : Nat) (bb : BasicBlock) :
    (fun i => (set * kWays + i, Function.update bbs (set * kWays + row) bb (set * kWays + i))) =
      Function.update (fun i => (set * kWays + i, bbs (set * kWays + i))) row
        (set * kWays + row, bb) := by
  funext i
  by_cases hi : i = row
  · rw [hi, Function.update_self, Function.update_self]
  · rw [Function.update_of_ne hi, Function.update_of_ne (by omega)]

theorem slots_apart {set set' row i : Nat} (hs : set ≠ set') (hrow : row < kWays) (hi : i < kWays) :
    set' * kWays + i ≠ set * kWays + row := by
  unfold kWays at *
  omega

theorem Tracks.ring_miss (h : Tracks ls c) (pc : RV64Ptr) (bb : BasicBlock) (set : Nat) :
    Rotates kWays (fun i => (set * kWays + i, BasicBlock.create))
      (fun i => (set * kWays + i,
        Function.update c.bbs (setPos pc + c.lruRowers (hash pc)) bb (set * kWays + i)))
      (Function.update c.lruRowers (hash pc) ((c.lruRowers (hash pc) + 1) % kWays) set)
      (rebuilt set (ls ++ [⟨pc, false, setPos pc + c.lruRowers (hash pc), bb⟩])) := by
  by_cases hs : hash pc = set
  · subst hs
    rw [rebuilt_miss ls (f := ⟨pc, false, setPos pc + c.lruRowers (hash pc), bb⟩) rfl,
      Function.update_self, setPos, slots_update]
    exact (h.ring (hash pc)).push _
  · rw [rebuilt_apart ls (f := ⟨pc, false, setPos pc + c.lruRowers (hash pc), bb⟩) hs,
      Function.update_of_ne (Ne.symm hs)]
    refine (h.ring set).congr fun i hi => ?_
    rw [setPos, Function.update_of_ne (slots_apart hs (h.row_lt _) hi)]

theorem Tracks.distinct_miss (h : Tracks ls c) (hpc : pc ≠ 1)
    (hno : ∀ i < kWays, (c.bbs (setPos pc + i)).pc ≠ pc) {f : Fetch} (hf : f.hit = false)
    (hat : f.pc = pc) (hbb : f.bb.pc = pc) (set : Nat) :
    Distinct kWays slotPC (rebuilt set (ls ++ [f])) := by
  by_cases hs : hash f.pc = set
  · subst hs
    rw [rebuilt_miss ls hf, hat]
    refine (h.distinct (hash pc)).push (by decide) fun slot hslot hx => ?_
    have hheld := (h.held_iff hpc).mpr ⟨slot, hslot, hx.trans hbb⟩
    obtain ⟨i, hi, hat⟩ := lookup_fst_iff.mp hheld
    exact hno i hi hat
  · rw [rebuilt_apart ls hs]
    exact h.distinct set

theorem Tracks.miss (h : Tracks ls c) (hpc : pc ≠ 1) {index : Nat} {bb : BasicBlock}
    (hl : c.lookup pc = (false, index, c'))
    (hbb : (BasicBlockRebuilder.create (c'.bbs index) pc).Completes bb) :
    Tracks (ls ++ [⟨pc, false, index, bb⟩]) (c'.setBB index bb) := by
  obtain ⟨rfl, rfl, hno⟩ := lookup_miss hl
  refine ⟨h.ring_miss pc bb, h.distinct_miss hpc hno rfl rfl hbb.pc, ?_, fun f hf => ?_⟩
  · rw [List.forall_mem_append, List.forall_mem_singleton]
    exact ⟨h.complete, _, hbb⟩
  · obtain hf | hf := List.mem_append.mp hf
    · obtain ⟨g, hg, hfg⟩ := h.inserted f hf
      exact ⟨g, List.mem_append_left _ hg, hfg⟩
    · obtain rfl := List.mem_singleton.mp hf
      exact ⟨_, List.mem_append_right _ (List.mem_singleton.mpr rfl), rfl, rfl⟩

theorem tracks_run (hrun : Run Fetches create ls c) (hpcs : ∀ f ∈ ls, f.pc ≠ 1) : Tracks ls c := by
  refine hrun.history (I := Tracks) (C := fun f => f.pc ≠ 1) ?_ hpcs tracks_create
  intro pre s ls t h hpc hstep
  cases hstep with
  | hit hl => exact h.hit (hpc _ (List.mem_singleton.mpr rfl)) hl
  | miss hl hbb => exact h.miss (hpc _ (List.mem_singleton.mpr rfl)) hl hbb

theorem Tracks.slot_unique (h : Tracks ls c) (hpc : pc ≠ 1) {i j : Nat} (hi : (c.bbs i).pc = pc)
    (hj : (c.bbs j).pc = pc) : i = j ∧ i / kWays = hash pc := by
  have hset : ∀ i, (c.bbs i).pc = pc → i / kWays = hash pc := by
    intro i hi
    have hlt := Nat.mod_lt i (by decide : kWays > 0)
    have hback : i / kWays * kWays + i % kWays = i := Nat.div_add_mod' i kWays
    have hheld := ((h.ring (i / kWays)).exists_iff (p := fun slot => slotPC slot = pc)
      (unfilled_pc hpc _)).mp ⟨i % kWays, hlt, by rw [hback]; exact hi⟩
    obtain ⟨slot, hslot, hx⟩ := hheld
    obtain ⟨f, hf, rfl⟩ := List.mem_map.mp (List.mem_of_mem_take hslot)
    obtain ⟨hmem, hmiss⟩ := List.mem_filter.mp hf
    simp only [Bool.and_eq_true, Bool.not_eq_true', decide_eq_true_eq] at hmiss
    rw [← hmiss.2, ← h.placed f (List.mem_reverse.mp hmem)]
    exact congrArg hash hx
  refine ⟨?_, hset i hi⟩
  have hback : ∀ i, (c.bbs i).pc = pc → hash pc * kWays + i % kWays = i := by
    intro i hi
    rw [← hset i hi]
    exact Nat.div_add_mod' i kWays
  have hslot := (h.ring (hash pc)).slot_unique (h.distinct (hash pc)) (unfilled_pc hpc _)
    (Nat.mod_lt i (by decide)) (Nat.mod_lt j (by decide)) (by rw [hback i hi]; exact hi)
    (by rw [hback j hj]; exact hj)
  rw [← hback i hi, ← hback j hj, hslot]

theorem Tracks.hit_iff (h : Tracks ls c) (hpc : pc ≠ 1) : (c.lookup pc).1 = true ↔
    (∃ f ∈ ls, f.pc = pc) ∧ missesSince pc ls < kWays := by
  rw [h.held_iff hpc, exists_take_iff, rebuilt_exists h.placed, (rebuilt_newest h.placed).2]
  refine and_congr_left fun _ => ?_
  constructor
  · rintro ⟨f, hf, -, hat⟩
    exact ⟨f, hf, hat⟩
  · rintro ⟨f, hf, rfl⟩
    exact h.inserted f hf

structure Retains (ls : List Fetch) (c : BasicBlockCache) : Prop where
  unique : ∀ pc, pc.toNat % 2 = 0 → ∀ i j, (c.bbs i).pc = pc → (c.bbs j).pc = pc → i = j
  set : ∀ pc, pc.toNat % 2 = 0 → ∀ i, (c.bbs i).pc = pc → i / kWays = (pc >>> 5).toNat % 128
  rows : ∀ set, c.lruRowers set < 8
  hit : ∀ pc, pc.toNat % 2 = 0 → (c.lookup pc).1 = true →
    ∃ f, lastMiss pc ls = some f ∧ f.pc = pc ∧ f.index = (c.lookup pc).2.1 ∧
      f.bb = c.bbs (c.lookup pc).2.1 ∧ f.bb.pc = pc ∧ f.bb.Complete pc ∧
      pc ≠ BasicBlock.create.pc
  retained : ∀ pc, pc.toNat % 2 = 0 →
    ((c.lookup pc).1 = true ↔ (∃ f ∈ ls, f.pc = pc) ∧ missesSince pc ls < 8)

theorem ne_poison (h : pc.toNat % 2 = 0) : pc ≠ 1 := by
  rintro rfl
  cases h

theorem retains_run (hrun : Run Fetches create ls c) (heven : ∀ f ∈ ls, f.pc.toNat % 2 = 0) :
    Retains ls c := by
  have h := tracks_run hrun fun f hf => ne_poison (heven f hf)
  refine ⟨fun pc hpc i j hi hj => (h.slot_unique (ne_poison hpc) hi hj).1, fun pc hpc i hi => ?_,
    h.row_lt, fun pc hpc hl => ?_, fun pc hpc => h.hit_iff (ne_poison hpc)⟩
  · rw [(h.slot_unique (ne_poison hpc) hi hi).2, hash_eq, BitVec.toNat_ushiftRight,
      Nat.shiftRight_eq_div_pow]
    rfl
  · obtain ⟨f, hmem, hf, -, hat, hindex, hbb⟩ := h.hit_slot (ne_poison hpc) hl
    have hcomplete : f.bb.Complete pc := hat ▸ h.complete f hmem
    exact ⟨f, hf, hat, hindex, hbb, hcomplete.pc, hcomplete, ne_poison hpc⟩

end Tracks

end Besm.Exec.BasicBlockCache
