import Besm.Sim.Machine
import Besm.Sim.Programs
import Mathlib.Data.BitVec
import Mathlib.Tactic.Ring

namespace Besm.E2eTest

open Besm.Exec Besm.Mem Besm.Sim Besm.Util Besm.Lib.Transition Besm.Lib.Hoare

/-- The routine that multiplies a1 and a2 into a0. -/
def mul : List RV64UWord :=
  [0x00000533, -- add a0, zero, zero
   0x00167293, -- andi t0, a2, 0x1
   0x00028463, -- beqz t0, .mul_next
   0x00b50533, -- add a0, a0, a1
   0x00165613, -- srli a2, a2, 0x1
   0x00159593, -- slli a1, a1, 0x1
   0xfe0616e3, -- bnez a2, .mul_loop
   0x00008067] -- jalr zero, ra, 0

/-- The control is at a word of the routine, the four registers that it uses are
as given, and the others as they were. -/
structure MulRegs (base : RV64Ptr) (g₀ : GPRF) (k : Nat) (t0 a0 a1 a2 : RV64UDWord) (g : GPRF) :
    Prop where
  pc : g.read GPRF.pc = base + BitVec.ofNat 64 (4 * k)
  t0 : g.read 5 = t0
  a0 : g.read 10 = a0
  a1 : g.read 11 = a1
  a2 : g.read 12 = a2
  rest : ∀ r < 32, r ≠ 5 → r ≠ 10 → r ≠ 11 → r ≠ 12 → g.read r = g₀.read r

def MulNegative (base : RV64Ptr) (g₀ : GPRF) (k : Nat) (g : GPRF) : Prop :=
  ∃ t a x y, MulRegs base g₀ k t a x y g ∧ y.msb = true

/-- The routine has come back: the control is where it was called from, a0 is
the product, and the registers that it does not use are as they were. -/
structure MulReturned (g₀ g : GPRF) : Prop where
  pc : g.read GPRF.pc = g₀.read 1 &&& ~~~1
  a0 : g.read 10 = g₀.read 11 * g₀.read 12
  rest : ∀ r < 32, r ≠ 5 → r ≠ 10 → r ≠ 11 → r ≠ 12 → g.read r = g₀.read r

theorem toNat_half {y : RV64UDWord} (h : y.msb = false) :
    (y.sshiftRight' (1#64)).toNat = y.toNat / 2 := by
  rw [BitVec.sshiftRight', BitVec.sshiftRight_eq_of_msb_false h, BitVec.toNat_ushiftRight]
  rfl

/-- A round of the loop keeps the sum of what is added up and what is left to multiply. -/
theorem mul_bits (a x y : RV64UDWord) (h : y.msb = false) :
    (if y &&& 1 = 0 then a else a + x) + (x <<< (1#64)) * y.sshiftRight' (1#64) = a + x * y := by
  have hbit : (y &&& 1).toNat = y.toNat % 2 := by
    rw [BitVec.toNat_and]
    exact Nat.and_one_is_mod _
  have hsplit : y = (y &&& 1) + 2 * y.sshiftRight' (1#64) := by
    refine BitVec.eq_of_toNat_eq ?_
    have hlt := y.isLt
    rw [BitVec.toNat_add, BitVec.toNat_mul, toNat_half h, hbit, show (2 : RV64UDWord).toNat = 2 from rfl,
      Nat.mod_eq_of_lt (a := 2 * _) (by omega), Nat.mod_eq_of_lt (by omega)]
    omega
  have hdouble : x <<< (1#64) = 2 * x := by
    refine BitVec.eq_of_toNat_eq ?_
    rw [BitVec.toNat_mul]
    exact (BitVec.toNat_shiftLeft ..).trans
      (congrArg (· % 2 ^ 64) ((Nat.shiftLeft_eq _ _).trans (Nat.mul_comm _ _)))
  rw [hdouble]
  generalize y.sshiftRight' (1#64) = q at hsplit
  split_ifs with h0
  · rw [h0] at hsplit
    rw [hsplit]
    ring
  · have h1 : y &&& 1 = 1 := by
      refine BitVec.eq_of_toNat_eq ?_
      have hne : (y &&& 1).toNat ≠ 0 := fun h => h0 (BitVec.eq_of_toNat_eq h)
      change (y &&& 1).toNat = 1
      omega
    rw [h1] at hsplit
    rw [hsplit]
    ring

theorem MulRegs.retire {base : RV64Ptr} {g₀ g : GPRF} {k : Nat} {t a x y : RV64UDWord}
    (hg : MulRegs base g₀ k t a x y g) {rd : Register} (hrd : rd ∈ [5, 10, 11, 12])
    (v : RV64UDWord) :
    MulRegs base g₀ (k + 1) (if rd = 5 then v else t) (if rd = 10 then v else a)
      (if rd = 11 then v else x) (if rd = 12 then v else y) (g.retire rd v) := by
  have hlt : rd < 32 := by
    revert rd
    decide
  have hread : ∀ r < 32, r ≠ 0 → (g.retire rd v).read r = if rd = r then v else g.read r := by
    intro r hr h0
    rw [GPRF.read_retire _ _ (by rintro rfl; exact absurd hr (by decide)),
      if_neg (show r ≠ GPRF.x0 from h0)]
    simp only [eq_comm]
  refine ⟨?_, ?_, ?_, ?_, ?_, fun r hr h5 h10 h11 h12 => ?_⟩
  · rw [GPRF.read_pc_retire _ _ hlt, hg.pc]
    exact address_add base k 1
  · rw [hread 5 (by decide) (by decide), hg.t0]
  · rw [hread 10 (by decide) (by decide), hg.a0]
  · rw [hread 11 (by decide) (by decide), hg.a1]
  · rw [hread 12 (by decide) (by decide), hg.a2]
  · by_cases h0 : r = 0
    · rw [h0]
      rfl
    · have hne : rd ≠ r := by
        rintro rfl
        simp_all
      rw [hread r hr h0, if_neg hne]
      exact hg.rest r hr h5 h10 h11 h12

variable {M : Type} [Memory M] [LawfulMemory M]
  {contents : (w : Width) → RV64Ptr → Except MemError (BitVec (8 * w.size))}
  {base : RV64Ptr} {C : Set RV64Ptr} {c : CSRF} {g₀ : GPRF} {k : Nat} {t a x y : RV64UDWord}

section Words

variable (hp : Placed contents base mul) (hC : codeAt base mul ⊆ C)
include hp hC

omit [Memory M] [LawfulMemory M] in
theorem inCode_mul (hk : k < mul.length) : InCode C contents (base + BitVec.ofNat 64 (4 * k)) :=
  inCode_of_placed hp hC ⟨_, rfl, by decide +kernel⟩ hk

theorem computes_mul {word : RV64UWord} {f : GPRF → GPRF} {Q : GPRF → Prop}
    (hword : mul[k]? = some word) (hstore : storeWidth (Dec.parse word).operation = none)
    (heffect : ∀ s : Arch M, effect (Dec.parse word) s = .next { s with gprf := f s.gprf })
    (hQ : ∀ g, MulRegs base g₀ k t a x y g → Q (f g)) :
    Computes M C c contents (MulRegs base g₀ k t a x y) Q :=
  computes_word (inCode_mul hp hC (List.getElem?_eq_some_iff.mp hword).1) (hp k word hword) hstore
    heffect fun g hg => ⟨hg.pc, hQ g hg⟩

theorem mul_retire (rd : Register) (v : GPRF → RV64UDWord) {word : RV64UWord} {w : RV64UDWord}
    (hword : mul[k]? = some word) (hrd : rd ∈ [5, 10, 11, 12])
    (hstore : storeWidth (Dec.parse word).operation = none)
    (heffect : ∀ s : Arch M,
      effect (Dec.parse word) s = .next { s with gprf := s.gprf.retire rd (v s.gprf) })
    (hv : ∀ g, MulRegs base g₀ k t a x y g → v g = w) :
    Computes M C c contents (MulRegs base g₀ k t a x y) (MulRegs base g₀ (k + 1)
      (if rd = 5 then w else t) (if rd = 10 then w else a) (if rd = 11 then w else x)
      (if rd = 12 then w else y)) := by
  refine computes_mul hp hC hword hstore (f := fun g => g.retire rd (v g)) heffect fun g hg => ?_
  rw [hv g hg]
  exact hg.retire hrd w

theorem mul_branch {word : RV64UWord} (taken : GPRF → Bool) {b : Bool} {j : Nat}
    (hword : mul[k]? = some word) (hstore : storeWidth (Dec.parse word).operation = none)
    (heffect : ∀ s : Arch M,
      effect (Dec.parse word) s = s.branch (Dec.parse word) (taken s.gprf))
    (htaken : ∀ g, MulRegs base g₀ k t a x y g → taken g = b)
    (hj : BitVec.ofNat 64 (4 * k) + (if b then signExtend 12 (Dec.parse word).immidiate else 4) =
      BitVec.ofNat 64 (4 * j)) :
    Computes M C c contents (MulRegs base g₀ k t a x y) (MulRegs base g₀ j t a x y) := by
  refine computes_mul hp hC hword hstore (fun s => (heffect s).trans (s.branch_eq _ _))
    (f := fun g => g.branch (Dec.parse word) (taken g)) fun g hg => ?_
  have hne : ∀ r < 32, (g.branch (Dec.parse word) (taken g)).read r = g.read r :=
    fun r hr => GPRF.read_write_of_ne _ _ fun h => absurd (h ▸ hr) (by decide)
  refine ⟨?_, ?_, ?_, ?_, ?_, fun r hr h5 h10 h11 h12 => ?_⟩
  · rw [GPRF.branch, GPRF.read_pc_write_pc, hg.pc, htaken g hg, BitVec.add_assoc, hj]
  · rw [hne 5 (by decide), hg.t0]
  · rw [hne 10 (by decide), hg.a0]
  · rw [hne 11 (by decide), hg.a1]
  · rw [hne 12 (by decide), hg.a2]
  · rw [hne r hr, hg.rest r hr h5 h10 h11 h12]

theorem mul_bit : Computes M C c contents (MulRegs base g₀ 1 t a x y)
    (MulRegs base g₀ 4 (y &&& 1) (if y &&& 1 = 0 then a else a + x) x y) := by
  have hand : Computes M C c contents (MulRegs base g₀ 1 t a x y)
      (MulRegs base g₀ 2 (y &&& 1) a x y) :=
    mul_retire hp hC 5 (fun g => g.read 12 &&& 1) rfl (by decide) rfl (fun _ => rfl)
      fun g hg => by rw [hg.a2]
  have hbeqz : Computes M C c contents (MulRegs base g₀ 2 (y &&& 1) a x y)
      (MulRegs base g₀ (if y &&& 1 = 0 then 4 else 3) (y &&& 1) a x y) := by
    refine mul_branch hp hC (fun g => g.read 5 = g.read 0) (b := decide (y &&& 1 = 0)) rfl rfl
      (fun _ => rfl) (fun g hg => ?_) ?_
    · rw [hg.t0]
      rfl
    · by_cases h : y &&& 1 = 0
      · rw [decide_eq_true h, if_pos h]
        decide +kernel
      · rw [decide_eq_false h, if_neg h]
        decide +kernel
  have hadd : Computes M C c contents (MulRegs base g₀ 3 (y &&& 1) a x y)
      (MulRegs base g₀ 4 (y &&& 1) (a + x) x y) :=
    mul_retire hp hC 10 (fun g => g.read 10 + g.read 11) rfl (by decide) rfl (fun _ => rfl)
      fun g hg => by rw [hg.a0, hg.a1]
  refine Leads.seq hand ?_
  by_cases h : y &&& 1 = 0
  · rw [if_pos h] at hbeqz ⊢
    exact hbeqz
  · rw [if_neg h] at hbeqz ⊢
    exact Leads.seq hbeqz hadd

/-- The rest of the round, at the end of which the loop is left or entered again.
The word for `srli` is carried out as an arithmetic shift. -/
theorem mul_shift : Computes M C c contents (MulRegs base g₀ 4 t a x y)
    (MulRegs base g₀ (if y.sshiftRight' (1#64) = 0 then 7 else 1) t a (x <<< (1#64))
      (y.sshiftRight' (1#64))) := by
  have hsrli : Computes M C c contents (MulRegs base g₀ 4 t a x y)
      (MulRegs base g₀ 5 t a x (y.sshiftRight' (1#64))) :=
    mul_retire hp hC 12 (fun g => (g.read 12).sshiftRight' (1#64)) rfl (by decide) rfl (fun _ => rfl)
      fun g hg => congrArg (BitVec.sshiftRight' · (1#64)) hg.a2
  have hslli : ∀ y', Computes M C c contents (MulRegs base g₀ 5 t a x y')
      (MulRegs base g₀ 6 t a (x <<< (1#64)) y') := fun y' =>
    mul_retire hp hC 11 (fun g => g.read 11 <<< (1#64)) rfl (by decide) rfl (fun _ => rfl)
      fun g hg => by rw [hg.a1]
  have hbnez : ∀ x' y', Computes M C c contents (MulRegs base g₀ 6 t a x' y')
      (MulRegs base g₀ (if y' = 0 then 7 else 1) t a x' y') := by
    intro x' y'
    refine mul_branch hp hC (fun g => g.read 12 ≠ g.read 0) (b := decide (y' ≠ 0)) rfl rfl
      (fun _ => rfl) (fun g hg => ?_) ?_
    · rw [hg.a2]
      rfl
    · by_cases h : y' = 0
      · rw [decide_eq_false (not_not.mpr h), if_pos h]
        decide +kernel
      · rw [decide_eq_true h, if_neg h]
        decide +kernel
  exact Leads.seq hsrli (Leads.seq (hslli _) (hbnez _ _))

theorem mul_loop {p : RV64UDWord} : Computes M C c contents
    (fun g => ∃ t a x y, MulRegs base g₀ 1 t a x y g ∧ a + x * y = p ∧ y.msb = false)
    (fun g => ∃ t x y, MulRegs base g₀ 7 t p x y g) := by
  refine Computes.loop (fun g => (g.read 12).toNat) fun n => ?_
  rintro s ⟨hcsrf, hmem, ⟨t, a, x, y, hg, hp', hmsb⟩, hn⟩
  obtain ⟨ls, s', hrun, hcsrf', hmem', hg'⟩ :=
    Leads.seq (mul_bit hp hC) (mul_shift hp hC) s ⟨hcsrf, hmem, hg⟩
  refine ⟨ls, s', hrun, hcsrf', hmem', ?_⟩
  have hhalf : (y.sshiftRight' (1#64)).toNat = y.toNat / 2 := toNat_half hmsb
  have hsum := (mul_bits a x y hmsb).trans hp'
  by_cases h0 : y.sshiftRight' (1#64) = 0
  · rw [if_pos h0] at hg'
    rw [h0, mul_zero, add_zero] at hsum
    exact .inl ⟨_, _, _, hsum ▸ hg'⟩
  · rw [if_neg h0] at hg'
    refine .inr ⟨⟨_, _, _, _, hg', hsum, BitVec.msb_sshiftRight.trans hmsb⟩, ?_⟩
    have hne : (y.sshiftRight' (1#64)).toNat ≠ 0 := fun h => h0 (BitVec.eq_of_toNat_eq h)
    rw [hg.a2] at hn
    rw [hg'.a2]
    omega

theorem mul_enters (hpc : g₀.read GPRF.pc = base) : Computes M C c contents (fun g => g = g₀)
    (MulRegs base g₀ 1 (g₀.read 5) 0 (g₀.read 11) (g₀.read 12)) := by
  have hadd : Computes M C c contents
      (MulRegs base g₀ 0 (g₀.read 5) (g₀.read 10) (g₀.read 11) (g₀.read 12))
      (MulRegs base g₀ 1 (g₀.read 5) 0 (g₀.read 11) (g₀.read 12)) :=
    mul_retire hp hC 10 (fun g => g.read 0 + g.read 0) rfl (by decide) rfl (fun _ => rfl) fun _ _ => rfl
  refine Leads.seq (Leads.of_imp fun s hs => ⟨hs.csrf, hs.mem, ?_⟩) hadd
  rw [hs.gprf]
  exact ⟨hpc.trans (BitVec.add_zero base).symm, rfl, rfl, rfl, rfl, fun _ _ _ _ _ _ => rfl⟩

theorem mul_leaves : Computes M C c contents (MulRegs base g₀ 7 t (g₀.read 11 * g₀.read 12) x y)
    (MulReturned g₀) := by
  refine computes_mul hp hC rfl rfl (fun _ => rfl) (f := fun g =>
    (g.write 0 (g.read GPRF.pc + 4)).write GPRF.pc ((g.read 1 + 0) &&& ~~~1)) fun g hg => ?_
  have hread : ∀ r < 32, ((g.write 0 (g.read GPRF.pc + 4)).write GPRF.pc
      ((g.read 1 + 0) &&& ~~~1)).read r = g.read r := by
    intro r hr
    rw [GPRF.read_write_of_ne _ _ fun h => absurd (h ▸ hr) (by decide), GPRF.read_write]
    by_cases h0 : r = 0
    · rw [h0]
      rfl
    · rw [if_neg (show r ≠ GPRF.x0 from h0), if_neg h0]
  have hra : g.read 1 = g₀.read 1 :=
    hg.rest 1 (by decide) (by decide) (by decide) (by decide) (by decide)
  refine ⟨?_, (hread 10 (by decide)).trans hg.a0, fun r hr h5 h10 h11 h12 => ?_⟩
  · rw [GPRF.read_pc_write_pc, hra, add_zero]
  · rw [hread r hr, hg.rest r hr h5 h10 h11 h12]

theorem mul_computes (hpc : g₀.read GPRF.pc = base) (hmsb : (g₀.read 12).msb = false) :
    Computes M C c contents (fun g => g = g₀) (MulReturned g₀) := by
  have hloop : Computes M C c contents
      (MulRegs base g₀ 1 (g₀.read 5) 0 (g₀.read 11) (g₀.read 12)) (MulReturned g₀) := by
    refine Leads.consequence (P := Holding c contents fun g => ∃ t a x y,
      MulRegs base g₀ 1 t a x y g ∧ a + x * y = g₀.read 11 * g₀.read 12 ∧ y.msb = false)
      (Leads.seq (mul_loop hp hC) ?_) (fun s hs => ⟨hs.csrf, hs.mem, ?_⟩) fun _ hs => hs
    · rintro s ⟨hcsrf, hmem, t, x, y, hg⟩
      exact mul_leaves hp hC s ⟨hcsrf, hmem, hg⟩
    · exact ⟨_, _, _, _, hs.gprf, zero_add _, hmsb⟩
  exact Leads.seq (mul_enters hp hC hpc) hloop

theorem mul_forever (hpc : g₀.read GPRF.pc = base) (hmsb : (g₀.read 12).msb = true) (n : Nat)
    {s : Arch M} (hs : Holding c contents (fun g => g = g₀) s) :
    ∃ ls s', n ≤ ls.length ∧ Run (Interpreter.Computing C contents) s ls s' := by
  have hbit : Computes M C c contents (MulNegative base g₀ 1) (MulNegative base g₀ 4) := by
    rintro s ⟨hcsrf, hmem, t, a, x, y, hg, hy⟩
    obtain ⟨ls, s', hrun, hcsrf', hmem', hg'⟩ := mul_bit hp hC s ⟨hcsrf, hmem, hg⟩
    exact ⟨ls, s', hrun, hcsrf', hmem', _, _, _, _, hg', hy⟩
  have hshift : Computes M C c contents (MulNegative base g₀ 4) (MulNegative base g₀ 1) := by
    rintro s ⟨hcsrf, hmem, t, a, x, y, hg, hy⟩
    obtain ⟨ls, s', hrun, hcsrf', hmem', hg'⟩ := mul_shift hp hC s ⟨hcsrf, hmem, hg⟩
    have hy' : (y.sshiftRight' (1#64)).msb = true := BitVec.msb_sshiftRight.trans hy
    have hne : y.sshiftRight' (1#64) ≠ 0 := by
      intro h0
      rw [h0] at hy'
      exact absurd hy' (by decide)
    rw [if_neg hne] at hg'
    exact ⟨ls, s', hrun, hcsrf', hmem', _, _, _, _, hg', hy'⟩
  have hdisjoint : ∀ s : Arch M, Holding c contents (MulNegative base g₀ 1) s →
      ¬Holding c contents (MulNegative base g₀ 4) s := by
    rintro s ⟨-, -, t, a, x, y, hg, -⟩ ⟨-, -, t', a', x', y', hg', -⟩
    exact absurd (add_left_cancel (hg.pc.symm.trans hg'.pc)) (by decide)
  obtain ⟨ls, s₁, hrun, hcsrf, hmem, hg⟩ := mul_enters hp hC hpc s hs
  obtain ⟨ls', s', hn, hrun', -⟩ := Leads.forever Interpreter.computing_labels hbit hshift
    hdisjoint n ⟨hcsrf, hmem, _, _, _, _, hg, hmsb⟩
  refine ⟨ls ++ ls', s', ?_, hrun.trans hrun'⟩
  rw [List.length_append]
  omega

end Words

/-- A program that calls the routine on a machine gets the product back, with the
rest of its state as it was, exactly if the multiplier is not negative: for `srli`
is decoded as `srai`, and a negative one stays so. -/
theorem machine_mul {config : Config} {host : Host} (hs : config.Sound host)
    {load : String → Option Elfio} {reader : Elfio} (hr : config.Runnable load reader)
    (garbage : Register → RV64UDWord) (hC : C ⊆ instrAddresses)
    (hstart : InCode C (Memory.contents (config.image reader)) 0)
    (hp : Placed (Memory.contents (config.image reader)) base mul) (hmul : codeAt base mul ⊆ C)
    {ls : List Applied} {s : Arch MappedMemory}
    (hrun : Run (Interpreter.StepIn C (Memory.contents (config.image reader)))
      (Hart.create garbage (config.image reader)).toArch ls s) (hpc : s.pc = base) :
    ∃ h h₁, Machine.create load host garbage config = some (.ok h) ∧ h.run = .running h₁ ∧
      ((s.read 12).msb = false → ∃ ls' h', Run (Hart.StepAt C) h₁ (ls ++ ls') h' ∧
        MulReturned s.gprf h'.gprf ∧ h'.csrf = s.csrf ∧
        Memory.contents h'.mem = Memory.contents s.mem) ∧
      ((s.read 12).msb = true → ∀ n, ∃ ls' h', n ≤ ls'.length ∧
        (∀ l ∈ ls', l.pc ∈ codeAt base mul) ∧ Run (Hart.StepAt C) h₁ (ls ++ ls') h') := by
  obtain ⟨h, hcreate, -, hmatches⟩ := Machine.runs_executable hs hr garbage
  obtain ⟨h₁, -, hrun₁, -⟩ := hmatches C hC hstart ls s hrun
  have hkept := Interpreter.code_kept hrun
  have hp' : Placed (Memory.contents s.mem) base mul := by
    intro k word hword
    rw [hkept _ (hmul ⟨k, (List.getElem?_eq_some_iff.mp hword).1, rfl⟩)]
    exact hp k word hword
  -- what the routine does from here on, the hart does after what it has done
  have hgoes : ∀ ls' s',
      Run (Interpreter.Computing (codeAt base mul) (Memory.contents s.mem)) s ls' s' →
      ∃ h', Run (Hart.StepAt C) h₁ (ls ++ ls') h' ∧ h'.view = s'.view := by
    intro ls' s' hrun'
    have hin := hrun'.mono fun _ _ _ h => h.stepIn hmul fun a ha => (hkept a ha).symm
    obtain ⟨h₁', h', heq, hsteps, hv⟩ := hmatches C hC hstart _ _ (hrun.trans hin)
    obtain rfl := Outcome.running.inj (heq.symm.trans hrun₁)
    exact ⟨h', hsteps, hv⟩
  refine ⟨h, h₁, hcreate, hrun₁, fun hmsb => ?_, fun hmsb n => ?_⟩
  · obtain ⟨ls', s', hrun', hcsrf, hmem, hret⟩ :=
      mul_computes hp' subset_rfl hpc hmsb s ⟨rfl, rfl, rfl⟩
    obtain ⟨h', hsteps, hv⟩ := hgoes ls' s' hrun'
    obtain ⟨hg, hc, hm⟩ := View.mk.inj hv
    exact ⟨ls', h', hsteps, hg ▸ hret, hc.trans hcsrf, hm.trans hmem⟩
  · obtain ⟨ls', s', hn, hrun'⟩ :=
      mul_forever hp' subset_rfl hpc hmsb n (s := s) ⟨rfl, rfl, rfl⟩
    obtain ⟨h', hsteps, -⟩ := hgoes ls' s' hrun'
    exact ⟨ls', h', hn, hrun'.labels fun _ _ _ h l hl => (h.2 l hl).1.mem, hsteps⟩

theorem placed_mul :
    Placed (Memory.contents ((Machine.usual "mult-test").image (Machine.wordsFile mul))) 0 mul :=
  placed_of_forall (by decide +kernel : ∀ k < 8,
    ((Machine.usual "mult-test").image (Machine.wordsFile mul)).load .word
      (0 + BitVec.ofNat 64 (4 * k)) = .ok (mul.getD k 0))

theorem machine_mul_fifteen_eight : ∃ h h₁ h' : Hart Prefetcher, ∃ ls,
    Machine.create (fun _ => some (Machine.wordsFile mul)) .willing
        (fun r => if r = 11 then 15 else if r = 12 then 8 else 0) (Machine.usual "mult-test") =
      some (.ok h) ∧
    h.run = .running h₁ ∧ Run (Hart.StepAt (codeAt 0 mul)) h₁ ls h' ∧ h'.read 10 = 120 := by
  obtain ⟨h, h₁, hcreate, hrun, hret, -⟩ := machine_mul (Machine.sound_usual "mult-test")
    (Machine.runnable_words "mult-test" (by decide : mul.length < 0x10000000))
    (fun r => if r = 11 then 15 else if r = 12 then 8 else 0) codeAt_aligned
    (inCode_mul placed_mul subset_rfl (k := 0) (by decide)) placed_mul subset_rfl (.refl _) rfl
  obtain ⟨ls, h', hsteps, hreturned, -⟩ := hret rfl
  exact ⟨h, h₁, h', ls, hcreate, hrun, hsteps, hreturned.a0⟩

end Besm.E2eTest
