import Besm.Lib.Hoare
import Besm.Sim.Stack

namespace Besm.Exec.GPRF

def retire (g : GPRF) (rd : Register) (value : RV64UDWord) : GPRF :=
  (g.write rd value).write pc ((g.write rd value).read pc + 4)

def branch (g : GPRF) (i : Instruction) (taken : Bool) : GPRF :=
  g.write pc (g.read pc + if taken then Util.signExtend 12 i.immidiate else 4)

theorem read_retire (g : GPRF) {rd r : Register} (value : RV64UDWord) (hr : r ≠ pc) :
    (g.retire rd value).read r = if r = x0 then 0 else if r = rd then value else g.read r := by
  rw [retire, read_write_of_ne _ _ hr, read_write]

theorem read_pc_retire (g : GPRF) {rd : Register} (value : RV64UDWord) (hrd : rd < 32) :
    (g.retire rd value).read pc = g.read pc + 4 := by
  rw [retire, read_pc_write_pc, read_pc_write g value hrd]

end Besm.Exec.GPRF

namespace Besm.Sim

open Besm.Exec Besm.Mem Besm.Lib.Transition Besm.Lib.Hoare

variable {contents : (w : Width) → RV64Ptr → Except MemError (BitVec (8 * w.size))}
  {base pc : RV64Ptr} {words : List RV64UWord} {C : Set RV64Ptr}

/-- The words lie one after the other from the address on. -/
def Placed (contents : (w : Width) → RV64Ptr → Except MemError (BitVec (8 * w.size)))
    (base : RV64Ptr) (words : List RV64UWord) : Prop :=
  ∀ k (word : RV64UWord), words[k]? = some word →
    contents .word (base + BitVec.ofNat 64 (4 * k)) = .ok word

def codeAt (base : RV64Ptr) (words : List RV64UWord) : Set RV64Ptr :=
  {a | ∃ k < words.length, a = base + BitVec.ofNat 64 (4 * k)}

theorem codeAt_aligned : codeAt 0 words ⊆ instrAddresses := by
  rintro a ⟨k, -, rfl⟩
  change (0#64 + BitVec.ofNat 64 (4 * k)).toNat % 4 = 0
  rw [BitVec.zero_add, BitVec.toNat_ofNat]
  omega

theorem placed_of_forall (h : ∀ k < words.length,
    contents .word (base + BitVec.ofNat 64 (4 * k)) = .ok (words.getD k 0)) :
    Placed contents base words := by
  intro k word hword
  have hget : words.getD k 0 = word := by
    rw [List.getD_eq_getElem?_getD, hword]
    rfl
  exact (h k (List.getElem?_eq_some_iff.mp hword).1).trans (congrArg Except.ok hget)

theorem address_add (base : RV64Ptr) (j k : Nat) :
    base + BitVec.ofNat 64 (4 * j) + BitVec.ofNat 64 (4 * k) =
      base + BitVec.ofNat 64 (4 * (j + k)) := by
  rw [BitVec.add_assoc, ← BitVec.ofNat_add, ← Nat.mul_add]

theorem inCode_of_placed (hp : Placed contents base words) (hC : codeAt base words ⊆ C)
    (hlast : ∃ word, words.getLast? = some word ∧ (Dec.parse word).isJump = true) {k : Nat}
    (hk : k < words.length) : InCode C contents (base + BitVec.ofNat 64 (4 * k)) := by
  obtain ⟨last, hlast, hjump⟩ := hlast
  rw [List.getLast?_eq_getElem?] at hlast
  intro j hj
  rw [address_add]
  -- no block goes on past the jump
  have hlt : k + j < words.length := by
    by_contra hge
    obtain ⟨word, hword, hno⟩ := hj.2 (words.length - 1 - k) (by omega)
    rw [address_add, show k + (words.length - 1 - k) = words.length - 1 by omega,
      hp _ _ hlast] at hword
    rw [Except.ok.inj hword, hno] at hjump
    exact absurd hjump Bool.false_ne_true
  exact ⟨hC ⟨k + j, hlt, rfl⟩, _, hp _ _ (List.getElem?_eq_getElem hlt)⟩

variable {M : Type}

theorem Arch.branch_eq (s : Arch M) (i : Instruction) (taken : Bool) :
    s.branch i taken = .next { s with gprf := s.gprf.branch i taken } := by
  cases taken <;> rfl

variable [Memory M]

/-- The control registers and the memory are the given ones, and the registers
are as asserted. -/
structure Holding (c : CSRF)
    (contents : (w : Width) → RV64Ptr → Except MemError (BitVec (8 * w.size)))
    (P : GPRF → Prop) (s : Arch M) : Prop where
  csrf : s.csrf = c
  mem : Memory.contents s.mem = contents
  gprf : P s.gprf

def Interpreter.Computing (C : Set RV64Ptr)
    (contents : (w : Width) → RV64Ptr → Except MemError (BitVec (8 * w.size)))
    (s : Arch M) (ls : List Applied) (s' : Arch M) : Prop :=
  Interpreter.Step s ls s' ∧
    ∀ l ∈ ls, InCode C contents l.pc ∧ storeWidth l.instr.operation = none

variable (M) in
/-- Total correctness of code that works on the registers only. -/
def Computes (C : Set RV64Ptr) (c : CSRF)
    (contents : (w : Width) → RV64Ptr → Except MemError (BitVec (8 * w.size)))
    (P Q : GPRF → Prop) : Prop :=
  Leads (Interpreter.Computing (M := M) C contents) (Holding c contents P) (Holding c contents Q)

variable {c : CSRF} {P Q : GPRF → Prop}

theorem computes_word [LawfulMemory M] {word : RV64UWord} {f : GPRF → GPRF}
    (hcode : InCode C contents pc) (hword : contents .word pc = .ok word)
    (hstore : storeWidth (Dec.parse word).operation = none)
    (heffect : ∀ s : Arch M, effect (Dec.parse word) s = .next { s with gprf := f s.gprf })
    (hP : ∀ g, P g → g.read GPRF.pc = pc ∧ Q (f g)) : Computes M C c contents P Q := by
  refine Leads.single fun s hs => ?_
  obtain ⟨hpc, hQ⟩ := hP _ hs.gprf
  have hload : (Memory.load s.mem .word s.pc).1 = .ok word := by
    change Memory.contents s.mem .word (s.gprf.read GPRF.pc) = _
    rw [hs.mem, hpc, hword]
  have hkeep := LawfulMemory.load_contents s.mem .word s.pc
  have hfetch : Interpreter.fetch s = some (Dec.parse word,
      .next { s with mem := (Memory.load s.mem .word s.pc).2, gprf := f s.gprf }) := by
    unfold Interpreter.fetch
    revert hload
    obtain ⟨r, mem⟩ := Memory.load s.mem .word s.pc
    rintro (rfl : r = .ok word)
    exact congrArg (fun e => some (Dec.parse word, e)) (heffect { s with mem := mem })
  refine ⟨_, _, ⟨.next hfetch, fun l hl => ?_⟩, hs.csrf, hkeep.trans hs.mem, hQ⟩
  obtain rfl := List.mem_singleton.mp hl
  refine ⟨?_, hstore⟩
  rw [show s.pc = pc from hpc]
  exact hcode

theorem Computes.loop (v : GPRF → Nat)
    (h : ∀ n, Computes M C c contents (fun g => P g ∧ v g = n) fun g => Q g ∨ P g ∧ v g < n) :
    Computes M C c contents P Q := by
  refine Leads.loop (fun s => v s.gprf) fun n => Leads.consequence (h n) ?_ ?_
  · rintro s ⟨hs, hn⟩
    exact ⟨hs.csrf, hs.mem, hs.gprf, hn⟩
  · rintro s ⟨hc, hm, hQ | ⟨hP, hlt⟩⟩
    · exact .inl ⟨hc, hm, hQ⟩
    · exact .inr ⟨⟨hc, hm, hP⟩, hlt⟩

theorem Interpreter.computing_labels (s : Arch M) (ls : List Applied) (s' : Arch M)
    (h : Interpreter.Computing C contents s ls s') : ls ≠ [] := by
  obtain ⟨hstep, -⟩ := h
  cases hstep with
  | next _ => exact List.cons_ne_nil _ _

/-- Code that stores nothing is part of any code around it that has the same words. -/
theorem Interpreter.Computing.stepIn {D : Set RV64Ptr}
    {contents' : (w : Width) → RV64Ptr → Except MemError (BitVec (8 * w.size))} (hD : D ⊆ C)
    (hwords : ∀ a ∈ C, contents' .word a = contents .word a) {s s' : Arch M} {ls : List Applied}
    (h : Interpreter.Computing D contents s ls s') : Interpreter.StepIn C contents' s ls s' := by
  refine ⟨h.1, fun l hl => ?_⟩
  obtain ⟨hcode, hstore⟩ := h.2 l hl
  have hcode' : InCode C contents l.pc := fun k hk => ⟨hD (hcode k hk).1, (hcode k hk).2⟩
  exact ⟨hcode'.congr hwords, fun w hw => nomatch hstore.symm.trans hw⟩

theorem Interpreter.code_kept [LawfulMemory M] {s s' : Arch M} {ls : List Applied}
    (hrun : Run (Interpreter.StepIn C contents) s ls s') :
    ∀ a ∈ C, Memory.contents s'.mem .word a = Memory.contents s.mem .word a := by
  refine hrun.invariant
    (I := fun t => ∀ a ∈ C, Memory.contents t.mem .word a = Memory.contents s.mem .word a)
    (fun t ls t' ht hstep => ?_) fun _ _ => rfl
  obtain ⟨hstep, hls⟩ := hstep
  cases hstep with
  | @next _ i hfetch =>
    obtain ⟨-, hspares⟩ := hls _ (List.mem_singleton.mpr rfl)
    have hload := LawfulMemory.load_contents t.mem .word t.pc
    unfold Interpreter.fetch at hfetch
    revert hfetch hload
    obtain ⟨_ | word, mem⟩ := Memory.load t.mem .word t.pc <;> intro hfetch hload
    · exact nomatch hfetch
    · obtain ⟨rfl, he⟩ := Prod.mk.inj (Option.some.inj hfetch)
      intro a ha
      rw [← ht a ha, ← congrFun (congrFun hload .word) a]
      exact word_of_advances (advances_of_effect (Dec.parse_ne_bbEnd word) he) fun w hw =>
        hspares.apart (s := { t with mem := mem }) (Dec.parse_registers word).2.1 he hw ha

end Besm.Sim
