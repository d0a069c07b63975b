import Besm.Sim.Effects
import Besm.Sim.Hart

namespace Besm.Sim

open Besm.Exec Besm.Mem Besm.Lib.Transition

variable {M : Type} [Memory M]

/-- The registers, the control registers and the contents of the memory. -/
structure View where
  gprf : GPRF
  csrf : CSRF
  contents : (w : Width) → RV64Ptr → Except MemError (BitVec (8 * w.size))

def Arch.view (s : Arch M) : View := ⟨s.gprf, s.csrf, Memory.contents s.mem⟩

/-- An instruction that was applied: its address, the instruction, and the
state it left. -/
structure Applied where
  pc : RV64Ptr
  instr : Instruction
  after : View

namespace Interpreter

/-- The plain interpreter reads the word at the program counter, decodes it
and finds the effect of the instruction. -/
def fetch (s : Arch M) : Option (Instruction × Effect (Arch M)) :=
  match Memory.load s.mem .word s.pc with
  | (.ok word, mem) => some (Dec.parse word, effect (Dec.parse word) { s with mem := mem })
  | (.error _, _) => none

theorem fetch_of_load {s : Arch M} {word : RV64UWord}
    (h : Memory.load s.mem .word s.pc = (.ok word, s.mem)) :
    fetch s = some (Dec.parse word, effect (Dec.parse word) s) := by
  rw [fetch, h]

inductive Step : Arch M → List Applied → Arch M → Prop
  | next {s s' : Arch M} {i : Instruction} (h : fetch s = some (i, .next s')) :
      Step s [⟨s.pc, i, s'.view⟩] s'

def advance (s : Arch M) : Option (List Applied × Arch M) :=
  match fetch s with
  | some (i, .next s') => some ([⟨s.pc, i, s'.view⟩], s')
  | _ => none

theorem step_of_advance {s s' : Arch M} {ls : List Applied} (h : advance s = some (ls, s')) :
    Step s ls s' := by
  unfold advance at h
  split at h
  case h_1 i t ht =>
    cases h
    exact .next ht
  case h_2 => cases h

end Interpreter

theorem Effect.map_map {S T U : Type} (f : S → T) (g : T → U) (e : Effect S) :
    (e.map f).map g = e.map (g ∘ f) := by
  cases e <;> rfl

def accessesMemory : InstructionOp → Bool
  | .lb | .lh | .lw | .lbu | .lhu | .lwu | .ld | .sb | .sh | .sw | .sd => true
  | _ => false

def Arch.withMem {M : Type} (m : M) (s : Arch M) : Arch M := { s with mem := m }

theorem csrStatus_withMem {M : Type} (m : M) (s : Arch M) (i : Instruction)
    (status : Option RV64UDWord × CSRF) :
    (s.withMem m).csrStatus i status = (s.csrStatus i status).map (Arch.withMem m) := by
  obtain ⟨_ | oldValue, c⟩ := status <;> rfl

theorem branch_withMem {M : Type} (m : M) (s : Arch M) (i : Instruction) (taken : Bool) :
    (s.withMem m).branch i taken = (s.branch i taken).map (Arch.withMem m) := by
  cases taken <;> rfl

theorem effect_withMem (m : M) (s : Arch M) {i : Instruction}
    (h : accessesMemory i.operation = false) :
    effect i (s.withMem m) = (effect i s).map (Arch.withMem m) := by
  unfold effect
  cases hop : i.operation <;> dsimp only [handlerArr]
  case lb | lh | lw | lbu | lhu | lwu | ld | sb | sh | sw | sd => simp [hop, accessesMemory] at h
  case beq | bne | blt | bge | bltu | bgeu =>
    exact branch_withMem _ _ _ _
  case ecall =>
    dsimp only [execECALL, Arch.withMem]
    split_ifs <;> rfl
  case mret =>
    dsimp only [execMRET, Arch.withMem]
    split_ifs <;> rfl
  case csrrw | csrrc | csrrwi | csrrsi | csrrci => exact csrStatus_withMem _ _ _ _
  case csrrs =>
    unfold execCSRRS
    split_ifs <;> exact csrStatus_withMem _ _ _ _
  all_goals rfl

theorem view_withMem {m m' : M} (h : Memory.contents m = Memory.contents m') (s : Arch M) :
    (s.withMem m).view = (s.withMem m').view := by
  simp only [Arch.view, Arch.withMem, h]

theorem load_congr [LawfulMemory M] (s : Arch M) {m : M} (i : Instruction) (w : Width)
    (extend : BitVec (8 * w.size) → RV64UDWord)
    (hm : Memory.contents s.mem = Memory.contents m) :
    (s.load i w extend).map Arch.view = ((s.withMem m).load i w extend).map Arch.view := by
  have h1 : (Memory.load s.mem w (s.address i)).1 = (Memory.load m w (s.address i)).1 :=
    congrFun (congrFun hm w) (s.address i)
  have h2 : Memory.contents (Memory.load s.mem w (s.address i)).2 =
      Memory.contents (Memory.load m w (s.address i)).2 := by
    rw [LawfulMemory.load_contents, LawfulMemory.load_contents, hm]
  have ha : (s.withMem m).address i = s.address i := rfl
  have hs : (s.withMem m).mem = m := rfl
  unfold Arch.load
  rw [ha, hs]
  revert h1 h2
  obtain ⟨r, m1⟩ := Memory.load s.mem w (s.address i)
  obtain ⟨r', m2⟩ := Memory.load m w (s.address i)
  rintro (rfl : r = r') h2
  cases r with
  | error e => exact congrArg (Effect.throw e) (view_withMem h2 s)
  | ok value => exact congrArg Effect.next (view_withMem h2 (s.write i.rd (extend value)).nextPC)

theorem store_congr [LawfulMemory M] (s : Arch M) {m : M} (i : Instruction) (w : Width)
    (hm : Memory.contents s.mem = Memory.contents m) :
    (s.store i w).map Arch.view = ((s.withMem m).store i w).map Arch.view := by
  obtain ⟨h1, h2⟩ := LawfulMemory.store_congr s.mem m w (s.address i)
    ((s.read i.rs2).setWidth (8 * w.size)) hm
  have ha : (s.withMem m).address i = s.address i := rfl
  have hr : (s.withMem m).read i.rs2 = s.read i.rs2 := rfl
  have hs : (s.withMem m).mem = m := rfl
  unfold Arch.store
  rw [ha, hr, hs]
  revert h1 h2
  obtain ⟨r, m1⟩ := Memory.store s.mem w (s.address i) _
  obtain ⟨r', m2⟩ := Memory.store m w (s.address i) _
  rintro (rfl : r = r') h2
  cases r with
  | error e => exact congrArg (Effect.throw e) (view_withMem h2 s)
  | ok value => exact congrArg Effect.next (view_withMem h2 s.nextPC)

/-- The effect of an instruction depends only on what the program can see. -/
theorem effect_congr [LawfulMemory M] (i : Instruction) {s s' : Arch M} (h : s.view = s'.view) :
    (effect i s).map Arch.view = (effect i s').map Arch.view := by
  simp only [Arch.view, View.mk.injEq] at h
  obtain ⟨hg, hc, hm⟩ := h
  have hs' : s' = s.withMem s'.mem := by
    cases s
    cases s'
    simp_all [Arch.withMem]
  rw [hs']
  cases ha : accessesMemory i.operation with
  | false =>
    have h1 : effect i s = (effect i s).map (Arch.withMem s.mem) := effect_withMem s.mem s ha
    rw [effect_withMem s'.mem s ha, h1, Effect.map_map, Effect.map_map, Effect.map_map]
    congr 1
    funext t
    exact view_withMem hm t
  | true =>
    unfold effect
    cases hop : i.operation <;> rw [hop] at ha
    case lb | lh | lw | lbu | lhu | lwu | ld => exact load_congr s i _ _ hm
    case sb | sh | sw | sd => exact store_congr s i _ hm
    all_goals cases ha

end Besm.Sim
