import Besm.Sim.Frame

namespace Besm.Sim

open Besm.Exec Besm.Mem Besm.Util Besm.Lib Besm.Lib.Encoding

def loadKind : InstructionOp → Option (Width × Bool)
  | .lb => some (.byte, true)
  | .lh => some (.hWord, true)
  | .lw => some (.word, true)
  | .ld => some (.dWord, false)
  | .lbu => some (.byte, false)
  | .lhu => some (.hWord, false)
  | .lwu => some (.word, false)
  | _ => none

def extend {n : Nat} (signed : Bool) (value : BitVec n) : RV64UDWord :=
  if signed then value.signExtend 64 else value.setWidth 64

/-- The word is one that the instruction set gives the operation. -/
def Encodes (op : InstructionOp) (w : Word) : Prop := ∃ f, Dec.form op = some f ∧ f.Matches w

def loadAddress {M : Type} (w : Word) (s : Arch M) : RV64Ptr :=
  s.read ((rs1 w).setWidth 8) + (immI w).signExtend 64

/-- The bytes from an address on are the low ones of a value, and all others as before. -/
structure Puts (m : FlatMemory) (width : Width) (a : RV64Ptr) (value : RV64UDWord)
    (m' : FlatMemory) : Prop where
  inside : ∀ i < width.size, m'.bytes (a + BitVec.ofNat 64 i) = value.extractLsb' (8 * i) 8
  outside : ∀ x, (∀ i < width.size, a + BitVec.ofNat 64 i ≠ x) → m'.bytes x = m.bytes x
  mapped : m'.mapped = m.mapped

/-- What a load is to do: the value of its bytes goes into the register, or the
exception leaves the hart as it is. -/
def Loads (w : Word) (width : Width) (signed : Bool) (h : Hart FlatMemory) : Prop :=
  match h.mem.refuses width (loadAddress w h.toArch) with
  | some e => h.step = .thrown e h
  | none => ∃ h', h.step = .running h' ∧
      Writes w (extend signed (h.mem.read width (loadAddress w h.toArch))) h'.toArch ∧
      h'.pc = h.pc + 4 ∧ h'.mem = h.mem

/-- What a store is to do: its bytes are put, and every load of as many from
there finds them. -/
def Stores (w : Word) (width : Width) (h : Hart FlatMemory) : Prop :=
  let value := h.read ((rs2 w).setWidth 8)
  match h.mem.refuses width (storeAddress w h.toArch) with
  | some e => h.step = .thrown e h
  | none => ∃ h', h.step = .running h' ∧ Puts h.mem width (storeAddress w h.toArch) value h'.mem ∧
      h'.pc = h.pc + 4 ∧
      ∀ (t : Hart FlatMemory) w' op signed, t.mem = h'.mem → t.current = some (Dec.parse w') →
        Encodes op w' → loadKind op = some (width, signed) →
        loadAddress w' t.toArch = storeAddress w h.toArch →
        ∃ t', t.step = .running t' ∧
          Writes w' (extend signed (value.setWidth (8 * width.size))) t'.toArch

variable {w : Word} {op : InstructionOp}

theorem puts_write (m : FlatMemory) (width : Width) (a : RV64Ptr) (value : RV64UDWord) :
    Puts m width a value (m.write width a (value.setWidth (8 * width.size))) where
  inside i hi := by
    rw [m.write_bytes_inside width a _ hi]
    apply BitVec.eq_of_getLsbD_eq
    intro k hk
    rw [LittleEndian.getLsbD_byte, BitVec.getLsbD_setWidth, BitVec.getLsbD_extractLsb',
      decide_eq_true (by omega : 8 * i + k < 8 * width.size), Bool.true_and]
  outside _ hx := m.write_bytes_apart width _ hx
  mapped := rfl

section Words

variable {width : Width} {signed : Bool}

theorem operation_of_load (hop : loadKind op = some (width, signed)) (he : Encodes op w) :
    Dec.parse w = ⟨(rd w).setWidth 8, (rs1 w).setWidth 8, 0, (immI w).setWidth 64, op⟩ := by
  obtain ⟨f, hf, hm⟩ := he
  have hparse : (Dec.parse w).operation = op :=
    Dec.parse_targeted (by cases op <;> cases hop <;> decide) hf hm
  cases op <;> cases hop <;> exact Dec.parse_i hparse rfl rfl

theorem operation_of_store (hop : storeWidth op = some width) (he : Encodes op w) :
    Dec.parse w = ⟨0, (rs1 w).setWidth 8, (rs2 w).setWidth 8, (immS w).setWidth 64, op⟩ := by
  obtain ⟨f, hf, hm⟩ := he
  have hparse : (Dec.parse w).operation = op :=
    Dec.parse_targeted (by cases op <;> cases hop <;> decide) hf hm
  cases op <;> cases hop <;> exact Dec.parse_s hparse rfl rfl

theorem effect_load {M : Type} [Memory M] {i : Instruction} (s : Arch M)
    (hop : loadKind i.operation = some (width, signed)) :
    effect i s = s.load i width (extend signed) := by
  have hs : (extend true : BitVec (8 * width.size) → RV64UDWord) = BitVec.signExtend 64 := rfl
  have hz : (extend false : BitVec (8 * width.size) → RV64UDWord) = BitVec.setWidth 64 := rfl
  unfold effect
  cases hi : i.operation <;> rw [hi] at hop <;> cases hop
  case lb | lh | lw => rw [hs]; rfl
  case ld | lbu | lhu | lwu => rw [hz]; rfl

theorem effect_store {M : Type} [Memory M] {i : Instruction} (s : Arch M)
    (hop : storeWidth i.operation = some width) : effect i s = s.store i width := by
  unfold effect
  cases hi : i.operation <;> rw [hi] at hop <;> cases hop <;> rfl

end Words

namespace Hart

variable {width : Width} {signed : Bool} {h : Hart FlatMemory}

theorem apply_next {M : Type} [Memory M] {h : Hart M} {i : Instruction} (hcur : h.current = some i)
    (s : Arch M) : ∃ h', h.apply (.next s) = .running h' ∧ h'.toArch = s := by
  obtain ⟨p, hp, -⟩ := Option.bind_eq_some_iff.mp hcur
  have hp' : (h.withArch s).currentInstr = some p := hp
  have hcur' : (h.withArch s).current = some i := hcur
  refine ⟨{ h.withArch s with
    instrsExecuted := h.instrsExecuted + 1
    hooks := h.hooks ++ [.instrExecuted i]
    currentInstr := some { p with pos := p.pos + 1 } }, ?_, rfl⟩
  change (h.withArch s).execNextInstr = _
  rw [execNextInstr, hp', hcur']
  rfl

theorem loads (hcur : h.current = some (Dec.parse w)) (he : Encodes op w)
    (hop : loadKind op = some (width, signed)) : Loads w width signed h := by
  have hi := operation_of_load hop he
  have haddr : h.toArch.address (Dec.parse w) = loadAddress w h.toArch := by
    rw [hi, loadAddress, ← imm_signExtend]
    rfl
  have hrd : (Dec.parse w).rd = (rd w).setWidth 8 := by rw [hi]
  have hload : Memory.load h.mem width (loadAddress w h.toArch) =
    (h.mem.load width (loadAddress w h.toArch), h.mem) := rfl
  unfold Loads
  rw [step_instr hcur (Dec.parse_ne_bbEnd w), effect_load h.toArch (by rw [hi]; exact hop),
    Arch.load, haddr, hload, FlatMemory.load]
  cases h.mem.refuses width (loadAddress w h.toArch) with
  | some e => rfl
  | none =>
    dsimp only
    rw [hrd]
    obtain ⟨h', hr, hx⟩ := apply_next hcur (h.toArch.write ((rd w).setWidth 8)
      (extend signed (h.mem.read width (loadAddress w h.toArch)))).nextPC
    refine ⟨h', hr, ?_, ?_, ?_⟩
    · rw [hx]
      exact writes_setPC h.toArch _ _
    · rw [hx, Arch.pc_nextPC, Arch.pc_write _ _ (register_lt _)]
    · rw [hx]
      rfl

theorem stores (hcur : h.current = some (Dec.parse w)) (he : Encodes op w)
    (hop : storeWidth op = some width) : Stores w width h := by
  have hi := operation_of_store hop he
  have haddr : h.toArch.address (Dec.parse w) = storeAddress w h.toArch :=
    address_of_store (by rw [hi]; exact hop) h.toArch
  have hrs2 : (Dec.parse w).rs2 = (rs2 w).setWidth 8 := by rw [hi]
  unfold Stores
  dsimp only
  generalize hv : h.read ((rs2 w).setWidth 8) = value
  have hstore : Memory.store h.mem width (storeAddress w h.toArch) (value.setWidth _) =
    h.mem.store width (storeAddress w h.toArch) (value.setWidth _) := rfl
  rw [step_instr hcur (Dec.parse_ne_bbEnd w), effect_store h.toArch (by rw [hi]; exact hop),
    Arch.store, haddr, hrs2, hv, hstore, FlatMemory.store]
  cases hr : h.mem.refuses width (storeAddress w h.toArch) with
  | some e => rfl
  | none =>
    dsimp only
    obtain ⟨h', hrun, hx⟩ := apply_next hcur
      ({ h.toArch with
        mem := h.mem.write width (storeAddress w h.toArch) (value.setWidth _) } : Arch _).nextPC
    refine ⟨h', hrun, ?_, ?_, ?_⟩
    · rw [hx]
      exact puts_write _ _ _ _
    · rw [hx, Arch.pc_nextPC]
      rfl
    · intro t w' op' signed ht hcur' he' hop' haddr'
      have hmem : t.mem = h.mem.write width (storeAddress w h.toArch) (value.setWidth _) := by
        rw [ht, hx]
        rfl
      have hl := loads hcur' he' hop'
      rw [Loads, haddr', hmem, FlatMemory.refuses_congr (FlatMemory.write_mapped ..), hr,
        FlatMemory.read_write] at hl
      obtain ⟨t', ht', hw, -⟩ := hl
      exact ⟨t', ht', hw⟩

/-- Loads and stores access the bytes at their address, or leave the hart as it
is to the exception of the memory. -/
theorem access_encoded (hcur : h.current = some (Dec.parse w)) (he : Encodes op w) :
    (∀ width signed, loadKind op = some (width, signed) → Loads w width signed h) ∧
      ∀ width, storeWidth op = some width → Stores w width h :=
  ⟨fun _ _ => loads hcur he, fun _ => stores hcur he⟩

theorem access_encoded_sw :
    ∃ h h' : Hart FlatMemory,
      (Hart.create (fun _ => -2) (FlatMemory.image [0x00302423])).runFor 0 = some h ∧
      h.step = .running h' ∧ Puts h.mem .word 8 (-2) h'.mem := by
  let h₀ := Hart.create (fun _ => -2) (FlatMemory.image [0x00302423])
  have hsome : (h₀.runFor 0).isSome = true := by decide +kernel
  obtain ⟨h, hr⟩ := Option.isSome_iff_exists.mp hsome
  have hcur : h.current = some (Dec.parse 0x00302423) :=
    of_runFor (f := fun h => h.current) hr (by decide +kernel)
  have haddr : storeAddress 0x00302423 h.toArch = 8 :=
    of_runFor (f := fun h => storeAddress 0x00302423 h.toArch) hr (by decide +kernel)
  have hvalue : h.read ((rs2 0x00302423).setWidth 8) = -2 :=
    of_runFor (f := fun h => h.read ((rs2 0x00302423).setWidth 8)) hr (by decide +kernel)
  have hfree : h.mem.refuses .word 8 = none :=
    of_runFor (f := fun h => h.mem.refuses .word 8) hr (by decide +kernel)
  have he : Encodes .sw 0x00302423 := ⟨_, rfl, by decide, by decide⟩
  have hs := (access_encoded hcur he).2 .word rfl
  rw [Stores, haddr, hvalue, hfree] at hs
  obtain ⟨h', hstep, hputs, -⟩ := hs
  exact ⟨h, h', hr, hstep, hputs⟩

end Hart

end Besm.Sim
