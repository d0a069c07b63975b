import Besm.Decoder.Instruction

namespace Besm.Exec

/-- The integer registers, with the program counter in the slot after them. -/
structure GPRF where
  registers : Register → RV64UDWord

namespace GPRF

def x0 : Register := 0
def pc : Register := 32

/-- The register file as constructed: only the program counter is set, the
other slots hold whatever the memory held. -/
def create (garbage : Register → RV64UDWord) : GPRF :=
  ⟨fun r => if r = pc then 0 else garbage r⟩

def write (g : GPRF) (regId : Register) (value : RV64UDWord) : GPRF :=
  ⟨fun r => if r = regId then value else g.registers r⟩

def read (g : GPRF) (regId : Register) : RV64UDWord :=
  if regId = x0 then 0 else g.registers regId

@[simp] theorem read_x0 (g : GPRF) : g.read x0 = 0 := by simp [read]

theorem read_write (g : GPRF) (regId r : Register) (value : RV64UDWord) :
    (g.write regId value).read r =
      if r = x0 then 0 else if r = regId then value else g.read r := by
  simp only [read, write]
  split_ifs <;> rfl

@[simp] theorem read_pc_write_pc (g : GPRF) (value : RV64UDWord) :
    (g.write pc value).read pc = value := by
  rw [read_write, if_neg (by decide), if_pos rfl]

theorem read_write_of_ne (g : GPRF) {regId r : Register} (value : RV64UDWord) (h : r ≠ regId) :
    (g.write regId value).read r = g.read r := by
  rw [read_write, if_neg h]
  split_ifs with h0
  · rw [h0, read_x0]
  · rfl

theorem read_pc_write (g : GPRF) {regId : Register} (value : RV64UDWord) (h : regId < 32) :
    (g.write regId value).read pc = g.read pc :=
  read_write_of_ne g value fun hp => absurd (hp ▸ h) (by decide)

theorem read_create_pc (garbage : Register → RV64UDWord) : (create garbage).read pc = 0 := by
  rfl

end GPRF

end Besm.Exec
