import Mathlib.Algebra.Group.Nat.Defs
import Mathlib.Data.Nat.Basic

namespace Besm

abbrev RV64UChar := BitVec 8
abbrev RV64UHWord := BitVec 16
abbrev RV64UWord := BitVec 32
abbrev RV64UDWord := BitVec 64
abbrev RV64Ptr := BitVec 64
abbrev RV64Size := BitVec 64

theorem add_toNat_sub (a x : RV64Ptr) : a + BitVec.ofNat 64 (x - a).toNat = x := by
  rw [BitVec.ofNat_toNat, BitVec.setWidth_eq, BitVec.add_comm, BitVec.sub_add_cancel]

theorem toNat_add_sub (a : RV64Ptr) {i : Nat} (hi : i < 2 ^ 64) :
    (a + BitVec.ofNat 64 i - a).toNat = i := by
  rw [BitVec.add_comm, BitVec.add_sub_cancel, BitVec.toNat_ofNat, Nat.mod_eq_of_lt hi]

def ialign : RV64UDWord := 32

inductive ExceptionId
  | instrAddrMisaligned
  | accessFault
  | illegalInstr
  | breakpoint
  | loadAddrMisaligned
  | loadAccessFault
  | storeAddrMisaligned
  | storeAccessFault
  | ecallUmode
  | ecallSmode
  | ecallMmode
  | instrPagefault
  | loadPagefault
  | storePagefault
  deriving DecidableEq, Repr

def ExceptionId.code : ExceptionId → RV64UDWord
  | .instrAddrMisaligned => 0
  | .accessFault => 1
  | .illegalInstr => 2
  | .breakpoint => 3
  | .loadAddrMisaligned => 4
  | .loadAccessFault => 5
  | .storeAddrMisaligned => 6
  | .storeAccessFault => 7
  | .ecallUmode => 8
  | .ecallSmode => 9
  | .ecallMmode => 11
  | .instrPagefault => 12
  | .loadPagefault => 13
  | .storePagefault => 15

inductive Width
  | byte
  | hWord
  | word
  | dWord
  deriving DecidableEq, Repr

def Width.size : Width → Nat
  | .byte => 1
  | .hWord => 2
  | .word => 4
  | .dWord => 8

theorem Width.size_pos (w : Width) : 0 < w.size := by cases w <;> decide

theorem Width.size_le (w : Width) : w.size ≤ 8 := by cases w <;> decide

theorem Width.size_eq_pow : (w : Width) → ∃ k, w.size = 2 ^ k
  | .byte => ⟨0, rfl⟩
  | .hWord => ⟨1, rfl⟩
  | .word => ⟨2, rfl⟩
  | .dWord => ⟨3, rfl⟩

theorem Width.size_dvd_addresses (w : Width) : w.size ∣ 2 ^ 64 := by cases w <;> decide

end Besm
