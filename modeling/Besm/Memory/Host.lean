import Besm.Lib.LittleEndian
import Besm.RiscvTypes
import Mathlib.Logic.Function.Basic

namespace Besm.Mem

open Besm.Lib

/-- A pointer into a region that the host has mapped. Different regions never
meet, whatever is added to a pointer. -/
structure HostPtr where
  region : Nat
  offset : Nat
  deriving DecidableEq, Repr

abbrev HostAddress := Option HostPtr

namespace HostPtr

/-- What `mmap` returns when it fails: the highest address, not the null one. -/
def mapFailed : HostPtr := ⟨0, 2 ^ 64 - 1⟩

def add (p : HostPtr) (n : Nat) : HostPtr := { p with offset := p.offset + n }

@[simp] theorem region_add (p : HostPtr) (n : Nat) : (p.add n).region = p.region := rfl

@[simp] theorem offset_add (p : HostPtr) (n : Nat) : (p.add n).offset = p.offset + n := rfl

@[simp] theorem add_zero (p : HostPtr) : p.add 0 = p := rfl

theorem add_add (p : HostPtr) (n k : Nat) : (p.add n).add k = p.add (n + k) := by
  simp [add, Nat.add_assoc]

end HostPtr

/-- The host's memory, and what its `mmap` will do: the calls are numbered, and
some of them may fail. -/
structure Host where
  bytes : Nat → Nat → BitVec 8
  regions : Nat
  refuses : Nat → Bool
  pageSize : RV64Size

namespace Host

def willing : Host := ⟨fun _ _ => 0, 1, fun _ => false, 4096⟩

def mmap (h : Host) (length : RV64Size) : HostAddress × Host :=
  if h.refuses h.regions = true ∨ length = 0 then
    (some .mapFailed, { h with regions := h.regions + 1 })
  else
    let bytes := LittleEndian.overlay (h.bytes h.regions) 0 length.toNat fun _ => 0
    (some ⟨h.regions, 0⟩,
      { h with bytes := Function.update h.bytes h.regions bytes, regions := h.regions + 1 })

def readByte (h : Host) (p : HostPtr) : BitVec 8 := h.bytes p.region p.offset

def read (h : Host) (w : Width) (p : HostPtr) : BitVec (8 * w.size) :=
  LittleEndian.word w.size fun i => h.readByte (p.add i)

def write (h : Host) (p : HostPtr) (n : Nat) (data : Nat → BitVec 8) : Host :=
  let bytes := LittleEndian.overlay (h.bytes p.region) p.offset n data
  { h with bytes := Function.update h.bytes p.region bytes }

theorem readByte_write_same (h : Host) (p : HostPtr) {n i : Nat} (data : Nat → BitVec 8)
    (hi : i < n) : (h.write p n data).readByte (p.add i) = data i := by
  simp only [readByte, write, HostPtr.region_add, Function.update_self]
  exact LittleEndian.overlay_inside _ _ _ hi

theorem readByte_write_apart (h : Host) {p q : HostPtr} {n : Nat} (data : Nat → BitVec 8)
    (hq : q.region = p.region → q.offset < p.offset ∨ p.offset + n ≤ q.offset) :
    (h.write p n data).readByte q = h.readByte q := by
  by_cases hr : q.region = p.region
  · simp only [readByte, write, hr, Function.update_self]
    exact LittleEndian.overlay_outside _ _ (hq hr)
  · simp only [readByte, write, Function.update_of_ne hr]

theorem read_write_same (h : Host) (w : Width) (p : HostPtr) (v : BitVec (8 * w.size)) :
    (h.write p w.size (LittleEndian.byte v)).read w p = v := by
  have hb : (h.write p w.size (LittleEndian.byte v)).read w p =
      LittleEndian.word w.size (LittleEndian.byte v) :=
    LittleEndian.word_congr fun i hi => readByte_write_same h p _ hi
  rw [hb, LittleEndian.word_byte]

theorem read_congr {h h' : Host} {w : Width} {p : HostPtr}
    (hb : h'.bytes p.region = h.bytes p.region) : h'.read w p = h.read w p := by
  refine LittleEndian.word_congr fun i _ => ?_
  rw [readByte, readByte, HostPtr.region_add, hb]

/-- The host has mapped more regions, and kept those it had. -/
structure Extends (h h' : Host) : Prop where
  regions : h.regions ≤ h'.regions
  refuses : h'.refuses = h.refuses
  pageSize : h'.pageSize = h.pageSize
  bytes : ∀ r < h.regions, h'.bytes r = h.bytes r

theorem Extends.refl (h : Host) : h.Extends h := ⟨Nat.le_refl _, rfl, rfl, fun _ _ => rfl⟩

theorem Extends.readByte {h h' : Host} (he : h.Extends h') {p : HostPtr}
    (hp : p.region < h.regions) : h'.readByte p = h.readByte p := by
  rw [Host.readByte, he.bytes _ hp]
  rfl

theorem mmap_granted {h : Host} (hg : h.refuses h.regions = false) {length : RV64Size}
    (hl : 0 < length.toNat) :
    (h.mmap length).1 = some ⟨h.regions, 0⟩ ∧ (h.mmap length).2.regions = h.regions + 1 ∧
      h.Extends (h.mmap length).2 ∧
      ∀ n < length.toNat, (h.mmap length).2.bytes h.regions n = 0 := by
  have hn : ¬(h.refuses h.regions = true ∨ length = 0) := by
    rintro (hr | rfl)
    · exact Bool.false_ne_true (hg.symm.trans hr)
    · exact Nat.lt_irrefl 0 hl
  unfold mmap
  rw [if_neg hn]
  refine ⟨rfl, rfl, ⟨Nat.le_succ _, rfl, rfl, fun r hr => ?_⟩, fun n hn => ?_⟩
  · simp only [Function.update_of_ne (Nat.ne_of_lt hr)]
  · have hin := LittleEndian.overlay_inside (h.bytes h.regions) 0 (fun _ => 0) hn
    rw [Nat.zero_add] at hin
    simpa only [Function.update_self] using hin

end Host

end Besm.Mem
