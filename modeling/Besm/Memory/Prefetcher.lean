import Besm.Memory.Wiring

namespace Besm.Mem

open Besm.Lib.Transition Besm.Util

structure MMU where
  pMem : PhysMem

namespace MMU

def translateAddress (address : RV64Ptr) : RV64Ptr := address

def load (m : MMU) (w : Width) (address : RV64Ptr) : Except MemError (BitVec (8 * w.size)) × MMU :=
  let (result, pMem) := m.pMem.load w (translateAddress address)
  (result, ⟨pMem⟩)

def store (m : MMU) (w : Width) (address : RV64Ptr) (value : BitVec (8 * w.size)) :
    Except MemError Unit × MMU :=
  let (result, pMem) := m.pMem.store w (translateAddress address) value
  (result, ⟨pMem⟩)

def getHostAddress (m : MMU) (vaddress : RV64Ptr) :
    Except MemError (HostAddress × RV64Size) × MMU :=
  let (result, pMem) := m.pMem.getHostAddress (translateAddress vaddress)
  (result, ⟨pMem⟩)

end MMU

/-- The prefetcher, with the MMU that it shares with the rest of the hart: the
`len` bytes from `start` on are those at `saved` in the memory of the host. -/
structure Prefetcher where
  mmu : MMU
  saved : HostAddress
  start : RV64Ptr
  len : RV64Size

namespace Prefetcher

def create (mmu : MMU) : Prefetcher := ⟨mmu, none, -1, 0⟩

def readSaved (f : Prefetcher) (offset : Nat) : Except MemError RV64UWord :=
  match f.saved with
  | none => .error .nullDereference
  | some p => .ok (f.mmu.pMem.host.read .word (p.add offset))

def loadWord (f : Prefetcher) (vaddress : RV64Ptr) : Except MemError RV64UWord × Prefetcher :=
  if f.start < vaddress ∧ vaddress < f.start + f.len then
    if (vaddress - f.start).toNat % 4 ≠ 0 then (.error .assertionFailed, f)
    else (f.readSaved (4 * ((vaddress - f.start).toNat / 4)), f)
  else
    match f.mmu.getHostAddress vaddress with
    | (.error e, mmu) => (.error e, { f with mmu := mmu })
    | (.ok (hostAddress, size), mmu) =>
      if 0 < size then
        let f : Prefetcher := ⟨mmu, hostAddress, vaddress, size⟩
        (f.readSaved 0, f)
      else
        let (result, mmu) := mmu.load .word vaddress
        (result, { f with mmu := mmu })

instance : Memory Prefetcher where
  fetchWord := loadWord
  load f w address :=
    let (result, mmu) := f.mmu.load w address
    (result, { f with mmu := mmu })
  store f w address value :=
    let (result, mmu) := f.mmu.store w address value
    (result, { f with mmu := mmu })

/-- A fetch of an aligned word, or a load or a store of any width. -/
inductive Step : Prefetcher → Prefetcher → Prop
  | fetch (f : Prefetcher) {v : RV64Ptr} (hv : v.toNat % 4 = 0) : Step f (f.loadWord v).2
  | load (f : Prefetcher) (w : Width) (a : RV64Ptr) : Step f (Memory.load f w a).2
  | store (f : Prefetcher) (w : Width) (a : RV64Ptr) (v : BitVec (8 * w.size)) :
      Step f (Memory.store f w a v).2

def WindowAligned (f : Prefetcher) : Prop := f.len = 0 ∨ f.start.toNat % 4 = 0

theorem readSaved_ne_assertionFailed (f : Prefetcher) (offset : Nat) :
    f.readSaved offset ≠ .error .assertionFailed := by
  unfold readSaved
  split <;> nofun

theorem WindowAligned.loadWord {f : Prefetcher} (h : f.WindowAligned) {v : RV64Ptr}
    (hv : v.toNat % 4 = 0) :
    (f.loadWord v).1 ≠ .error .assertionFailed ∧ (f.loadWord v).2.WindowAligned := by
  unfold Prefetcher.loadWord
  by_cases hahead : f.start < v ∧ v < f.start + f.len
  · have hal : ¬(v - f.start).toNat % 4 ≠ 0 := by
      obtain hlen | hstart := h
      · rw [hlen] at hahead
        bv_omega
      · rw [BitVec.toNat_sub]
        omega
    rw [if_pos hahead, if_neg hal]
    exact ⟨readSaved_ne_assertionFailed f _, h⟩
  · rw [if_neg hahead]
    have hget := PhysMem.getHostAddress_ne_assertionFailed f.mmu.pMem v
    unfold MMU.getHostAddress MMU.translateAddress
    revert hget
    obtain ⟨e | ⟨hostAddress, size⟩, pMem⟩ := f.mmu.pMem.getHostAddress v <;> intro hget
    · exact ⟨fun he => hget (congrArg _ (Except.error.inj he)), h⟩
    · dsimp only
      split_ifs
      · exact ⟨readSaved_ne_assertionFailed _ _, .inr hv⟩
      · exact ⟨PhysMem.load_ne_assertionFailed pMem .word v, h⟩

theorem assertionFree : Memory.AssertionFree WindowAligned where
  fetchWord _ h _ hv := h.loadWord hv
  load f h w a := ⟨PhysMem.load_ne_assertionFailed f.mmu.pMem w a, h⟩
  store f h w a v := ⟨PhysMem.store_ne_assertionFailed f.mmu.pMem w a v, h⟩

end Prefetcher

end Besm.Mem
