import Besm.RiscvTypes

namespace Besm.Mem

/-- The exceptions that leave an access. A failed assertion, and an access
through a null pointer, stop the process. -/
inductive MemError
  | invalidAddress (message : String)
  | unalignedAddress (message : String)
  | badAlloc
  | assertionFailed
  | nullDereference
  deriving DecidableEq, Repr

/-- The memory a hart runs on: the words its prefetcher fetches, and the loads
and stores of its MMU. Each access gives its outcome and the memory after it,
for the caches on the way may move on a load and on a failure too. -/
class Memory (M : Type) where
  fetchWord : M → RV64Ptr → Except MemError RV64UWord × M
  load : M → (w : Width) → RV64Ptr → Except MemError (BitVec (8 * w.size)) × M
  store : M → (w : Width) → RV64Ptr → BitVec (8 * w.size) → Except MemError Unit × M

namespace Memory

variable {M : Type} [Memory M]

/-- What a memory holds, as far as loads can tell. -/
def contents (m : M) (w : Width) (address : RV64Ptr) : Except MemError (BitVec (8 * w.size)) :=
  (load m w address).1

def Apart (a : RV64Ptr) (n : Nat) (b : RV64Ptr) (k : Nat) : Prop :=
  ∀ i < n, ∀ j < k, a + BitVec.ofNat 64 i ≠ b + BitVec.ofNat 64 j

/-- A property that no access breaks, if words are fetched at multiples of
four, and under which no access fails an assertion. -/
structure AssertionFree (I : M → Prop) : Prop where
  fetchWord : ∀ m, I m → ∀ a : RV64Ptr, a.toNat % 4 = 0 →
    (Memory.fetchWord m a).1 ≠ .error .assertionFailed ∧ I (Memory.fetchWord m a).2
  load : ∀ m, I m → ∀ w a, (load m w a).1 ≠ .error .assertionFailed ∧ I (load m w a).2
  store : ∀ m, I m → ∀ w a v, (store m w a v).1 ≠ .error .assertionFailed ∧ I (store m w a v).2

end Memory

/-- A memory whose loads and fetches leave the contents alone, whose fetches
return what the MMU loads, and whose stores depend on the contents only. -/
class LawfulMemory (M : Type) [Memory M] : Prop where
  load_contents (m : M) (w : Width) (a : RV64Ptr) :
    Memory.contents (Memory.load m w a).2 = Memory.contents m
  fetch_contents (m : M) (a : RV64Ptr) :
    Memory.contents (Memory.fetchWord m a).2 = Memory.contents m
  fetch_eq (m : M) (a : RV64Ptr) : (Memory.fetchWord m a).1 = Memory.contents m .word a
  store_congr (m m' : M) (w : Width) (a : RV64Ptr) (v : BitVec (8 * w.size)) :
    Memory.contents m = Memory.contents m' →
      (Memory.store m w a v).1 = (Memory.store m' w a v).1 ∧
      Memory.contents (Memory.store m w a v).2 = Memory.contents (Memory.store m' w a v).2
  store_apart (m : M) (w : Width) (a b : RV64Ptr) (v : BitVec (8 * w.size)) :
    Memory.Apart a w.size b 4 →
      Memory.contents (Memory.store m w a v).2 .word b = Memory.contents m .word b

end Besm.Mem
