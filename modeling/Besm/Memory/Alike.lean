import Besm.Memory.Flat
import Mathlib.Logic.Relation

namespace Besm.Mem

namespace Memory

/-- A relation between two memories that every access keeps, and under which it
has the same outcome on both, if words are fetched at multiples of four. -/
structure Alike {M N : Type} [Memory M] [Memory N] (R : M → N → Prop) : Prop where
  fetchWord : ∀ m n, R m n → ∀ a : RV64Ptr, a.toNat % 4 = 0 →
    (Memory.fetchWord m a).1 = (Memory.fetchWord n a).1 ∧
      R (Memory.fetchWord m a).2 (Memory.fetchWord n a).2
  load : ∀ m n, R m n → ∀ w a,
    (load m w a).1 = (load n w a).1 ∧ R (load m w a).2 (load n w a).2
  store : ∀ m n, R m n → ∀ w a v,
    (store m w a v).1 = (store n w a v).1 ∧ R (store m w a v).2 (store n w a v).2

variable {M N P : Type} [Memory M] [Memory N] [Memory P] {R : M → N → Prop}

theorem Alike.swap (h : Alike R) : Alike fun n m => R m n where
  fetchWord _ _ hR a ha := (h.fetchWord _ _ hR a ha).imp_left Eq.symm
  load _ _ hR w a := (h.load _ _ hR w a).imp_left Eq.symm
  store _ _ hR w a v := (h.store _ _ hR w a v).imp_left Eq.symm

theorem Alike.comp {S : N → P → Prop} (h : Alike R) (h' : Alike S) :
    Alike (Relation.Comp R S) where
  fetchWord := by
    rintro m p ⟨n, hR, hS⟩ a ha
    obtain ⟨h₁, hR'⟩ := h.fetchWord m n hR a ha
    obtain ⟨h₂, hS'⟩ := h'.fetchWord n p hS a ha
    exact ⟨h₁.trans h₂, _, hR', hS'⟩
  load := by
    rintro m p ⟨n, hR, hS⟩ w a
    obtain ⟨h₁, hR'⟩ := h.load m n hR w a
    obtain ⟨h₂, hS'⟩ := h'.load n p hS w a
    exact ⟨h₁.trans h₂, _, hR', hS'⟩
  store := by
    rintro m p ⟨n, hR, hS⟩ w a v
    obtain ⟨h₁, hR'⟩ := h.store m n hR w a v
    obtain ⟨h₂, hS'⟩ := h'.store n p hS w a v
    exact ⟨h₁.trans h₂, _, hR', hS'⟩

theorem Alike.contents (h : Alike R) {m : M} {n : N} (hR : R m n) :
    contents m = contents n := by
  funext w a
  exact (h.load m n hR w a).1

/-- Of a lawful memory only its contents matter. -/
theorem alike_contents [LawfulMemory M] : Alike fun m n : M => contents m = contents n where
  fetchWord m n h a _ := by
    refine ⟨?_, ?_⟩
    · rw [LawfulMemory.fetch_eq, LawfulMemory.fetch_eq, h]
    · rw [LawfulMemory.fetch_contents, LawfulMemory.fetch_contents, h]
  load m n h w a := by
    refine ⟨congrFun (congrFun h w) a, ?_⟩
    rw [LawfulMemory.load_contents, LawfulMemory.load_contents, h]
  store m n h w a v := LawfulMemory.store_congr m n w a v h

end Memory

/-- A byte array whose accesses look for a device at their first address before
they look at anything else. -/
structure MappedMemory where
  flat : FlatMemory

namespace MappedMemory

def load (m : MappedMemory) (w : Width) (a : RV64Ptr) :
    Except MemError (BitVec (8 * w.size)) :=
  if m.flat.mapped a then m.flat.load w a else .error (.invalidAddress "Device not found")

def store (m : MappedMemory) (w : Width) (a : RV64Ptr) (v : BitVec (8 * w.size)) :
    Except MemError Unit × MappedMemory :=
  if m.flat.mapped a then ((m.flat.store w a v).1, ⟨(m.flat.store w a v).2⟩)
  else (.error (.invalidAddress "Device not found"), m)

instance : Memory MappedMemory where
  fetchWord m a := (m.load .word a, m)
  load m w a := (m.load w a, m)
  store := store

theorem load_byte (m : MappedMemory) (x : RV64Ptr) : m.load .byte x = m.flat.load .byte x := by
  rw [load, FlatMemory.load_byte]
  split_ifs <;> rfl

theorem store_mapped (m : MappedMemory) (w : Width) (a : RV64Ptr) (v : BitVec (8 * w.size)) :
    (m.store w a v).2.flat.mapped = m.flat.mapped := by
  unfold store
  split_ifs
  · unfold FlatMemory.store
    split <;> rfl
  · rfl

theorem store_of_load_error (m : MappedMemory) {w : Width} {a : RV64Ptr} {e : MemError}
    {v : BitVec (8 * w.size)} (h : m.load w a = .error e) : m.store w a v = (.error e, m) := by
  unfold load FlatMemory.load at h
  unfold store FlatMemory.store
  split_ifs at h ⊢
  · revert h
    cases m.flat.refuses w a with
    | none => exact nofun
    | some e' => exact fun h => Except.error.inj h ▸ rfl
  · rw [Except.error.inj h]

/-- The order of the two checks matters for the exceptions only. -/
theorem contents_eq_iff (m m' : MappedMemory) :
    Memory.contents m = Memory.contents m' ↔
      Memory.contents m.flat = Memory.contents m'.flat := by
  constructor
  · intro h
    have hb : ∀ x, m.flat.load .byte x = m'.flat.load .byte x := by
      intro x
      rw [← load_byte, ← load_byte]
      exact congrFun (congrFun h .byte) x
    have hm : ∀ x, m.flat.mapped x = m'.flat.mapped x := by
      intro x
      have hx := hb x
      rw [FlatMemory.load_byte, FlatMemory.load_byte] at hx
      cases h1 : m.flat.mapped x <;> cases h2 : m'.flat.mapped x <;> simp [h1, h2] at hx ⊢
    refine (FlatMemory.contents_eq_iff _ _).mpr ⟨funext hm, fun x hx => ?_⟩
    have hr := hb x
    rw [FlatMemory.load_byte, FlatMemory.load_byte, if_pos hx, if_pos (hm x ▸ hx)] at hr
    rw [← m.flat.byte_read x, ← m'.flat.byte_read x, Except.ok.inj hr]
  · intro h
    obtain ⟨hm, -⟩ := (FlatMemory.contents_eq_iff _ _).mp h
    funext w a
    change m.load w a = m'.load w a
    unfold load
    rw [hm]
    split_ifs
    · exact congrFun (congrFun h w) a
    · rfl

theorem store_contents_congr {m m' : MappedMemory} (w : Width) (a : RV64Ptr)
    (v : BitVec (8 * w.size)) (h : Memory.contents m = Memory.contents m') :
    (m.store w a v).1 = (m'.store w a v).1 ∧
      Memory.contents (m.store w a v).2 = Memory.contents (m'.store w a v).2 := by
  have hflat := (contents_eq_iff m m').mp h
  obtain ⟨hm, -⟩ := (FlatMemory.contents_eq_iff _ _).mp hflat
  obtain ⟨hs, hs'⟩ := FlatMemory.store_contents_congr w a v hflat
  unfold store
  rw [← hm]
  split_ifs
  · exact ⟨hs, (contents_eq_iff _ _).mpr hs'⟩
  · exact ⟨rfl, h⟩

theorem store_contents_apart (m : MappedMemory) (w : Width) {a b : RV64Ptr}
    (v : BitVec (8 * w.size)) (h : Memory.Apart a w.size b 4) :
    Memory.contents (m.store w a v).2 .word b = Memory.contents m .word b := by
  have hmapped := m.store_mapped w a v
  change (m.store w a v).2.load .word b = m.load .word b
  unfold load
  rw [hmapped]
  unfold store
  split_ifs
  · exact FlatMemory.store_contents_apart m.flat w v h
  all_goals rfl

instance : LawfulMemory MappedMemory where
  load_contents _ _ _ := rfl
  fetch_contents _ _ := rfl
  fetch_eq _ _ := rfl
  store_congr _ _ w a v h := store_contents_congr w a v h
  store_apart m w _ _ v h := store_contents_apart m w v h

end MappedMemory

end Besm.Mem
