import Besm.Lib.LittleEndian
import Besm.Memory.Interface

namespace Besm.Mem

open Besm.Lib

/-- A plain byte array, mapped at some addresses: what the memory system is for. -/
structure FlatMemory where
  mapped : RV64Ptr → Bool
  bytes : RV64Ptr → BitVec 8

namespace FlatMemory

def image (words : List RV64UWord) : FlatMemory where
  mapped _ := true
  bytes a := LittleEndian.byte (n := 4) (words.getD (a.toNat / 4) 0) (a.toNat % 4)

def filled (size : Nat) (word : RV64UWord) : FlatMemory where
  mapped a := a.toNat < size
  bytes a := LittleEndian.byte (n := 4) word (a.toNat % 4)

def refuses (m : FlatMemory) (w : Width) (a : RV64Ptr) : Option MemError :=
  if a.toNat % w.size ≠ 0 then some (.unalignedAddress "RAM unaligned access")
  else if (List.range w.size).all fun i => m.mapped (a + BitVec.ofNat 64 i) then none
  else some (.invalidAddress "Device not found")

def read (m : FlatMemory) (w : Width) (a : RV64Ptr) : BitVec (8 * w.size) :=
  LittleEndian.word w.size fun i => m.bytes (a + BitVec.ofNat 64 i)

def write (m : FlatMemory) (w : Width) (a : RV64Ptr) (v : BitVec (8 * w.size)) : FlatMemory :=
  { m with bytes := fun x =>
      if (x - a).toNat < w.size then LittleEndian.byte v (x - a).toNat else m.bytes x }

def load (m : FlatMemory) (w : Width) (a : RV64Ptr) : Except MemError (BitVec (8 * w.size)) :=
  match m.refuses w a with
  | some e => .error e
  | none => .ok (m.read w a)

def store (m : FlatMemory) (w : Width) (a : RV64Ptr) (v : BitVec (8 * w.size)) :
    Except MemError Unit × FlatMemory :=
  match m.refuses w a with
  | some e => (.error e, m)
  | none => (.ok (), m.write w a v)

instance : Memory FlatMemory where
  fetchWord m a := (m.load .word a, m)
  load m w a := (m.load w a, m)
  store := store

theorem write_mapped (m : FlatMemory) (w : Width) (a : RV64Ptr) (v : BitVec (8 * w.size)) :
    (m.write w a v).mapped = m.mapped := rfl

theorem write_bytes_apart (m : FlatMemory) (w : Width) {a x : RV64Ptr} (v : BitVec (8 * w.size))
    (h : ∀ i < w.size, a + BitVec.ofNat 64 i ≠ x) : (m.write w a v).bytes x = m.bytes x := by
  have hx : ¬(x - a).toNat < w.size := by
    intro hlt
    exact h _ hlt (add_toNat_sub _ _)
  exact if_neg hx

theorem write_bytes_inside (m : FlatMemory) (w : Width) (a : RV64Ptr) (v : BitVec (8 * w.size))
    {i : Nat} (hi : i < w.size) :
    (m.write w a v).bytes (a + BitVec.ofNat 64 i) = LittleEndian.byte v i := by
  have hsize := w.size_le
  have hsub := toNat_add_sub a (by omega : i < 2 ^ 64)
  change (if _ then _ else _) = _
  rw [hsub, if_pos hi]

theorem read_write (m : FlatMemory) (w : Width) (a : RV64Ptr) (v : BitVec (8 * w.size)) :
    (m.write w a v).read w a = v :=
  (LittleEndian.word_congr fun _ hi => m.write_bytes_inside w a v hi).trans
    (LittleEndian.word_byte v)

theorem read_congr {m m' : FlatMemory} {w : Width} {a : RV64Ptr}
    (h : ∀ i < w.size, m.bytes (a + BitVec.ofNat 64 i) = m'.bytes (a + BitVec.ofNat 64 i)) :
    m.read w a = m'.read w a :=
  LittleEndian.word_congr h

theorem refuses_eq_none {m : FlatMemory} {w : Width} {a : RV64Ptr} : m.refuses w a = none ↔
    a.toNat % w.size = 0 ∧ ∀ i < w.size, m.mapped (a + BitVec.ofNat 64 i) = true := by
  unfold refuses
  split_ifs with hal hall
  · simp [hal]
  · simpa [not_not.mp hal] using hall
  · simpa [not_not.mp hal] using hall

theorem refuses_congr {m m' : FlatMemory} (h : m.mapped = m'.mapped) (w : Width) (a : RV64Ptr) :
    m.refuses w a = m'.refuses w a := by
  simp only [refuses, h]

theorem load_byte (m : FlatMemory) (x : RV64Ptr) : m.load .byte x =
    if m.mapped x then .ok (m.read .byte x) else .error (.invalidAddress "Device not found") := by
  have hx : x + BitVec.ofNat 64 0 = x := BitVec.add_zero x
  unfold load refuses
  simp only [Width.size, Nat.mod_one, ne_eq, not_true_eq_false, if_false, List.range_one,
    List.all_cons, List.all_nil, Bool.and_true, hx]
  by_cases h : m.mapped x = true <;> simp [h]

theorem byte_read (m : FlatMemory) (x : RV64Ptr) :
    LittleEndian.byte (n := 1) (m.read .byte x) 0 = m.bytes x :=
  (LittleEndian.byte_word (n := 1) _ Nat.one_pos).trans (congrArg m.bytes (BitVec.add_zero x))

theorem contents_eq_iff (m m' : FlatMemory) :
    Memory.contents m = Memory.contents m' ↔
      m.mapped = m'.mapped ∧ ∀ x, m.mapped x = true → m.bytes x = m'.bytes x := by
  constructor
  · intro h
    have hb : ∀ x, m.load .byte x = m'.load .byte x := fun x => congrFun (congrFun h .byte) x
    have hm : ∀ x, m.mapped x = m'.mapped x := by
      intro x
      have hx := hb x
      rw [load_byte, load_byte] at hx
      cases h1 : m.mapped x <;> cases h2 : m'.mapped x <;> simp [h1, h2] at hx ⊢
    refine ⟨funext hm, fun x hx => ?_⟩
    have hr := hb x
    rw [load_byte, load_byte, if_pos hx, if_pos (hm x ▸ hx)] at hr
    rw [← byte_read m x, ← byte_read m' x, Except.ok.inj hr]
  · rintro ⟨hm, hb⟩
    funext w a
    change m.load w a = m'.load w a
    unfold load
    rw [← refuses_congr hm]
    cases hr : m.refuses w a with
    | some e => rfl
    | none => exact congrArg Except.ok (read_congr fun i hi => hb _ ((refuses_eq_none.mp hr).2 i hi))

theorem store_contents_congr {m m' : FlatMemory} (w : Width) (a : RV64Ptr)
    (v : BitVec (8 * w.size)) (h : Memory.contents m = Memory.contents m') :
    (m.store w a v).1 = (m'.store w a v).1 ∧
      Memory.contents (m.store w a v).2 = Memory.contents (m'.store w a v).2 := by
  obtain ⟨hm, hb⟩ := (contents_eq_iff m m').mp h
  unfold store
  rw [← refuses_congr hm]
  cases m.refuses w a with
  | some e => exact ⟨rfl, h⟩
  | none =>
    refine ⟨rfl, (contents_eq_iff _ _).mpr ⟨hm, fun x hx => ?_⟩⟩
    change (if _ then _ else _) = (if _ then _ else _)
    rw [hb x hx]

theorem store_contents_apart (m : FlatMemory) (w : Width) {a b : RV64Ptr}
    (v : BitVec (8 * w.size)) (h : Memory.Apart a w.size b 4) :
    Memory.contents (m.store w a v).2 .word b = Memory.contents m .word b := by
  unfold store
  cases m.refuses w a with
  | some e => rfl
  | none =>
    change (m.write w a v).load .word b = m.load .word b
    have hr : (m.write w a v).read .word b = m.read .word b :=
      read_congr fun j hj => write_bytes_apart m w v fun i hi => h i hi j hj
    unfold load
    rw [hr, refuses_congr (write_mapped m w a v)]

instance : LawfulMemory FlatMemory where
  load_contents _ _ _ := rfl
  fetch_contents _ _ := rfl
  fetch_eq _ _ := rfl
  store_congr _ _ w a v h := store_contents_congr w a v h
  store_apart m w _ _ v h := store_contents_apart m w v h

end FlatMemory

end Besm.Mem
