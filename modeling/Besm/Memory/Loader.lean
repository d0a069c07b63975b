import Besm.Memory.Stack
import Besm.Util.ElfParser

namespace Besm.Mem

open Besm.Util

inductive LoadError
  | elf (e : ElfError)
  | memory (e : MemError)
  deriving DecidableEq, Repr

def covers (s : LoadableSegment) (x : RV64Ptr) : Prop := (x - s.address).toNat < s.size.toNat

instance (s : LoadableSegment) (x : RV64Ptr) : Decidable (covers s x) :=
  inferInstanceAs (Decidable ((x - s.address).toNat < s.size.toNat))

/-- The bytes of an image: those of the last segment that covers an address,
and those that were there where none does. -/
def overlay (segments : List LoadableSegment) (bytes : RV64Ptr → BitVec 8) (x : RV64Ptr) : BitVec 8 :=
  segments.foldl (fun byte s => if covers s x then s.data (x - s.address).toNat else byte) (bytes x)

theorem overlay_cons (s : LoadableSegment) (segments : List LoadableSegment)
    (bytes : RV64Ptr → BitVec 8) (x : RV64Ptr) : overlay (s :: segments) bytes x =
      overlay segments (fun x => if covers s x then s.data (x - s.address).toNat else bytes x) x :=
  rfl

theorem overlay_congr (segments : List LoadableSegment) {bytes bytes' : RV64Ptr → BitVec 8}
    {x : RV64Ptr} (h : bytes x = bytes' x) : overlay segments bytes x = overlay segments bytes' x := by
  rw [overlay, overlay, h]

theorem overlay_of_uncovered {segments : List LoadableSegment} (bytes : RV64Ptr → BitVec 8)
    {x : RV64Ptr} (h : ∀ s ∈ segments, ¬covers s x) : overlay segments bytes x = bytes x := by
  induction segments generalizing bytes with
  | nil => rfl
  | cons s segments ih =>
    rw [overlay_cons, ih _ fun t ht => h t (List.mem_cons_of_mem _ ht)]
    exact if_neg (h s List.mem_cons_self)

def MappedMemory.overlay (n : MappedMemory) (segments : List LoadableSegment) : MappedMemory :=
  ⟨{ n.flat with bytes := Mem.overlay segments n.flat.bytes }⟩

namespace PhysMem

def storeSegments (m : PhysMem) : List LoadableSegment → Option (Except MemError Unit × PhysMem)
  | [] => some (.ok (), m)
  | s :: segments =>
    match m.storeContArea s.address s.data s.size with
    | none => none
    | some (.error e, m) => some (.error e, m)
    | some (.ok (), m) => m.storeSegments segments

def loadElf (m : PhysMem) (load : String → Option Elfio) (elfPath : String) :
    Option (Except LoadError Unit × PhysMem) :=
  match ElfParser.createParser load elfPath with
  | .error e => some (.error (.elf e), m)
  | .ok parser =>
    match m.storeSegments parser.getLoadableSegments.1 with
    | none => none
    | some (.error e, m) => some (.error (.memory e), m)
    | some (.ok (), m) => some (.ok (), m)

variable {m m' : PhysMem} {segments : List LoadableSegment}

def Mapped (m : PhysMem) (s : LoadableSegment) : Prop :=
  ∀ x, covers s x → ∃ e ∈ m.devices, e.1.contains x = true

structure Loads (m : PhysMem) (segments : List LoadableSegment) (m' : PhysMem) : Prop
    extends Evolves m m' where
  tidy : m'.Tidy
  byteIn : ∀ d ∈ m.devices, ∀ x, d.1.contains x = true →
    m'.byteIn d x = overlay segments (m.byteIn d) x

theorem mapped_of_offsets {s : LoadableSegment} (h : ∀ i < s.size.toNat, ∃ e ∈ m.devices,
    e.1.contains (s.address + BitVec.ofNat 64 i) = true) : m.Mapped s := by
  intro x hx
  have hin := h _ hx
  rwa [add_toNat_sub] at hin

theorem Stored.loads {s : LoadableSegment} (h : m.Stored s.address s.data s.size.toNat m')
    (ht : m'.Tidy) : m.Loads [s] m' ∧ m.Mapped s :=
  ⟨⟨h.toEvolves, ht, h.byteIn ht.inside⟩, mapped_of_offsets fun i hi =>
    (h.mapped i hi).imp fun _ hd => ⟨hd.1, hd.2.1⟩⟩

theorem Loads.cons {s : LoadableSegment} {m₁ : PhysMem} (h : m.Loads [s] m₁)
    (h' : m₁.Loads segments m') : m.Loads (s :: segments) m' where
  toEvolves := h.toEvolves.trans h'.toEvolves
  tidy := h'.tidy
  byteIn d hd x hx := by
    rw [h'.byteIn d (h.devices ▸ hd) x hx, overlay_cons]
    exact overlay_congr segments (h.byteIn d hd x hx)

theorem storeSegments_spec (ht : m.Tidy) (hd : m.Disjoint) (hp : m.WholePages)
    (segments : List LoadableSegment) :
    (∃ m', m.storeSegments segments = some (.ok (), m') ∧ m.Loads segments m' ∧
      ∀ s ∈ segments, m.Mapped s) ∨
    (∃ m', m.storeSegments segments = some (.error (.invalidAddress "Device not found"), m') ∧
      ∃ s ∈ segments, ¬m.Mapped s) := by
  induction segments generalizing m with
  | nil => exact .inl ⟨m, rfl, ⟨.refl ht.toWired, ht, fun _ _ _ _ => rfl⟩, by simp⟩
  | cons s segments ih =>
    have hspec := storeContAreaLoop_spec ht.granted hd hp (stored_zero ht.toClean s.address s.data)
      (Nat.zero_le s.size.toNat) (Nat.le_add_right _ 0)
    unfold storeSegments storeContArea
    obtain ⟨m₁, hs, h⟩ | ⟨m₁, hs, j, hj, hno⟩ := hspec
    · obtain ⟨hload, hmapped⟩ := h.loads ((Step.storeContArea hs).tidy ht)
      rw [hs]
      dsimp only
      have hback : ∀ t, m₁.Mapped t → m.Mapped t := fun t ht x hx => by
        rw [← h.devices]
        exact ht x hx
      obtain ⟨m', hs', h', hall⟩ | ⟨m', hs', t, ht, hun⟩ :=
        ih hload.tidy (h.disjoint hd) (h.wholePages hp)
      · exact .inl ⟨m', hs', hload.cons h',
          List.forall_mem_cons.mpr ⟨hmapped, fun t ht => hback t (hall t ht)⟩⟩
      · refine .inr ⟨m', hs', t, List.mem_cons_of_mem _ ht, fun hm => hun fun x hx => ?_⟩
        rw [h.devices]
        exact hm x hx
    · rw [hs]
      refine .inr ⟨m₁, rfl, s, List.mem_cons_self, fun hm => ?_⟩
      have hcov : covers s (s.address + BitVec.ofNat 64 j) := by
        rw [covers, toNat_add_sub _ (Nat.lt_trans hj s.size.isLt)]
        exact hj
      obtain ⟨e, he, ha⟩ := hm _ hcov
      exact absurd ((hno e he).symm.trans ha) Bool.false_ne_true

theorem Loads.flat (h : m.Loads segments m') (hmapped : ∀ s ∈ segments, m.Mapped s) :
    m'.flat = m.flat.overlay segments := by
  have hbytes : ∀ x, m'.flat.flat.bytes x = Mem.overlay segments m.flat.flat.bytes x := by
    intro x
    cases hf : m.devices.find? fun e => e.1.contains x with
    | none =>
      have hzero : m.flat.flat.bytes x = 0 := by simp only [PhysMem.flat, hf]
      have hun : ∀ s ∈ segments, ¬covers s x := by
        intro s hs hx
        obtain ⟨e, he, ha⟩ := hmapped s hs x hx
        exact absurd ha (by simpa using List.find?_eq_none.mp hf e he)
      rw [overlay_of_uncovered _ hun, hzero]
      simp only [PhysMem.flat, h.devices, hf]
    | some e =>
      have ha := List.find?_some (p := fun e : Mapping => e.1.contains x) hf
      have hold : m.flat.flat.bytes x = m.byteIn e x := by simp only [PhysMem.flat, hf]
      have hnew : m'.flat.flat.bytes x = m'.byteIn e x := by
        simp only [PhysMem.flat, h.devices, hf]
      rw [hnew, h.byteIn e (List.mem_of_find?_eq_some hf) x ha]
      exact overlay_congr segments hold.symm
  have hmap : m'.flat.flat.mapped = m.flat.flat.mapped := by simp only [PhysMem.flat, h.devices]
  exact congrArg MappedMemory.mk (FlatMemory.mk.injEq .. ▸ ⟨hmap, funext hbytes⟩)

/-- The executable is one that the parser takes, and all bytes that its loadable
segments have in the file are mapped. -/
def Loadable (m : PhysMem) (load : String → Option Elfio) (elfPath : String) (reader : Elfio) :
    Prop :=
  load elfPath = some reader ∧ ElfParser.Suits reader ∧
    ∀ s ∈ reader.segments.filterMap ElfParser.loadable, m.Mapped s

/-- An executable is loaded if it can be, and then the memory is its image over
what was there before. Otherwise the file or the address is refused. -/
theorem loadElf_spec (hr : m.Regular) (hp : m.WholePages) (load : String → Option Elfio)
    (elfPath : String) :
    (∃ reader m', m.Loadable load elfPath reader ∧ m.loadElf load elfPath = some (.ok (), m') ∧
      m.Evolves m' ∧ m'.Regular ∧
      m'.flat = m.flat.overlay (reader.segments.filterMap ElfParser.loadable)) ∨
    ((∀ reader, ¬m.Loadable load elfPath reader) ∧
      ∃ e m', m.loadElf load elfPath = some (.error e, m') ∧
        ((∃ e', e = .elf e') ∨ e = .memory (.invalidAddress "Device not found"))) := by
  unfold loadElf
  cases hparser : ElfParser.createParser load elfPath with
  | error e =>
    refine .inr ⟨?_, _, m, rfl, .inl ⟨e, rfl⟩⟩
    rintro reader ⟨hload, hsuits, -⟩
    exact nomatch hparser.symm.trans (ElfParser.createParser_ok.mpr ⟨reader, hload, hsuits, rfl⟩)
  | ok parser =>
    obtain ⟨reader, hload, hsuits, rfl⟩ := ElfParser.createParser_ok.mp hparser
    have hsegments : (ElfParser.getLoadableSegments ⟨reader, []⟩).1 =
        reader.segments.filterMap ElfParser.loadable :=
      (ElfParser.Collected.getLoadableSegments (.inl rfl)).1
    dsimp only
    rw [hsegments]
    obtain ⟨m', hs, h, hall⟩ | ⟨m', hs, s, hmem, hun⟩ := storeSegments_spec hr.toTidy hr.disjoint
      hp (reader.segments.filterMap ElfParser.loadable)
    · rw [hs]
      exact .inl ⟨reader, m', ⟨hload, hsuits, hall⟩, rfl, h.toEvolves, h.regular hr h.tidy,
        h.flat hall⟩
    · rw [hs]
      refine .inr ⟨?_, _, m', rfl, .inr rfl⟩
      rintro reader' ⟨hload', -, hall⟩
      obtain rfl := Option.some.inj (hload.symm.trans hload')
      exact hun (hall s hmem)

end PhysMem

end Besm.Mem
