import Besm.Memory.Acceptance

namespace Besm.Mem

open Besm.Lib Besm.Lib.Transition Besm.Util

inductive Access
  | load (w : Width) (address : RV64Ptr)
  | store (w : Width) (address : RV64Ptr) (value : BitVec (8 * w.size))

def Access.byteAfter (x : RV64Ptr) (old : BitVec 8) : Access → BitVec 8
  | .load _ _ => old
  | .store w a v => if (x - a).toNat < w.size then LittleEndian.byte v (x - a).toNat else old

/-- The byte that was stored last at `x`, and zero before that. -/
def lastByte (history : List Access) (x : RV64Ptr) : BitVec 8 :=
  history.foldl (Access.byteAfter x) 0

theorem lastByte_append (history : List Access) (access : Access) (x : RV64Ptr) :
    lastByte (history ++ [access]) x = access.byteAfter x (lastByte history x) := by
  simp [lastByte]

namespace PhysMem

variable {m m' : PhysMem}

/-- An access that succeeds, with all its bytes in one range. -/
inductive Accepted : PhysMem → List Access → PhysMem → Prop
  | load {m m' : PhysMem} {w : Width} {a : RV64Ptr} {v : BitVec (8 * w.size)}
      (h : m.load w a = (.ok v, m')) (hin : ∃ e ∈ m.devices, Within e a w.size) :
      Accepted m [.load w a] m'
  | store {m m' : PhysMem} {w : Width} {a : RV64Ptr} {v : BitVec (8 * w.size)}
      (h : m.store w a v = (.ok (), m')) (hin : ∃ e ∈ m.devices, Within e a w.size) :
      Accepted m [.store w a v] m'

def WidePages (m : PhysMem) : Prop := ∀ e ∈ m.devices, 8 ≤ (m.rams e.2).pageSize.toNat

theorem Evolves.widePages (h : m.Evolves m') (hw : m.WidePages) : m'.WidePages := by
  intro e he
  rw [h.devices] at he
  rw [h.sizes]
  exact hw e he

theorem widePages_build {b : PhysMemBuilder} {calls : List MapRAM} (hb : b.Mapped calls)
    (host : Host) (hpage : ∀ c ∈ calls, 8 ≤ c.ramPageSize.toNat) : (b.build host).WidePages := by
  intro e he
  obtain ⟨c, hc, -, -, hsize, -⟩ := rams_build hb host he
  rw [hsize]
  exact hpage c hc

/-- The memory holds, in every range, what the history stored there last. -/
structure Holds (history : List Access) (m : PhysMem) : Prop where
  clean : m.Clean
  granted : m.Granted
  disjoint : m.Disjoint
  wide : m.WidePages
  byteIn : ∀ e ∈ m.devices, ∀ x, e.1.contains x = true → m.byteIn e x = lastByte history x

theorem holds_build {b : PhysMemBuilder} {calls : List MapRAM} {host : Host}
    (h : PhysMemBuilder.empty.mapRAMs calls = .ok b) (hd : (b.build host).Disjoint)
    (hpage : ∀ c ∈ calls, 8 ≤ c.ramPageSize.toNat) (hg : host.Grants calls) :
    Holds [] (b.build host) := by
  have hb := PhysMemBuilder.mapped_of_empty h
  refine ⟨clean_build hb host, granted_build hb hg, hd, widePages_build hb host hpage,
    fun e he x _ => ?_⟩
  obtain ⟨-, -, -, -, -, -, -, hpages⟩ := rams_build hb host he
  exact RAM.byteAt_absent (congrFun hpages _)

theorem Holds.fits {history : List Access} (h : Holds history m) {e : Mapping}
    (he : e ∈ m.devices) {w : Width} {a : RV64Ptr} (hal : AlignedIn e w a) :
    ((m.rams e.2).getPageOffset (a - e.1.leftBorder)).toNat + w.size ≤
      (m.rams e.2).pageSize.toNat :=
  RAM.aligned_fits hal (Nat.le_trans w.size_le (h.wide e he))

theorem Holds.load {history : List Access} (h : Holds history m) {w : Width} {a : RV64Ptr}
    {v : BitVec (8 * w.size)} (hl : (m.load w a).1 = .ok v)
    (hin : ∃ e ∈ m.devices, Within e a w.size) :
    v = LittleEndian.word w.size fun i => lastByte history (a + BitVec.ofNat 64 i) := by
  obtain ⟨e, he, hwithin⟩ := hin
  have ha := hwithin.contains w.size_pos
  obtain ⟨-, d, hd, hda, hal⟩ | ⟨⟨x, hx, -⟩, -⟩ := load_outcome h.clean.toWired w a
  · obtain rfl := h.disjoint e he d hd a ha hda
    rw [load_spec h.clean.toWired h.disjoint he w ha hal (h.fits he hal)] at hl
    rw [← Except.ok.inj hl]
    exact LittleEndian.word_congr fun i hi => h.byteIn e he _ (hwithin i hi)
  · exact absurd (hl.symm.trans hx) nofun

theorem Accepted.evolves {accesses : List Access} (hw : m.Wired) (hg : m.Granted)
    (h : Accepted m accesses m') : m.Evolves m' := by
  cases h with
  | @load _ w a v h =>
    have hev := evolves_load hw w a
    rwa [h] at hev
  | @store _ w a v h =>
    have hev := evolves_store hw hg w a v
    rwa [h] at hev

theorem Accepted.holds {history accesses : List Access} (hm : Holds history m)
    (h : Accepted m accesses m') (hinside : m'.PagesInside) :
    Holds (history ++ accesses) m' := by
  have hw := hm.clean.toWired
  cases h with
  | @load _ w a v h hin =>
    obtain ⟨e, he, -, hl⟩ | ⟨-, hl⟩ := load_cases hm.clean.cached w a
    · obtain rfl := congrArg Prod.snd (h.symm.trans hl)
      refine ⟨hm.clean.remember he, hm.granted, hm.disjoint, hm.wide, fun d hd x hx => ?_⟩
      rw [lastByte_append]
      exact hm.byteIn d hd x hx
    · exact absurd (congrArg Prod.fst (h.symm.trans hl)) nofun
  | @store _ w a v h hin =>
    obtain ⟨e, he, hwithin⟩ := hin
    have ha := hwithin.contains w.size_pos
    have hal : AlignedIn e w a := by
      obtain ⟨-, d, hd, hda, hal⟩ | ⟨⟨x, hx, -⟩, -⟩ := store_outcome hw hm.granted w a v
      · obtain rfl := hm.disjoint e he d hd a ha hda
        exact hal
      · exact absurd (congrArg Prod.fst h.symm |>.trans hx) nofun
    obtain ⟨m₁, hs, hu⟩ := store_spec hm.clean hm.granted hm.disjoint he w ha hal (hm.fits he hal) v
    obtain rfl := congrArg Prod.snd (h.symm.trans hs)
    refine ⟨hu.clean, hu.granted hm.granted, hu.disjoint hm.disjoint, hu.widePages hm.wide,
      fun d hd x hx => ?_⟩
    rw [hu.devices] at hd
    rw [hu.byteIn hinside d hd, lastByte_append, Access.byteAfter]
    by_cases hlt : (x - a).toNat < w.size
    · have hde : d = e := hm.disjoint d hd e he x hx (contains_of_sub_lt hwithin hlt)
      rw [if_pos ⟨hde, hlt⟩, if_pos hlt]
    · rw [if_neg fun hand => hlt hand.2, if_neg hlt]
      exact hm.byteIn d hd x hx

/-- Pages that lie in their chunks in the end have done so all along. -/
theorem holds_run {history accesses : List Access} (hm : Holds history m)
    (h : Run Accepted m accesses m') (hinside : m'.PagesInside) :
    Holds (history ++ accesses) m' := by
  induction h with
  | refl => rwa [List.append_nil]
  | tail hrun hstep ih =>
    rw [← List.append_assoc]
    have hev := hrun.invariant (I := m.Evolves)
      (fun _ _ _ hn hs => hn.trans (hs.evolves hn.wired (hn.granted hm.granted)))
      (.refl hm.clean.toWired)
    exact hstep.holds (ih ((hstep.evolves hev.wired (hev.granted hm.granted)).inside hinside)) hinside

/-- After any history of accepted accesses, a load returns the bytes stored last,
from whatever device was accessed before, and leaves all other loads alone. -/
theorem load_last_bytes {calls : List MapRAM} {b : PhysMemBuilder} {host : Host}
    (h : PhysMemBuilder.empty.mapRAMs calls = .ok b) (hd : (b.build host).Disjoint)
    (hpage : ∀ c ∈ calls, 8 ≤ c.ramPageSize.toNat) (hg : host.Grants calls)
    {history : List Access} (hm : Run Accepted (b.build host) history m)
    (hinside : m.PagesInside) {w : Width} {a : RV64Ptr}
    {v : BitVec (8 * w.size)} (hl : m.load w a = (.ok v, m'))
    (hin : ∃ e ∈ m.devices, Within e a w.size) :
    v = (LittleEndian.word w.size fun i => lastByte history (a + BitVec.ofNat 64 i)) ∧
      (∀ n : PhysMem, n.Cached → n.devices = m.devices → n.rams = m.rams → n.host = m.host →
        (n.load w a).1 = .ok v) ∧
      ∀ w' a', (m'.load w' a').1 = (m.load w' a').1 := by
  have hholds := holds_run (holds_build h hd hpage hg) hm hinside
  rw [List.nil_append] at hholds
  have hfst : (m.load w a).1 = .ok v := by rw [hl]
  refine ⟨hholds.load hfst hin, fun n hn hdevices hrams hhost => ?_, fun w' a' => ?_⟩
  · rw [load_congr hholds.clean.cached hn hholds.disjoint hdevices hrams hhost, hfst]
  · have hsnd : (m.load w a).2 = m' := by rw [hl]
    rw [← hsnd]
    exact load_load hholds.clean.cached hholds.disjoint w w' a a'

def large : List MapRAM := [⟨0, 0x2000, 0x2000, 0x2000⟩]

def largeBuilder : PhysMemBuilder where
  devices := [(⟨0, 0x2000⟩, 0)]
  rams :=
    [{ ramSize := 0x2000
       pageSize := 0x2000
       chunkSize := 0x2000
       ramSize_ne_zero := by decide
       pageSize_ne_zero := by decide
       pageSize_pow2 := by decide
       chunk_ne_zero := by decide
       chunks := []
       pagemap := fun _ => none }]

def largeMemory : PhysMem :=
  (((largeBuilder.build .willing).store .word 0x1000 0x04030201).2.store .byte 0x1001 0xAB).2

theorem inside_largeMemory : largeMemory.PagesInside := by
  intro e he id p hp
  obtain rfl := List.mem_singleton.mp he
  have hpages : (largeMemory.rams 0).pagemap =
      Function.update (fun _ => none) (0 : PageId) (some (some (⟨1, 0⟩ : HostPtr))) := rfl
  rw [hpages] at hp
  by_cases hid : id = 0
  · rw [hid, Function.update_self] at hp
    obtain rfl := Option.some.inj (Option.some.inj hp)
    exact ⟨_, List.mem_cons_self, rfl, Nat.le_refl _, by decide +kernel⟩
  · rw [Function.update_of_ne hid] at hp
    cases hp

theorem load_last_bytes_large :
    PhysMemBuilder.empty.mapRAMs large = .ok largeBuilder ∧
      (largeMemory.load .hWord 0x1000).1 = .ok 0xAB01 ∧
      (0xAB01 : BitVec 16) = LittleEndian.word 2 fun i =>
        lastByte [.store .word 0x1000 0x04030201, .store .byte 0x1001 0xAB]
          (0x1000 + BitVec.ofNat 64 i) := by
  have hb : PhysMemBuilder.empty.mapRAMs large = .ok largeBuilder := rfl
  have hgrants : Host.willing.Grants large :=
    ⟨fun _ => rfl, List.forall_mem_singleton.mpr (by decide)⟩
  have hl : largeMemory.load .hWord 0x1000 = (.ok 0xAB01, (largeMemory.load .hWord 0x1000).2) :=
    Prod.ext (by decide +kernel) rfl
  refine ⟨hb, congrArg Prod.fst hl, ?_⟩
  have hword : (largeBuilder.build .willing).store .word 0x1000 0x04030201 =
      (.ok (), ((largeBuilder.build .willing).store .word 0x1000 0x04030201).2) :=
    Prod.ext (by decide +kernel) rfl
  have hbyte : ((largeBuilder.build .willing).store .word 0x1000 0x04030201).2.store .byte 0x1001
      0xAB = (.ok (), largeMemory) := Prod.ext (by decide +kernel) rfl
  have hrun : Run Accepted (largeBuilder.build .willing)
      ([.store .word 0x1000 0x04030201] ++ [.store .byte 0x1001 0xAB]) largeMemory :=
    (Run.single (.store hword (by decide +kernel))).tail (.store hbyte (by decide +kernel))
  have hdisjoint := PhysMemBuilder.disjoint_build .willing (PhysMemBuilder.mapped_of_empty hb)
    (PhysMemBuilder.apart_singleton _)
  exact (load_last_bytes hb hdisjoint (by decide) hgrants hrun inside_largeMemory hl
    (by decide +kernel)).1

end PhysMem

end Besm.Mem
