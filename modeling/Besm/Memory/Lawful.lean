import Besm.Memory.Counting

namespace Besm.Mem

open Besm.Lib Besm.Lib.Transition Besm.Util

namespace PhysMem

variable {m m' : PhysMem} {e : Mapping} {w : Width} {a : RV64Ptr}

/-- Apart devices on wide pages that all have room in the chunks, with a host that
gives them what they ask for. -/
structure Regular (m : PhysMem) : Prop extends Tidy m where
  disjoint : m.Disjoint
  wide : m.WidePages

theorem Evolves.regular (h : m.Evolves m') (hr : m.Regular) (ht : m'.Tidy) : m'.Regular :=
  ⟨ht, h.disjoint hr.disjoint, h.widePages hr.wide⟩

theorem Step.regular (hr : m.Regular) (h : Step m m') : m'.Regular :=
  (h.evolves hr.toWired hr.granted).regular hr (h.tidy hr.toTidy)

theorem Regular.load (hr : m.Regular) (w : Width) (a : RV64Ptr) : (m.load w a).2.Regular :=
  (Step.load m w a).regular hr

theorem Regular.store (hr : m.Regular) (w : Width) (a : RV64Ptr) (v : BitVec (8 * w.size)) :
    (m.store w a v).2.Regular :=
  (Step.store m w a v).regular hr

/-- What was built with wide pages, whole ones to each chunk or to a device that has
room in one chunk, stays regular, whatever is done with it. -/
theorem regular_of_reach {b : PhysMemBuilder} {calls : List MapRAM} {host : Host}
    (h : PhysMemBuilder.empty.mapRAMs calls = .ok b) (hg : host.Grants calls)
    (hd : (b.build host).Disjoint) (hpage : ∀ c ∈ calls, 8 ≤ c.ramPageSize.toNat)
    (hroom : ∀ c ∈ calls, c.ramPageSize.toNat ∣ c.mmapSize host ∨
      (c.ramPageSize.toNat ∣ c.ramSize.toNat ∧ c.ramSize.toNat ≤ c.mmapSize host))
    (hm : Reach (· = b.build host) Step m) : m.Regular := by
  have hb := PhysMemBuilder.mapped_of_empty h
  have hwide := widePages_build hb host hpage
  have hroomy : (b.build host).Roomy := by
    intro e he _
    obtain ⟨c, hc, -, hram, hsize, hchunk, -⟩ := rams_build hb host he
    rw [RAM.Roomy, hram, hsize, RAM.mmapSize, hchunk]
    exact hroom c hc
  exact hm.invariant (fun s hs => hs ▸ ⟨tidy_build hb hg hwide.spillFree hroomy, hd, hwide⟩)
    fun s t hs hst => hst.regular hs

theorem Regular.fits (hr : m.Regular) (he : e ∈ m.devices) (hal : AlignedIn e w a) :
    ((m.rams e.2).getPageOffset (a - e.1.leftBorder)).toNat + w.size ≤
      (m.rams e.2).pageSize.toNat :=
  RAM.aligned_fits hal (Nat.le_trans w.size_le (hr.wide e he))

inductive Loaded (m : PhysMem) (w : Width) (a : RV64Ptr) :
    Except MemError (BitVec (8 * w.size)) → Prop
  | unmapped (h : ∀ e ∈ m.devices, e.1.contains a = false) :
      Loaded m w a (.error (.invalidAddress "Device not found"))
  | misaligned {e : Mapping} (he : e ∈ m.devices) (ha : e.1.contains a = true)
      (hal : ¬AlignedIn e w a) : Loaded m w a (.error (.unalignedAddress "RAM unaligned access"))
  | word {e : Mapping} (he : e ∈ m.devices) (ha : e.1.contains a = true) (hal : AlignedIn e w a) :
      Loaded m w a (.ok (LittleEndian.word w.size fun i => m.byteIn e (a + BitVec.ofNat 64 i)))

theorem Regular.loaded (hr : m.Regular) (w : Width) (a : RV64Ptr) : m.Loaded w a (m.load w a).1 := by
  obtain ⟨e, he, ha, hl⟩ | ⟨hnone, hl⟩ := load_cases hr.cached w a
  · by_cases hal : AlignedIn e w a
    · rw [load_spec hr.toWired hr.disjoint he w ha hal (hr.fits he hal)]
      exact .word he ha hal
    · rw [hl]
      obtain ⟨-, hm⟩ | ⟨hal', -⟩ := RAM.load_cases (m.rams e.2) m.host w (a - e.1.leftBorder)
      · rw [hm]
        exact .misaligned he ha hal
      · exact absurd hal' hal
  · rw [hl]
    exact .unmapped hnone

inductive StoredAs (m : PhysMem) (w : Width) (a : RV64Ptr) (v : BitVec (8 * w.size)) :
    Except MemError Unit × PhysMem → Prop
  | refused {error : MemError} {m' : PhysMem} (h : m.Loaded w a (.error error))
      (hdevices : m'.devices = m.devices) (hrams : m'.rams = m.rams) (hhost : m'.host = m.host) :
      StoredAs m w a v (.error error, m')
  | written {e : Mapping} {m' : PhysMem} (he : e ∈ m.devices) (ha : e.1.contains a = true)
      (hal : AlignedIn e w a) (hu : m.Updated e a w.size (LittleEndian.byte v) m') :
      StoredAs m w a v (.ok (), m')

theorem Regular.storedAs (hr : m.Regular) (w : Width) (a : RV64Ptr) (v : BitVec (8 * w.size)) :
    m.StoredAs w a v (m.store w a v) := by
  obtain ⟨e, he, ha, hs⟩ | ⟨hnone, hs⟩ := store_cases hr.cached w a v
  · by_cases hal : AlignedIn e w a
    · obtain ⟨m', hstore, hu⟩ := store_spec hr.toClean hr.granted hr.disjoint he w ha hal
        (hr.fits he hal) v
      rw [hstore]
      exact .written he ha hal hu
    · obtain ⟨-, hram⟩ | ⟨hal', -⟩ :=
        RAM.store_cases (hr.wired e he) (hr.granted e he) w (a - e.1.leftBorder) v
      · rw [hs _ _ _ hram]
        exact .refused (.misaligned he ha hal) rfl (Function.update_eq_self _ _) rfl
      · exact absurd hal' hal
  · rw [hs]
    exact .refused (.unmapped hnone) rfl rfl rfl

theorem Loaded.unique {r : Except MemError (BitVec (8 * w.size))} (h : m.Loaded w a r)
    (hr : m.Regular) : (m.load w a).1 = r := by
  have hl := hr.loaded w a
  generalize (m.load w a).1 = x at hl ⊢
  cases h with
  | unmapped hnone =>
    cases hl with
    | unmapped => rfl
    | misaligned he ha => exact absurd ((hnone _ he).symm.trans ha) Bool.false_ne_true
    | word he ha => exact absurd ((hnone _ he).symm.trans ha) Bool.false_ne_true
  | misaligned he ha hal =>
    cases hl with
    | unmapped hnone => exact absurd ((hnone _ he).symm.trans ha) Bool.false_ne_true
    | misaligned => rfl
    | word he' ha' hal' => exact absurd (hr.disjoint _ he' _ he a ha' ha ▸ hal') hal
  | word he ha hal =>
    cases hl with
    | unmapped hnone => exact absurd ((hnone _ he).symm.trans ha) Bool.false_ne_true
    | misaligned he' ha' hal' => exact absurd (hr.disjoint _ he _ he' a ha ha' ▸ hal) hal'
    | word he' ha' => rw [hr.disjoint _ he _ he' a ha ha']

theorem byteIn_of_load (hr : m.Regular) (hr' : m'.Regular) (hdevices : m'.devices = m.devices)
    (h : (m.load w a).1 = (m'.load w a).1) (he : e ∈ m.devices) (ha : e.1.contains a = true)
    (hal : AlignedIn e w a) {i : Nat} (hi : i < w.size) :
    m.byteIn e (a + BitVec.ofNat 64 i) = m'.byteIn e (a + BitVec.ofNat 64 i) := by
  rw [(Loaded.word he ha hal).unique hr,
    (Loaded.word (m := m') (hdevices ▸ he) ha hal).unique hr'] at h
  have hword := congrArg (fun v => LittleEndian.byte v i) (Except.ok.inj h)
  simpa only [LittleEndian.byte_word _ hi] using hword

theorem Regular.store_fst (hr : m.Regular) (w : Width) (a : RV64Ptr) (v : BitVec (8 * w.size)) :
    (m.store w a v).1 = (m.load w a).1.map fun _ => () := by
  have hs := hr.storedAs w a v
  generalize m.store w a v = r at hs ⊢
  cases hs with
  | refused h => rw [h.unique hr]; rfl
  | written he ha hal => rw [(Loaded.word he ha hal).unique hr]; rfl

/-- The bytes after a store depend on the bytes before it only. -/
theorem byteIn_store_congr (hr : m.Regular) (hr' : m'.Regular) (hdevices : m'.devices = m.devices)
    (v : BitVec (8 * w.size)) (hload : (m.load w a).1 = (m'.load w a).1) (he : e ∈ m.devices)
    {x : RV64Ptr} (hx : m.byteIn e x = m'.byteIn e x) :
    (m.store w a v).2.byteIn e x = (m'.store w a v).2.byteIn e x := by
  have hfst : (m.store w a v).1 = (m'.store w a v).1 := by
    rw [hr.store_fst, hr'.store_fst, hload]
  have hs := hr.storedAs w a v
  have hs' := hr'.storedAs w a v
  have hin := (hr.store w a v).inside
  have hin' := (hr'.store w a v).inside
  generalize m.store w a v = r at hfst hs hin ⊢
  generalize m'.store w a v = r' at hfst hs' hin' ⊢
  cases hs with
  | refused h hd hrams hhost =>
    cases hs' with
    | refused h' hd' hrams' hhost' =>
      simp only [PhysMem.byteIn, hrams, hhost, hrams', hhost'] at hx ⊢
      exact hx
    | written => cases hfst
  | written hd ha hal hu =>
    cases hs' with
    | refused => cases hfst
    | written hd' ha' hal' hu' =>
      obtain rfl := hr.disjoint _ hd _ (hdevices ▸ hd') a ha ha'
      rw [hu.byteIn hin e he, hu'.byteIn hin' e (hdevices ▸ he), hx]

theorem load_store_congr (hr : m.Regular) (hr' : m'.Regular) (hdevices : m'.devices = m.devices)
    (v : BitVec (8 * w.size)) (hload : ∀ w a, (m.load w a).1 = (m'.load w a).1) (w' : Width)
    (b : RV64Ptr) :
    ((m.store w a v).2.load w' b).1 = ((m'.store w a v).2.load w' b).1 := by
  have hd := (evolves_store hr.toWired hr.granted w a v).devices
  have hd' := (evolves_store hr'.toWired hr'.granted w a v).devices
  have hl := (hr.store w a v).loaded w' b
  have hr₁ := hr'.store w a v
  generalize ((m.store w a v).2.load w' b).1 = x at hl ⊢
  cases hl with
  | unmapped hnone =>
    exact (Loaded.unique (.unmapped fun e he => hnone e (by rw [hd, ← hdevices, ← hd']; exact he))
      hr₁).symm
  | misaligned he hb hal =>
    exact (Loaded.unique (.misaligned (by rw [hd', hdevices, ← hd]; exact he) hb hal) hr₁).symm
  | word he hb hal =>
    rw [hd] at he
    rw [(Loaded.word (by rw [hd', hdevices]; exact he) hb hal).unique hr₁]
    refine congrArg Except.ok (LittleEndian.word_congr fun i hi => ?_)
    exact byteIn_store_congr hr hr' hdevices v (hload w a) he
      (byteIn_of_load hr hr' hdevices (hload w' b) he hb hal hi)

theorem load_store_apart (hr : m.Regular) (v : BitVec (8 * w.size)) (w' : Width) {b : RV64Ptr}
    (h : Memory.Apart a w.size b w'.size) :
    ((m.store w a v).2.load w' b).1 = (m.load w' b).1 := by
  have hd := (evolves_store hr.toWired hr.granted w a v).devices
  have hr₁ := hr.store w a v
  have hl := hr.loaded w' b
  generalize (m.load w' b).1 = x at hl ⊢
  cases hl with
  | unmapped hnone => exact Loaded.unique (.unmapped fun e he => hnone e (hd ▸ he)) hr₁
  | misaligned he hb hal => exact Loaded.unique (.misaligned (by rw [hd]; exact he) hb hal) hr₁
  | @word e he hb hal =>
    rw [(Loaded.word (by rw [hd]; exact he) hb hal).unique hr₁]
    refine congrArg Except.ok (LittleEndian.word_congr fun i hi => ?_)
    have hs := hr.storedAs w a v
    have hin := hr₁.inside
    generalize m.store w a v = r at hs hin ⊢
    cases hs with
    | refused _ _ hrams hhost => simp only [PhysMem.byteIn, hrams, hhost]
    | written hd₀ ha hal hu =>
      rw [hu.byteIn hin e he, if_neg]
      rintro ⟨-, hlt⟩
      exact h _ hlt i hi (add_toNat_sub _ _)

end PhysMem

/-- A regular memory of the devices it was built with, accessed through the MMU. -/
structure Regulated (devices : PhysMemDeviceMap) where
  mem : PhysMem
  devices_eq : mem.devices = devices
  regular : mem.Regular

namespace Regulated

open PhysMem

variable {devices : PhysMemDeviceMap}

def load (m : Regulated devices) (w : Width) (a : RV64Ptr) :
    Except MemError (BitVec (8 * w.size)) × Regulated devices :=
  ((m.mem.load w a).1, ⟨(m.mem.load w a).2,
    (evolves_load m.regular.toWired w a).devices.trans m.devices_eq, m.regular.load w a⟩)

def store (m : Regulated devices) (w : Width) (a : RV64Ptr) (v : BitVec (8 * w.size)) :
    Except MemError Unit × Regulated devices :=
  ((m.mem.store w a v).1, ⟨(m.mem.store w a v).2,
    (evolves_store m.regular.toWired m.regular.granted w a v).devices.trans m.devices_eq,
    m.regular.store w a v⟩)

instance : Memory (Regulated devices) where
  fetchWord m a := m.load .word a
  load := load
  store := store

theorem load_contents (m : Regulated devices) (w : Width) (a : RV64Ptr) :
    Memory.contents (m.load w a).2 = Memory.contents m := by
  funext w' a'
  exact load_load m.regular.cached m.regular.disjoint w w' a a'

instance : LawfulMemory (Regulated devices) where
  load_contents := load_contents
  fetch_contents m a := load_contents m .word a
  fetch_eq _ _ := rfl
  store_congr m m' w a v h := by
    have hload : ∀ w a, (m.mem.load w a).1 = (m'.mem.load w a).1 :=
      fun w a => congrFun (congrFun h w) a
    refine ⟨?_, ?_⟩
    · change (m.mem.store w a v).1 = (m'.mem.store w a v).1
      rw [m.regular.store_fst, m'.regular.store_fst, hload]
    · funext w' b
      exact load_store_congr m.regular m'.regular (m'.devices_eq.trans m.devices_eq.symm) v hload w' b
  store_apart m w _ _ v h := load_store_apart m.regular v .word h

end Regulated

end Besm.Mem
