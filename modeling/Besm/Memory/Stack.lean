import Besm.Memory.Alike
import Besm.Memory.Fetching
import Besm.Memory.Lawful

namespace Besm.Mem

open Besm.Lib Besm.Lib.Transition Besm.Util

namespace PhysMem

variable {m m' : PhysMem} {n : MappedMemory} {e : Mapping}

/-- Ranges whose ends are multiples of eight, and behind which no word begins in
their last page. -/
structure LaidOut (m : PhysMem) : Prop where
  straight : m.Straight .dWord
  base : Prefetcher.BaseAligned m
  noTail : Prefetcher.NoTail m

theorem Evolves.laidOut (hev : m.Evolves m') (hl : m.LaidOut) : m'.LaidOut where
  straight e he := hl.straight e (hev.devices ▸ he)
  base e he := hl.base e (hev.devices ▸ he)
  noTail := by
    intro e he
    unfold Prefetcher.pagesEnd
    rw [hev.sizes]
    exact hl.noTail e (hev.devices ▸ he)

theorem laidOut_build {b : PhysMemBuilder} {calls : List MapRAM} (hb : b.Mapped calls)
    (host : Host) (hbase : ∀ c ∈ calls, 8 ∣ c.address.toNat)
    (hpage : ∀ c ∈ calls, 8 ∣ c.ramPageSize.toNat)
    (hwhole : ∀ c ∈ calls, c.ramPageSize.toNat ∣ c.ramSize.toNat) : (b.build host).LaidOut := by
  have hw := wired_build hb host
  refine ⟨fun e he _ => ?_, fun e he => ?_, fun e he hlt v _ hin => ?_⟩ <;>
    obtain ⟨c, hc, hrange, hsize, hpages, -⟩ := rams_build hb host he
  · have hright := hw.range e he
    have hl := hbase c hc
    have hs := Nat.dvd_trans (hpage c hc) (hwhole c hc)
    rw [hright, hsize, hrange, BitVec.toNat_add]
    change 8 ∣ c.address.toNat ∧ 8 ∣ (c.address.toNat + c.ramSize.toNat) % 2 ^ 64
    exact ⟨hl, (Nat.dvd_mod_iff (by decide)).mpr (Nat.dvd_add hl hs)⟩
  · have hl := hbase c hc
    rw [hrange]
    change c.address.toNat % 4 = 0
    omega
  · obtain ⟨hge, hend, hwrap⟩ := hin
    have hleft : e.1.contains e.1.leftBorder = true :=
      contains_toNat.mpr ⟨Nat.le_refl _, BitVec.lt_def.mp hlt⟩
    have hright := rightBorder_toNat hw he hleft
    have hpos : 0 < ((b.build host).rams e.2).ramSize.toNat := by
      rw [BitVec.lt_def] at hlt
      omega
    obtain ⟨k, hk⟩ : ((b.build host).rams e.2).pageSize.toNat ∣
        ((b.build host).rams e.2).ramSize.toNat := by
      rw [hsize, hpages]
      exact hwhole c hc
    have hpagesEnd : Prefetcher.pagesEnd (b.build host) e = e.1.rightBorder.toNat := by
      have hp := ((b.build host).rams e.2).pageSize_pos
      obtain _ | j := k
      · omega
      · have hdiv : (((b.build host).rams e.2).pageSize.toNat * (j + 1) - 1) /
            ((b.build host).rams e.2).pageSize.toNat = j := by
          refine Nat.div_eq_of_lt_le ?_ ?_
          · rw [Nat.mul_succ, Nat.mul_comm j]
            omega
          · rw [Nat.mul_comm (j + 1)]
            omega
        rw [Prefetcher.pagesEnd, hright, hk, hdiv]
    omega

/-- A byte array that maps what the devices map, and holds what they hold. -/
structure Shows (m : PhysMem) (n : MappedMemory) : Prop where
  mapped : ∀ a, n.flat.mapped a = true ↔ ∃ e ∈ m.devices, e.1.contains a = true
  bytes : ∀ e ∈ m.devices, ∀ a, e.1.contains a = true → n.flat.bytes a = m.byteIn e a

def flat (m : PhysMem) : MappedMemory where
  flat :=
    { mapped := fun a => m.devices.any fun e => e.1.contains a
      bytes := fun a =>
        match m.devices.find? fun e => e.1.contains a with
        | some e => m.byteIn e a
        | none => 0 }

theorem shows_flat (hd : m.Disjoint) : m.Shows m.flat where
  mapped a := List.any_eq_true
  bytes e he a ha := by
    change (match m.devices.find? fun e => e.1.contains a with
      | some e => m.byteIn e a
      | none => 0) = _
    cases hf : m.devices.find? fun e => e.1.contains a with
    | none => exact absurd ha (by simpa using List.find?_eq_none.mp hf e he)
    | some d => 
      have hda := List.find?_some (p := fun e : Mapping => e.1.contains a) hf
      rw [hd d (List.mem_of_find?_eq_some hf) e he a hda ha]

theorem Shows.congr (h : m.Shows n) (hdevices : m'.devices = m.devices)
    (hrams : m'.rams = m.rams) (hhost : m'.host = m.host) : m'.Shows n where
  mapped a := by rw [h.mapped, hdevices]
  bytes e he a ha := by
    rw [h.bytes e (hdevices ▸ he) a ha, PhysMem.byteIn, PhysMem.byteIn, hrams, hhost]

theorem Regular.congr (hr : m.Regular) (hev : m.Evolves m') (hrams : m'.rams = m.rams)
    (hhost : m'.host = m.host) : m'.Regular := by
  have hc : m'.Clean := ⟨hev.wired, fun e he => by
    rw [hrams, hhost]
    exact hr.clean e (hev.devices ▸ he)⟩
  have hk : m'.Kept := ⟨hc, hev.granted hr.granted, hev.spillFree hr.spillFree⟩
  refine hev.regular hr ⟨hk, fun e he => ?_, fun e he => ?_, hev.roomy hr.roomy⟩
  · rw [hrams]
    exact hr.inside e (hev.devices ▸ he)
  · rw [hrams, hhost]
    exact hr.tallied e (hev.devices ▸ he)

theorem Straight.mono (hs : m.Straight .dWord) (w : Width) : m.Straight w := by
  intro e he hlt
  have hw : w.size ∣ Width.dWord.size := by cases w <;> decide
  obtain ⟨hl, hr⟩ := hs e he hlt
  exact ⟨Nat.dvd_trans hw hl, Nat.dvd_trans hw hr⟩

theorem straight_evolves {w : Width} (hev : m.Evolves m') (hs : m.Straight w) :
    m'.Straight w := by
  intro e he
  exact hs e (hev.devices ▸ he)

theorem alignedIn_iff (hs : m.Straight .dWord) (he : e ∈ m.devices) (w : Width) {a : RV64Ptr}
    (ha : e.1.contains a = true) : AlignedIn e w a ↔ a.toNat % w.size = 0 := by
  have hin := contains_toNat.mp ha
  obtain ⟨hl, -⟩ := hs.mono w e he (by rw [BitVec.lt_def]; omega)
  rw [AlignedIn, Prefetcher.toNat_sub_left ha, ← Nat.dvd_iff_mod_eq_zero,
    ← Nat.dvd_iff_mod_eq_zero]
  exact Nat.dvd_sub_iff_left hin.1 hl

theorem within_of_straight (hs : m.Straight .dWord) (hd : m.Disjoint) (he : e ∈ m.devices)
    {w : Width} {a : RV64Ptr} (ha : e.1.contains a = true) (hal : AlignedIn e w a) :
    Within e a w.size := by
  obtain ⟨-, d, hd', hwithin⟩ := proper_of_straight (hs.mono w) he ha hal
  obtain rfl := hd e he d hd' a ha (hwithin.contains w.size_pos)
  exact hwithin

theorem Shows.accepts (h : m.Shows n) (hs : m.Straight .dWord) (hd : m.Disjoint)
    (he : e ∈ m.devices) {w : Width} {a : RV64Ptr} (ha : e.1.contains a = true)
    (hal : AlignedIn e w a) : n.flat.refuses w a = none :=
  FlatMemory.refuses_eq_none.mpr ⟨(alignedIn_iff hs he w ha).mp hal, fun i hi =>
    (h.mapped _).mpr ⟨e, he, within_of_straight hs hd he ha hal i hi⟩⟩

theorem Shows.load (h : m.Shows n) (hr : m.Regular) (hs : m.Straight .dWord) (w : Width)
    (a : RV64Ptr) : (m.load w a).1 = n.load w a := by
  have hl := hr.loaded w a
  generalize (m.load w a).1 = r at hl ⊢
  unfold MappedMemory.load FlatMemory.load
  cases hl with
  | unmapped hnone =>
    rw [if_neg]
    rw [h.mapped]
    rintro ⟨e, he, ha⟩
    exact absurd ((hnone e he).symm.trans ha) Bool.false_ne_true
  | @misaligned e he ha hal =>
    have hne : a.toNat % w.size ≠ 0 := fun h0 => hal ((alignedIn_iff hs he w ha).mpr h0)
    rw [if_pos ((h.mapped a).mpr ⟨e, he, ha⟩), FlatMemory.refuses, if_pos hne]
  | @word e he ha hal =>
    rw [if_pos ((h.mapped a).mpr ⟨e, he, ha⟩), h.accepts hs hr.disjoint he ha hal]
    refine congrArg Except.ok (LittleEndian.word_congr fun i hi => ?_)
    exact (h.bytes e he _ (within_of_straight hs hr.disjoint he ha hal i hi)).symm

theorem Shows.store (h : m.Shows n) (hr : m.Regular) (hs : m.Straight .dWord) (w : Width)
    (a : RV64Ptr) (v : BitVec (8 * w.size)) :
    (m.store w a v).1 = (n.store w a v).1 ∧ (m.store w a v).2.Shows (n.store w a v).2 := by
  have hst := hr.storedAs w a v
  have hin := (hr.store w a v).inside
  generalize m.store w a v = r at hst hin ⊢
  cases hst with
  | @refused error m' hl hdevices hrams hhost =>
    have hn : n.load w a = .error error := (h.load hr hs w a).symm.trans (hl.unique hr)
    rw [n.store_of_load_error hn]
    exact ⟨rfl, h.congr hdevices hrams hhost⟩
  | @written e m' he ha hal hu =>
    have hn : n.store w a v = (.ok (), ⟨n.flat.write w a v⟩) := by
      rw [MappedMemory.store, if_pos ((h.mapped a).mpr ⟨e, he, ha⟩), FlatMemory.store,
        h.accepts hs hr.disjoint he ha hal]
    rw [hn]
    refine ⟨rfl, fun x => by rw [hu.devices]; exact h.mapped x, fun d hd x hx => ?_⟩
    rw [hu.devices] at hd
    rw [hu.byteIn hin d hd]
    change (if _ then _ else _) = _
    by_cases hlt : (x - a).toNat < w.size
    · have hxe := contains_of_sub_lt (within_of_straight hs hr.disjoint he ha hal) hlt
      rw [if_pos hlt, if_pos ⟨hr.disjoint d hd e he x hx hxe, hlt⟩]
    · rw [if_neg hlt, if_neg fun hand => hlt hand.2, h.bytes d hd x hx]

end PhysMem

namespace Prefetcher

open PhysMem

variable {m : PhysMem} {f : Prefetcher} {n : MappedMemory} {v : RV64Ptr}

theorem Sound.loadWord_keeps (h : Sound m f) :
    f.mmu.pMem.Evolves (f.loadWord v).2.mmu.pMem ∧
      (f.loadWord v).2.mmu.pMem.rams = f.mmu.pMem.rams ∧
      (f.loadWord v).2.mmu.pMem.host = f.mmu.pMem.host := by
  have hw := h.evolves.wired
  by_cases hahead : f.Ahead v
  · unfold Prefetcher.loadWord
    rw [if_pos hahead]
    split_ifs <;> exact ⟨.refl hw, rfl, rfl⟩
  · obtain ⟨e, he, -, ⟨p, -, hl⟩ | ⟨-, hl⟩⟩ | ⟨-, hl⟩ := loadWord_cases hw hahead
    · rw [hl]
      exact ⟨evolves_remember hw he, rfl, rfl⟩
    · rw [hl]
      exact ⟨(evolves_remember hw he).trans (evolves_load (hw.remember he) .word v),
        load_keeps (hw.remember he) .word v⟩
    · rw [hl]
      exact ⟨.refl hw, rfl, rfl⟩

/-- A prefetcher on a memory that was built, and the byte array it shows. -/
structure Shows (m : PhysMem) (f : Prefetcher) (n : MappedMemory) : Prop where
  sound : Sound m f
  regular : f.mmu.pMem.Regular
  shows : f.mmu.pMem.Shows n

theorem shows_create (hr : m.Regular) (h : m.Shows n) : Shows m (create ⟨m⟩) n :=
  ⟨sound_create hr.toWired, hr, h⟩

/-- Neither the window, nor the map of the devices, nor the pages and chunks can
be told from a byte array. -/
theorem alike (hr : m.Regular) (hl : m.LaidOut) : Memory.Alike (Shows m) where
  fetchWord f n h v hv := by
    have hs := straight_evolves h.sound.evolves hl.straight
    obtain ⟨hev, hrams, hhost⟩ := h.sound.loadWord_keeps (v := v)
    refine ⟨?_, h.sound.loadWord hv, h.regular.congr hev hrams hhost,
      h.shows.congr hev.devices hrams hhost⟩
    exact (h.sound.agrees hr.disjoint hl.base hl.noTail hv).load.trans
      (h.shows.load h.regular hs .word v)
  load f n h w a := by
    have hs := straight_evolves h.sound.evolves hl.straight
    have hw := h.sound.evolves.wired
    obtain ⟨hrams, hhost⟩ := load_keeps hw w a
    exact ⟨h.shows.load h.regular hs w a, (Step.load f w a).sound hr.granted h.sound,
      h.regular.load w a, h.shows.congr (evolves_load hw w a).devices hrams hhost⟩
  store f n h w a x := by
    have hs := straight_evolves h.sound.evolves hl.straight
    obtain ⟨hres, hshows⟩ := h.shows.store h.regular hs w a x
    exact ⟨hres, (Step.store f w a x).sound hr.granted h.sound, h.regular.store w a x, hshows⟩

end Prefetcher

end Besm.Mem
