import Besm.Memory.ContArea

namespace Besm.Mem

open Besm.Lib Besm.Lib.Transition Besm.Util

namespace PhysMem

variable {m m' : PhysMem} {e e' : Mapping}

/-- The last page of a device goes on past its end. -/
theorem last_offset_lt (hw : m.Wired) (he : e ∈ m.devices)
    (hno : ¬(m.rams e.2).pageSize.toNat ∣ (m.rams e.2).ramSize.toNat) :
    ((m.rams e.2).getPageOffset (e.1.rightBorder - 1 - e.1.leftBorder)).toNat + 2 ≤
      (m.rams e.2).pageSize.toNat := by
  have hne : (m.rams e.2).ramSize.toNat ≠ 0 := fun h0 => hno (h0 ▸ Nat.dvd_zero _)
  have hrel : (e.1.rightBorder - 1 - e.1.leftBorder).toNat = (m.rams e.2).ramSize.toNat - 1 := by
    have hsub : e.1.rightBorder - 1 - e.1.leftBorder = (m.rams e.2).ramSize - 1 := by
      rw [hw.range e he]
      bv_omega
    rw [hsub]
    exact BitVec.toNat_sub_of_le (BitVec.le_def.mpr (Nat.one_le_iff_ne_zero.mpr hne))
  rw [RAM.toNat_getPageOffset, hrel]
  have hlt := Nat.mod_lt ((m.rams e.2).ramSize.toNat - 1) (m.rams e.2).pageSize_pos
  have hdiv := Nat.div_add_mod ((m.rams e.2).ramSize.toNat - 1) (m.rams e.2).pageSize.toNat
  by_contra hgt
  refine hno ⟨((m.rams e.2).ramSize.toNat - 1) / (m.rams e.2).pageSize.toNat + 1, ?_⟩
  rw [Nat.mul_succ]
  omega

/-- Two bytes from the last one of such a device on go to that page. -/
theorem storeContArea_spills (hc : m.Clean) (hg : m.Granted) (hd : m.Disjoint)
    (he : e ∈ m.devices) (ha : e.1.contains (e.1.rightBorder - 1) = true)
    (hno : ¬(m.rams e.2).pageSize.toNat ∣ (m.rams e.2).ramSize.toNat) (data : Nat → BitVec 8) :
    ∃ m', m.storeContArea (e.1.rightBorder - 1) data 2 = some (.ok (), m') ∧
      m.Updated e (e.1.rightBorder - 1) 2 data m' := by
  have hoff := last_offset_lt hc.toWired he hno
  obtain ⟨p, m₁, ht, hu⟩ := touchHostAddress_spec hc hg hd he ha
  have hk : ((m.rams e.2).pageSize - (m.rams e.2).getPageOffset
      (e.1.rightBorder - 1 - e.1.leftBorder)).toNat = _ :=
    BitVec.toNat_sub_of_le (BitVec.le_def.mpr (by omega))
  have hmin : min (2 - 0) ((m.rams e.2).pageSize - (m.rams e.2).getPageOffset
      (e.1.rightBorder - 1 - e.1.leftBorder)).toNat = 2 := by omega
  have hzero : e.1.rightBorder - 1 + BitVec.ofNat 64 0 = e.1.rightBorder - 1 := BitVec.add_zero _
  have htwo : (2 : RV64Size).toNat = 2 := rfl
  refine ⟨m₁.copy p 2 data, ?_, hu 2 Nat.zero_lt_two hoff data⟩
  simp only [storeContArea, htwo, storeContAreaLoop, hzero, ht, hmin, Nat.zero_add,
    Nat.lt_irrefl, Nat.zero_lt_two, if_true, if_false]

/-- So a memory that stores all areas exactly has devices of whole pages. -/
theorem wholePages_of_storesArea (hc : m.Clean) (hg : m.Granted) (hd : m.Disjoint)
    (hall : ∀ address data size, m.StoresArea address data size) : m.WholePages := by
  intro e he hlt
  by_contra hno
  have hlast : e.1.contains (e.1.rightBorder - 1) = true := by
    rw [BitVec.lt_def] at hlt
    have hone : (1 : RV64Ptr).toNat ≤ e.1.rightBorder.toNat := Nat.one_le_of_lt hlt
    rw [contains_toNat, BitVec.toNat_sub_of_le (BitVec.le_def.mpr hone)]
    exact ⟨Nat.le_sub_one_of_lt hlt, Nat.sub_lt (Nat.one_le_of_lt hlt) Nat.one_pos⟩
  have hfirst : e.1.rightBorder - 1 + BitVec.ofNat 64 0 = e.1.rightBorder - 1 := BitVec.add_zero _
  have hnext : e.1.rightBorder - 1 + BitVec.ofNat 64 1 = e.1.rightBorder :=
    BitVec.sub_add_cancel _ _
  by_cases hin : ∃ d ∈ m.devices, d.1.contains e.1.rightBorder = true
  · obtain ⟨d, hd', ha⟩ := hin
    obtain ⟨m', hs, hu⟩ := storeContArea_spills hc hg hd he hlast hno
      fun _ => m.byteIn d e.1.rightBorder + 1
    have hde : d ≠ e := by
      rintro rfl
      exact Nat.lt_irrefl _ (contains_toNat.mp ha).2
    obtain ⟨m₁, hs', hinside, hbytes, -⟩ := (hall _ _ 2).mapped fun i hi => by
      obtain hi | rfl := Nat.lt_succ_iff_lt_or_eq.mp hi
      · obtain rfl : i = 0 := by omega
        exact ⟨e, he, by rwa [hfirst]⟩
      · exact ⟨d, hd', by rwa [hnext]⟩
    obtain rfl : m' = m₁ := by
      rw [hs] at hs'
      cases hs'
      rfl
    have hbyte := hbytes 1 (by decide)
    rw [hnext, loadByte_spec hu.wired (hu.disjoint hd) (hu.devices ▸ hd') ha,
      hu.byteIn hinside d hd', if_neg fun hand => hde hand.1] at hbyte
    exact RAM.ne_add_one _ (Except.ok.inj hbyte).symm
  · obtain ⟨m', hs, -⟩ := storeContArea_spills hc hg hd he hlast hno fun _ => 0
    obtain ⟨m₁, hs'⟩ := (hall (e.1.rightBorder - 1) (fun _ => 0) 2).unmapped
      ⟨1, by decide, fun d hd' => by
        rw [hnext]
        exact Bool.eq_false_iff.mpr fun ha => hin ⟨d, hd', ha⟩⟩
    exact absurd (hs.symm.trans hs') nofun

end PhysMem

namespace RAM

variable {r : RAM} {host : Host} {a : RV64Ptr}

theorem touchPageAddress_room {c : Chunk} {chunks : List Chunk} (host : Host)
    (hm : r.pagemap (r.getPageId a) = none) (hch : r.chunks = c :: chunks)
    (hroom : c.data ≠ .mapFailed ∧ c.rower.offset < c.data.offset + c.size.toNat) :
    r.touchPageAddress host a = (.ok (some c.rower),
      { r with
        chunks := { c with rower := c.rower.add c.pageSize.toNat } :: chunks
        pagemap := Function.update r.pagemap (r.getPageId a) (some (some c.rower)) }, host) := by
  have hpage : c.allocPage =
      (some c.rower, { c with rower := c.rower.add c.pageSize.toNat }) := if_pos hroom
  unfold touchPageAddress allocPage
  rw [hm, hch]
  dsimp only
  rw [hpage]
  rfl

/-- A device of small pages after a double word was stored to the first of them:
the next page begins with what did not fit. -/
structure Spilled (r : RAM) (host : Host) (v : BitVec (8 * Width.dWord.size)) (a : RV64Ptr)
    (r₁ : RAM) (host₁ : Host) : Prop where
  store : r.store host .dWord 0 v = (.ok (), r₁, host₁)
  absent : r₁.pagemap (r₁.getPageId a) = none
  touch : ∃ p r₂, r₁.touchPageAddress host₁ a = (.ok (some p), r₂, host₁) ∧
    ∀ i, r.pageSize.toNat + i < 8 →
      host₁.readByte (p.add i) = LittleEndian.byte v (r.pageSize.toNat + i)

theorem spilled (hchunks : r.chunks = []) (hpages : r.pagemap = fun _ => none)
    (hg : r.Granted host) (hps : r.pageSize.toNat < r.mmapSize host)
    (v : BitVec (8 * Width.dWord.size)) (ha : r.getPageId a ≠ r.getPageId 0) :
    ∃ r₁ host₁, r.Spilled host v a r₁ host₁ := by
  have hoff : r.getPageOffset 0 = 0 := BitVec.zero_umod
  obtain ⟨c, chunks, hch, -⟩ | ⟨-, halloc⟩ := allocPage_cases hg
  · rw [hchunks] at hch
    cases hch
  · have habsent : r.pagemap (r.getPageId 0) = none := by rw [hpages]
    have htouch : r.touchPageAddress host 0 = (.ok (some ⟨host.regions, 0⟩),
        { r with
          chunks := ⟨⟨host.regions, 0⟩, ⟨host.regions, r.pageSize.toNat⟩,
            Chunk.hostMmapSize r.chunkSize host.pageSize, r.pageSize⟩ :: r.chunks
          pagemap := Function.update r.pagemap (r.getPageId 0) (some (some ⟨host.regions, 0⟩)) },
        (host.mmap (Chunk.hostMmapSize r.chunkSize host.pageSize)).2) := by
      unfold touchPageAddress
      rw [habsent]
      dsimp only
      rw [halloc]
      rfl
    have hstore := store_touched (w := .dWord) (Nat.zero_mod _) htouch v
    rw [hoff] at hstore
    have hne : (⟨host.regions, 0⟩ : HostPtr) ≠ .mapFailed := by
      intro h
      have ho : 0 = 2 ^ 64 - 1 := congrArg HostPtr.offset h
      exact absurd ho (by decide)
    have hnone : Function.update r.pagemap (r.getPageId 0) (some (some ⟨host.regions, 0⟩))
        (r.getPageId a) = none := by
      rw [Function.update_of_ne ha, hpages]
    have hroom : r.pageSize.toNat < 0 + r.mmapSize host := by rwa [Nat.zero_add]
    refine ⟨_, _, hstore, hnone, _, _, touchPageAddress_room _ hnone rfl ⟨hne, hroom⟩,
      fun i hi => ?_⟩
    have hin := Host.readByte_write_same
      (host.mmap (Chunk.hostMmapSize r.chunkSize host.pageSize)).2 ⟨host.regions, 0⟩
      (LittleEndian.byte v) (n := Width.dWord.size) hi
    rwa [HostPtr.add, Nat.zero_add] at hin

theorem touchHostAddress_page {r' : RAM} {host' : Host} {p : HostPtr}
    (h : r.touchPageAddress host a = (.ok (some p), r', host')) :
    r.touchHostAddress host a = (.ok (some (p.add (r'.getPageOffset a).toNat),
      r'.pageSize - r'.getPageOffset a), r', host') := by
  unfold touchHostAddress
  rw [h]
  rfl

theorem second_page (r : RAM) (h : 1 < r.pageSize.toNat) :
    r.getPageId r.pageSize ≠ r.getPageId 0 ∧ (r.getPageOffset r.pageSize).toNat = 0 ∧
      r.getPageId (r.pageSize + BitVec.ofNat 64 1) = r.getPageId r.pageSize ∧
      (r.getPageOffset (r.pageSize + BitVec.ofNat 64 1)).toNat = 1 ∧
      (r.pageSize + BitVec.ofNat 64 1).toNat = r.pageSize.toNat + 1 := by
  have hzero : (0 : RV64Ptr).toNat = 0 := rfl
  have hoff : (r.getPageOffset r.pageSize).toNat = 0 := by
    rw [toNat_getPageOffset, Nat.mod_self]
  have hfit : (r.getPageOffset r.pageSize).toNat + 1 < r.pageSize.toNat := by omega
  obtain ⟨hid, hnext⟩ := getPage_add_within hfit
  refine ⟨fun heq => ?_, hoff, hid, by rw [hnext, hoff], toNat_add_within hfit⟩
  have hnat := congrArg BitVec.toNat heq
  rw [toNat_getPageId, toNat_getPageId, Nat.div_self r.pageSize_pos, hzero, Nat.zero_div] at hnat
  cases hnat

theorem pageSize_lt_mmapSize (hhost : is2Pow host.pageSize = true) (hg : r.Granted host) :
    r.pageSize.toNat < r.mmapSize host := by
  refine Nat.lt_of_le_of_lt ?_ (lt_nearest2PowDivident hhost hg.mmapSize)
  by_contra hlt
  refine r.chunk_ne_zero (BitVec.eq_of_toNat_eq ?_)
  rw [BitVec.toNat_udiv, Nat.div_eq_of_lt (Nat.lt_of_not_le hlt)]
  rfl

/-- What keeps the areas of a device apart from its other bytes: it ends with one
of its pages, no access reaches from one page into one that is still to come, and
its chunks are whole pages or have room for all of it. -/
structure Fitted (r : RAM) (host : Host) : Prop where
  wholePages : r.pageSize.toNat ∣ r.ramSize.toNat
  spillFree : r.SpillFree
  room : r.pageSize.toNat ∣ r.mmapSize host ∨ r.ramSize.toNat ≤ r.mmapSize host

end RAM

namespace PhysMem

variable {m m' : PhysMem} {e : Mapping}

theorem storeContArea_one {a : RV64Ptr} {p : HostPtr} {k : RV64Size}
    (h : m.touchHostAddress a = (.ok (some p, k), m')) (data : Nat → BitVec 8) :
    m.storeContArea a data 1 = some (.ok (), m'.copy p 1 data) := by
  have hpos := touchHostAddress_pos h
  have hmin : min (1 - 0) k.toNat = 1 := by omega
  have hzero : a + BitVec.ofNat 64 0 = a := BitVec.add_zero _
  have hone : (1 : RV64Size).toNat = 1 := rfl
  simp only [storeContArea, hone, storeContAreaLoop, hzero, h, hmin, Nat.zero_add, Nat.lt_irrefl,
    Nat.zero_lt_one, if_true, if_false]

theorem touchHostAddress_page (hc : m.Cached) (hd : m.Disjoint) (he : e ∈ m.devices) {a : RV64Ptr}
    (ha : e.1.contains a = true) {p : HostPtr} {r : RAM} {host : Host}
    (ht : (m.rams e.2).touchPageAddress m.host (a - e.1.leftBorder) = (.ok (some p), r, host)) :
    ∃ k, m.touchHostAddress a =
      (.ok (some (p.add (r.getPageOffset (a - e.1.leftBorder)).toNat), k),
        (m.remember e).setRAM e.2 r host) := by
  obtain ⟨d, hd', ha', hs⟩ | ⟨hnone, -⟩ := touchHostAddress_cases hc a
  · obtain rfl := hd e he d hd' a ha ha'
    exact ⟨_, hs _ _ _ (RAM.touchHostAddress_page ht)⟩
  · exact absurd ((hnone e he).symm.trans ha) Bool.false_ne_true

/-- A byte that was never stored must not read what spilled over from its neighbours. -/
theorem spillFree_of_storesArea (hc : m.Clean) (hg : m.Granted) (hd : m.Disjoint)
    (hnew : ∀ e ∈ m.devices, (m.rams e.2).chunks = [] ∧ (m.rams e.2).pagemap = fun _ => none)
    (hroom : ∀ e ∈ m.devices, (m.rams e.2).pageSize.toNat < (m.rams e.2).mmapSize m.host)
    (hp : m.WholePages)
    (hall : ∀ n, Step m n → ∀ address data size, n.StoresArea address data size) :
    m.SpillFree := by
  intro e he hlt
  by_contra hno
  unfold RAM.SpillFree at hno
  push Not at hno
  obtain ⟨hone, h8, hsize⟩ := hno
  have hps := (m.rams e.2).pageSize_pos
  have hsmall : (m.rams e.2).pageSize.toNat + 1 < 8 := by
    obtain h1 | h2 | ⟨k, h4⟩ := (m.rams e.2).pageSize_cases <;> omega
  have htwo : (m.rams e.2).pageSize.toNat + (m.rams e.2).pageSize.toNat ≤ (m.rams e.2).ramSize.toNat :=
    Nat.le_of_lt_add_of_dvd (Nat.add_lt_add_right hsize _)
      (Nat.dvd_add (Nat.dvd_refl _) (Nat.dvd_refl _)) (hp e he hlt)
  have hleft : e.1.contains e.1.leftBorder = true :=
    contains_toNat.mpr ⟨Nat.le_refl _, BitVec.lt_def.mp hlt⟩
  obtain ⟨hpage, hoff, hid, hoff', hnext⟩ := (m.rams e.2).second_page (by omega)
  -- the first two bytes of the second page
  obtain ⟨a, ha⟩ : ∃ a, a = e.1.leftBorder + (m.rams e.2).pageSize := ⟨_, rfl⟩
  have hsub : a - e.1.leftBorder = (m.rams e.2).pageSize := by bv_omega
  have hsub' : a + 1 - e.1.leftBorder = (m.rams e.2).pageSize + BitVec.ofNat 64 1 := by bv_omega
  have hin : e.1.contains a = true := by
    rw [contains_iff_sub hc.toWired he hleft, hsub]
    omega
  have hin' : e.1.contains (a + 1) = true := by
    rw [contains_iff_sub hc.toWired he hleft, hsub', hnext]
    omega
  obtain ⟨r₁, host₁, hs⟩ := RAM.spilled (hnew e he).1 (hnew e he).2 (hg e he) (hroom e he)
    (BitVec.allOnes _) hpage
  obtain ⟨p, r₂, ht, hbytes⟩ := hs.touch
  have hstore : m.store .dWord e.1.leftBorder (BitVec.allOnes _) =
      (.ok (), (m.remember e).setRAM e.2 r₁ host₁) := by
    obtain ⟨d, hd', ha', hst⟩ | ⟨hnone, -⟩ :=
      store_cases hc.cached .dWord e.1.leftBorder (BitVec.allOnes _)
    · obtain rfl := hd e he d hd' _ hleft ha'
      refine hst _ _ _ ?_
      rw [BitVec.sub_self]
      exact hs.store
    · exact absurd ((hnone e he).symm.trans hleft) Bool.false_ne_true
  have hstep := Step.store m .dWord e.1.leftBorder (BitVec.allOnes _)
  rw [hstore] at hstep
  have hev := hstep.evolves hc.toWired hg
  obtain ⟨m₁, hm₁⟩ : ∃ m₁, m₁ = (m.remember e).setRAM e.2 r₁ host₁ := ⟨_, rfl⟩
  rw [← hm₁] at hstep hev
  have hram₁ : m₁.rams e.2 = r₁ := by rw [hm₁, rams_setRAM_self]
  have hhost₁ : m₁.host = host₁ := by rw [hm₁]; rfl
  have he₁ : e ∈ m₁.devices := hev.devices ▸ he
  have hd₁ := hev.disjoint hd
  have hsizes : r₁.toRAMSizes = (m.rams e.2).toRAMSizes := by rw [← hram₁, hev.sizes]
  have hwired₁ : r₁.Wired host₁ := by rw [← hram₁, ← hhost₁]; exact hev.wired.wired e he₁
  have hg₁ : r₁.Granted host₁ := by rw [← hram₁, ← hhost₁]; exact hev.granted hg e he₁
  obtain ⟨p', r', host', ht', htouch⟩ :=
    RAM.touchPageAddress_spec hwired₁ hg₁ (m.rams e.2).pageSize
  cases ht.symm.trans ht'
  have ht₁ : (m₁.rams e.2).touchPageAddress m₁.host (a - e.1.leftBorder) =
      (.ok (some p), r₂, host₁) := by rw [hram₁, hhost₁, hsub, ht]
  obtain ⟨k, htouched⟩ := touchHostAddress_page hev.wired.cached hd₁ he₁ hin ht₁
  have hstored := storeContArea_one htouched fun _ => 0
  obtain ⟨m', hs', -, -, hothers⟩ := (hall m₁ hstep a (fun _ => 0) 1).mapped fun i hi => by
    obtain rfl : i = 0 := Nat.lt_one_iff.mp hi
    exact ⟨e, he₁, by rwa [BitVec.add_zero]⟩
  have hm' := congrArg Prod.snd (Option.some.inj (hstored.symm.trans hs'))
  dsimp only at hm'
  have hev' := (Step.storeContArea hs').evolves hev.wired (hev.granted hg)
  have hread := hothers e he₁ (a + 1) hin' fun i hi => by
    obtain rfl : i = 0 := Nat.lt_one_iff.mp hi
    bv_omega
  rw [loadByte_spec hev'.wired (hev'.disjoint hd₁) (hev'.devices ▸ he₁) hin',
    loadByte_spec hev.wired hd₁ he₁ hin'] at hread
  -- the second byte of the page is not there before, and the spilled one after
  have hbefore : m₁.byteIn e (a + 1) = 0 := by
    rw [byteIn, hram₁, hsub']
    refine RAM.byteAt_absent ?_
    have habsent := hs.absent
    rw [RAM.getPageId_congr hsizes] at habsent ⊢
    rwa [hid]
  have hafter : m'.byteIn e (a + 1) = 0xFF := by
    have hpresent : r₂.pagemap (r₂.getPageId ((m.rams e.2).pageSize + BitVec.ofNat 64 1)) =
        some (some p) := by
      have hpage := htouch.present
      rw [RAM.getPageId_congr (htouch.sizes.trans hsizes)] at hpage ⊢
      rwa [hid]
    have hoff₂ : (r₂.getPageOffset (m.rams e.2).pageSize).toNat = 0 := by
      rw [RAM.getPageOffset_congr (htouch.sizes.trans hsizes), hoff]
    have hoff₂' : (r₂.getPageOffset ((m.rams e.2).pageSize + BitVec.ofNat 64 1)).toNat = 1 := by
      rw [RAM.getPageOffset_congr (htouch.sizes.trans hsizes), hoff']
    have hall : ∀ k < 8, LittleEndian.byte (BitVec.allOnes (8 * 8)) k = 0xFF := by decide
    rw [← hm', byteIn, PhysMem.copy, rams_setRAM_self, hsub', hsub, hoff₂, HostPtr.add_zero,
      RAM.byteAt_present hpresent, hoff₂']
    refine (Host.readByte_write_apart host₁ (fun _ => 0) (p := p) fun _ => .inr ?_).trans ?_
    · exact Nat.le_refl _
    · rw [hbytes 1 hsmall]
      exact hall _ hsmall
  rw [hbefore, hafter] at hread
  cases hread

/-- Storing to all of a device takes all of its pages. -/
theorem roomy_of_storesArea (hk : m.Kept) (hd : m.Disjoint) (htallied : m.Tallied)
    (hp : m.WholePages) (hall : ∀ address data size, m.StoresArea address data size) : m.Roomy := by
  intro e he hlt
  by_contra hno
  unfold RAM.Roomy at hno
  push Not at hno
  obtain ⟨hdvd, hle⟩ := hno
  have hps := hp e he hlt
  have hleft : e.1.contains e.1.leftBorder = true :=
    contains_toNat.mpr ⟨Nat.le_refl _, BitVec.lt_def.mp hlt⟩
  have hsub : ∀ a : RV64Ptr,
      e.1.leftBorder + BitVec.ofNat 64 a.toNat - e.1.leftBorder = a := fun a => by
    rw [BitVec.ofNat_toNat, BitVec.setWidth_eq]
    bv_omega
  have hcovered : ∀ a : RV64Ptr, a.toNat < (m.rams e.2).ramSize.toNat →
      e.1.contains (e.1.leftBorder + BitVec.ofNat 64 a.toNat) = true := fun a ha => by
    rwa [contains_iff_sub hk.toWired he hleft, hsub]
  obtain ⟨m', hs, hin, -⟩ := (hall e.1.leftBorder (fun _ => 0) (m.rams e.2).ramSize).mapped
    fun i hi => by
      have hi64 := Nat.mod_eq_of_lt (Nat.lt_trans hi (m.rams e.2).ramSize.isLt)
      have ha := hcovered (BitVec.ofNat 64 i) (by rwa [BitVec.toNat_ofNat, hi64])
      rw [BitVec.toNat_ofNat, hi64] at ha
      exact ⟨e, he, ha⟩
  have hspec := storeContAreaLoop_spec hk.granted hd hp
    (stored_zero hk.toClean e.1.leftBorder fun _ => 0) (Nat.zero_le (m.rams e.2).ramSize.toNat)
    (Nat.le_add_right _ 0)
  change (∃ m', m.storeContArea _ _ _ = _ ∧ _) ∨ (∃ m', m.storeContArea _ _ _ = _ ∧ _) at hspec
  rw [hs] at hspec
  obtain ⟨m₁, h₁, hstored⟩ | ⟨m₁, h₁, -⟩ := hspec
  · obtain rfl := congrArg Prod.snd (Option.some.inj h₁)
    dsimp only at hstored
    have hkept := (Step.storeContArea hs).invariant (I := fun n => n.PagesInside → n.Tallied)
      (fun n n' hn ht hs hin => hs.tallied hn.toClean hn.granted
        (ht ((hs.evolves hn.toWired).inside hin)) hin) hk fun _ => htallied
    have hmmap := RAM.mmapSize_congr (hstored.sizes e.2) hstored.pageSize
    have he' : e ∈ m'.devices := hstored.devices ▸ he
    obtain ⟨ids, hcount⟩ := hkept.2 hin e he' (by rwa [hmmap, hstored.sizes])
    have hsize := hcount.le_card_mul (by rwa [hstored.sizes]) fun a ha => by
      rw [hstored.sizes] at ha
      obtain ⟨d, hd', hda, hpage⟩ := hstored.mapped a.toNat ha
      obtain rfl := hd d hd' e he _ hda (hcovered a ha)
      rwa [hsub, ← RAM.getPageId_congr (hstored.sizes d.2)] at hpage
    have hroom := hcount.le
    rw [hstored.sizes] at hsize hroom
    rw [hmmap] at hroom
    have hlarge := hle hps
    omega
  · cases h₁

/-- In a memory that was built, an area is stored exactly, whatever was done
before, if and only if every device that has an address is fitted. -/
theorem storeContArea_exact_iff {calls : List MapRAM} {b : PhysMemBuilder} {host : Host}
    (h : PhysMemBuilder.empty.mapRAMs calls = .ok b) (hg : host.Grants calls)
    (hhost : is2Pow host.pageSize = true) (hd : (b.build host).Disjoint) :
    (∀ m, Reach (· = b.build host) Step m → ∀ address data size, m.StoresArea address data size) ↔
      ∀ e ∈ b.devices, e.1.leftBorder < e.1.rightBorder →
        ((b.build host).rams e.2).Fitted host := by
  have hb := PhysMemBuilder.mapped_of_empty h
  constructor
  · intro hall
    have hinit := hall _ (.init rfl)
    have hwhole := wholePages_of_storesArea (clean_build hb host) (granted_build hb hg) hd hinit
    have hspill := spillFree_of_storesArea (clean_build hb host) (granted_build hb hg) hd
      (fun e he => by
        obtain ⟨-, -, -, -, -, -, hchunks, hpages⟩ := rams_build hb host he
        exact ⟨hchunks, hpages⟩)
      (fun e he => RAM.pageSize_lt_mmapSize hhost (granted_build hb hg e he)) hwhole
      fun n hn => hall n (.step (.init rfl) hn)
    have hroomy := roomy_of_storesArea (kept_build hb hg hspill) hd (tallied_build hb host) hwhole
      hinit
    exact fun e he hlt => ⟨hwhole e he hlt, hspill e he hlt, (hroomy e he hlt).imp_right And.right⟩
  · intro hall m hm address data size
    have htidy := tidy_of_reach (tidy_build hb hg (fun e he hlt => (hall e he hlt).spillFree)
      fun e he hlt => (hall e he hlt).room.imp_right fun hle => ⟨(hall e he hlt).wholePages, hle⟩) hm
    have hev := reach_evolves h hg hm
    exact htidy.storesArea (hev.disjoint hd) (hev.wholePages fun e he hlt => (hall e he hlt).wholePages)
      address data size

def storedMemory : PhysMem :=
  ((PhysMemBuilder.adjacentBuilder.build .willing).store .hWord 0x1000 0xABCD).2

theorem storeContArea_exact_iff_stored : storedMemory.StoresArea 0xFFE (BitVec.ofNat 8) 4 := by
  refine (storeContArea_exact_iff PhysMemBuilder.mapRAMs_adjacent grants_adjacent (by decide)
    (PhysMemBuilder.disjoint_adjacent _)).mpr (fun e he _ => ?_) _
      (.step (.init rfl) (.store _ _ _ _)) _ _ _
  obtain rfl | he := List.mem_cons.mp he
  · exact ⟨⟨1, rfl⟩, .inr (.inl (by decide)), .inl ⟨2, rfl⟩⟩
  · obtain rfl := List.mem_singleton.mp he
    exact ⟨⟨1, rfl⟩, .inr (.inl (by decide)), .inl ⟨2, rfl⟩⟩

/-- An area that runs past a device is stored without a word. -/
theorem area_accepted_past_end :
    PhysMemBuilder.empty.mapRAMs PhysMemBuilder.short = .ok PhysMemBuilder.shortBuilder ∧
      ¬(PhysMemBuilder.shortBuilder.build .willing).StoresArea 5 (fun _ => 0) 2 := by
  refine ⟨PhysMemBuilder.mapRAMs_short, fun h => ?_⟩
  obtain ⟨m', hs⟩ := h.unmapped ⟨1, by decide, by decide⟩
  have hok : ((PhysMemBuilder.shortBuilder.build .willing).storeContArea 5 (fun _ => 0) 2).map
      Prod.fst = some (.ok ()) := by decide +kernel
  rw [hs] at hok
  exact absurd hok nofun

end PhysMem

end Besm.Mem
