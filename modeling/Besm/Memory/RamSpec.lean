import Besm.Memory.Pages

namespace Besm.Mem

open Besm.Lib Besm.Util

namespace RAM

/-- Writing into a page that is present leaves the pages as they are. Bytes past
its end do no harm once all pages are there. -/
theorem Clean.write {r : RAM} {host : Host} (hc : r.Clean host) {id : PageId} {p : HostPtr}
    (hp : r.pagemap id = some (some p)) {o n : Nat} (hfit : r.Spare → o + n ≤ r.pageSize.toNat)
    (data : Nat → BitVec 8) : r.Clean (host.write (p.add o) n data) := by
  refine ⟨⟨hc.chunk, hc.page⟩, hc.mmapSize, hc.apart, fun c chunks hch => ?_⟩
  have hf := hc.newest c chunks hch
  refine ⟨hf.pageSize, hf.aligned, hf.below, fun hs k hk hlt => ?_⟩
  have hapart : (⟨c.data.region, k⟩ : HostPtr).region = (p.add o).region →
      k < (p.add o).offset ∨ (p.add o).offset + n ≤ k := by
    intro hr
    have hb := hf.below id p hp hr.symm
    have hle := hfit hs
    right
    rw [HostPtr.offset_add]
    omega
  exact (Host.readByte_write_apart host data hapart).trans (hf.zero hs k hk hlt)

theorem byteAt_write {r : RAM} {host : Host} (hc : r.Clean host) {a : RV64Ptr} {p : HostPtr}
    (hp : r.pagemap (r.getPageId a) = some (some p)) {n : Nat}
    (hfit : (r.getPageOffset a).toNat + n ≤ r.pageSize.toNat) (data : Nat → BitVec 8)
    (x : RV64Ptr) :
    r.byteAt (host.write (p.add (r.getPageOffset a).toNat) n data) x =
      if (x - a).toNat < n then data (x - a).toNat else r.byteAt host x := by
  by_cases hx : (x - a).toNat < n
  · obtain ⟨hid, -⟩ := (sub_lt_iff_within hfit).mp hx
    rw [if_pos hx, byteAt_present (hid ▸ hp), sub_eq_within hfit hx, ← HostPtr.add_add]
    exact Host.readByte_write_same _ _ _ hx
  · rw [if_neg hx]
    cases hm : r.pagemap (r.getPageId x) with
    | none => rw [byteAt_absent hm, byteAt_absent hm]
    | some mem =>
      obtain ⟨q, rfl, -⟩ := hc.page _ _ hm
      rw [byteAt_present hm, byteAt_present hm]
      refine Host.readByte_write_apart host data fun hr => ?_
      have hlt := getPageOffset_lt r x
      simp only [HostPtr.offset_add]
      by_cases hid : r.getPageId x = r.getPageId a
      · rw [hid, hp] at hm
        obtain rfl := Option.some.inj (Option.some.inj hm)
        by_contra hin
        exact hx ((sub_lt_iff_within hfit).mpr ⟨hid, by omega, by omega⟩)
      · have hap := hc.apart _ _ _ _ hm hp hid hr
        omega

theorem load_spec {r : RAM} {host : Host} (hw : r.Wired host) (w : Width) {a : RV64Ptr}
    (hal : a.toNat % w.size = 0) (hfit : (r.getPageOffset a).toNat + w.size ≤ r.pageSize.toNat) :
    r.load host w a = .ok (LittleEndian.word w.size fun i => r.byteAt host (a + BitVec.ofNat 64 i)) := by
  unfold load
  rw [validateAddressAlignment_ok hal]
  dsimp only
  have hpage := fun i (hi : i < w.size) =>
    getPage_add_within (r := r) (a := a) (i := i) (by omega)
  cases hm : r.pagemap (r.getPageId a) with
  | none =>
    rw [getHostAddress_absent hm]
    dsimp only
    rw [← LittleEndian.word_zero]
    refine congrArg Except.ok (LittleEndian.word_congr fun i hi => ?_)
    exact (byteAt_absent ((hpage i hi).1 ▸ hm)).symm
  | some mem =>
    obtain ⟨p, rfl, -⟩ := hw.page _ _ hm
    rw [getHostAddress_present hm]
    dsimp only
    rw [Host.read]
    refine congrArg Except.ok (LittleEndian.word_congr fun i hi => ?_)
    rw [byteAt_present ((hpage i hi).1 ▸ hm), (hpage i hi).2, HostPtr.add_add]

theorem load_present {r : RAM} {host : Host} {w : Width} {a : RV64Ptr} {p : HostPtr}
    (hal : a.toNat % w.size = 0) (hm : r.pagemap (r.getPageId a) = some (some p)) :
    r.load host w a = .ok (host.read w (p.add (r.getPageOffset a).toNat)) := by
  unfold load
  rw [validateAddressAlignment_ok hal, getHostAddress_present hm]

/-- What an access of one RAM may do to it and to the host: it may take new
regions, and leaves alone those of others. -/
structure Evolves (r : RAM) (host : Host) (r' : RAM) (host' : Host) : Prop where
  sizes : r'.toRAMSizes = r.toRAMSizes
  wired : r'.Wired host'
  chunks : ∀ c ∈ r'.chunks, r.OldOrNew host c
  pages : ∀ id mem, r.pagemap id = some mem → r'.pagemap id = some mem
  regions : host.regions ≤ host'.regions
  refuses : host'.refuses = host.refuses
  pageSize : host'.pageSize = host.pageSize
  others : ∀ k < host.regions, ¬r'.Owns k → host'.bytes k = host.bytes k

theorem Evolves.owned {r r' : RAM} {host host' : Host} (he : r.Evolves host r' host') {k : Nat}
    (hk : r'.Owns k) : r.Owns k ∨ host.regions ≤ k := by
  obtain ⟨c, hc, rfl⟩ := hk
  obtain ⟨d, hd, hdata, -⟩ | hnew := he.chunks c hc
  · exact .inl ⟨d, hd, congrArg HostPtr.region hdata⟩
  · exact .inr hnew

/-- A page that is in its chunk has been there since it was handed out. -/
theorem Evolves.inside {r r' : RAM} {host host' : Host} (he : r.Evolves host r' host')
    (hw : r.Wired host) (hin : r'.PagesInside) : r.PagesInside := by
  intro id p hp
  obtain ⟨c, hc, hregion, hle, hend⟩ := hin id p (he.pages id _ hp)
  obtain ⟨q, hq, ho⟩ := hw.page id _ hp
  obtain rfl := Option.some.inj hq
  rw [he.sizes] at hend
  obtain ⟨d, hd, hdata, hsize⟩ | hnew := he.chunks c hc
  · rw [← hdata] at hregion hle hend
    rw [← hsize] at hend
    exact ⟨d, hd, hregion, hle, hend⟩
  · exact absurd (hw.region_lt ho) (Nat.not_lt.mpr (hregion ▸ hnew))

theorem Evolves.bytes_of_not_owns {r r' : RAM} {host host' : Host}
    (he : r.Evolves host r' host') {k : Nat} (hk : k < host.regions) (ho : ¬r.Owns k) :
    host'.bytes k = host.bytes k := by
  refine he.others k hk fun ho' => ?_
  obtain h | h := he.owned ho'
  · exact ho h
  · omega

theorem Evolves.refl {r : RAM} {host : Host} (hw : r.Wired host) : r.Evolves host r host :=
  ⟨rfl, hw, fun c hc => .inl ⟨c, hc, rfl, rfl⟩, fun _ _ h => h, Nat.le_refl _, rfl, rfl, fun _ _ _ => rfl⟩

theorem Touches.evolves {r r' : RAM} {host host' : Host} {id : PageId} {p : HostPtr}
    (ht : r.Touches host id p r' host') : r.Evolves host r' host' := by
  refine ⟨ht.sizes, ht.wired, ht.chunks, fun id' mem hm => ?_, ht.extend.regions,
    ht.extend.refuses, ht.extend.pageSize, fun k hk _ => ht.extend.bytes k hk⟩
  rw [ht.pagemap]
  by_cases hid : id' = id
  · subst hid
    obtain ⟨hp, -, -⟩ := ht.same (by rw [hm]; nofun)
    rw [Function.update_self, ← hp, hm]
  · rw [Function.update_of_ne hid, hm]

theorem Evolves.write {r r' : RAM} {host host' : Host} (he : r.Evolves host r' host')
    {p : HostPtr} (hp : r'.Owns p.region) (n : Nat) (data : Nat → BitVec 8) :
    r.Evolves host r' (host'.write p n data) := by
  refine ⟨he.sizes, ⟨he.wired.chunk, he.wired.page⟩, he.chunks, he.pages, he.regions, he.refuses,
    he.pageSize, fun k hk ho => ?_⟩
  have hne : k ≠ p.region := fun heq => ho (heq ▸ hp)
  exact (Function.update_of_ne hne _ _).trans (he.others k hk ho)

theorem getPageId_congr {r r' : RAM} (h : r'.toRAMSizes = r.toRAMSizes) (a : RV64Ptr) :
    r'.getPageId a = r.getPageId a := by
  rw [getPageId, getPageId, h]

theorem getPageOffset_congr {r r' : RAM} (h : r'.toRAMSizes = r.toRAMSizes) (a : RV64Ptr) :
    r'.getPageOffset a = r.getPageOffset a := by
  rw [getPageOffset, getPageOffset, h]

theorem Touches.present {r r' : RAM} {host host' : Host} {a : RV64Ptr} {p : HostPtr}
    (ht : r.Touches host (r.getPageId a) p r' host') :
    r'.pagemap (r'.getPageId a) = some (some p) := by
  rw [getPageId_congr ht.sizes, ht.pagemap, Function.update_self]

theorem Touches.owns {r r' : RAM} {host host' : Host} {a : RV64Ptr} {p : HostPtr}
    (ht : r.Touches host (r.getPageId a) p r' host') : r'.Owns p.region := by
  obtain ⟨q, hq, ho⟩ := ht.wired.page _ _ ht.present
  rwa [Option.some.inj hq]

theorem touchHostAddress_spec {r : RAM} {host : Host} (hw : r.Wired host) (hg : r.Granted host)
    (a : RV64Ptr) :
    ∃ p r' host', r.touchHostAddress host a =
        (.ok (some (p.add (r.getPageOffset a).toNat), r.pageSize - r.getPageOffset a), r', host') ∧
      r.touchPageAddress host a = (.ok (some p), r', host') ∧
      r.Touches host (r.getPageId a) p r' host' := by
  obtain ⟨p, r', host', ht, htouch⟩ := touchPageAddress_spec hw hg a
  refine ⟨p, r', host', ?_, ht, htouch⟩
  have hps : r'.pageSize = r.pageSize := congrArg RAMSizes.pageSize htouch.sizes
  unfold touchHostAddress
  rw [ht]
  dsimp only
  rw [getPageOffset_congr htouch.sizes, hps]
  rfl

theorem store_cases {r : RAM} {host : Host} (hw : r.Wired host) (hg : r.Granted host) (w : Width)
    (a : RV64Ptr) (v : BitVec (8 * w.size)) :
    (a.toNat % w.size ≠ 0 ∧
      r.store host w a v = (.error (.unalignedAddress "RAM unaligned access"), r, host)) ∨
    (a.toNat % w.size = 0 ∧ ∃ p r' host', r.Touches host (r.getPageId a) p r' host' ∧
      r.store host w a v = (.ok (), r', host'.write (p.add (r.getPageOffset a).toNat) w.size
        (LittleEndian.byte v))) := by
  unfold store validateAddressAlignment
  by_cases hal : a.toNat % w.size = 0
  · right
    obtain ⟨p, r', host', ht, -, htouch⟩ := touchHostAddress_spec hw hg a
    rw [if_neg (not_not.mpr hal)]
    dsimp only
    rw [ht]
    exact ⟨hal, p, r', host', htouch, rfl⟩
  · left
    rw [if_pos hal]
    exact ⟨hal, rfl⟩

theorem Touches.evolves_write {r r' : RAM} {host host' : Host} {a : RV64Ptr} {p : HostPtr}
    (ht : r.Touches host (r.getPageId a) p r' host') (k n : Nat) (data : Nat → BitVec 8) :
    r.Evolves host r' (host'.write (p.add k) n data) :=
  ht.evolves.write (p := p.add k) ht.owns n data

theorem load_cases (r : RAM) (host : Host) (w : Width) (a : RV64Ptr) :
    (a.toNat % w.size ≠ 0 ∧
      r.load host w a = .error (.unalignedAddress "RAM unaligned access")) ∨
    (a.toNat % w.size = 0 ∧ ∃ v, r.load host w a = .ok v) := by
  unfold load validateAddressAlignment
  by_cases hal : a.toNat % w.size = 0
  · right
    rw [if_neg (not_not.mpr hal)]
    dsimp only
    refine ⟨hal, ?_⟩
    cases (r.getHostAddress a).1 with
    | none => exact ⟨0, rfl⟩
    | some p => exact ⟨host.read w p, rfl⟩
  · left
    rw [if_pos hal]
    exact ⟨hal, rfl⟩

/-- What a RAM looks like after `n` bytes were copied to `a`, if its pages still
lie in its chunks. -/
structure Updated (r : RAM) (host : Host) (a : RV64Ptr) (n : Nat) (data : Nat → BitVec 8)
    (r' : RAM) (host' : Host) : Prop extends Evolves r host r' host' where
  clean : r'.Clean host'
  present : r'.pagemap (r.getPageId a) ≠ none
  byteAt : r'.PagesInside → ∀ x, r'.byteAt host' x =
    if (x - a).toNat < n then data (x - a).toNat else r.byteAt host x

theorem one_lt_pageSize {r : RAM} {a x : RV64Ptr} {n : Nat} (hpos : 0 < n)
    (hfit : (r.getPageOffset a).toNat + n ≤ r.pageSize.toNat) (hx : ¬(x - a).toNat < n)
    (hpage : r.getPageId x = r.getPageId a) : 1 < r.pageSize.toNat := by
  by_contra hone
  have ha := getPageOffset_lt r a
  have hxo := getPageOffset_lt r x
  exact hx ((sub_lt_iff_within hfit).mpr ⟨hpage, by omega, by omega⟩)

theorem updated_write {r : RAM} {host : Host} (hc : r.Clean host) (hg : r.Granted host)
    {a : RV64Ptr} (ha : a.toNat < r.ramSize.toNat) :
    ∃ p r' host', r.touchHostAddress host a =
        (.ok (some p, r.pageSize - r.getPageOffset a), r', host') ∧
      ∀ n, 0 < n → (r.getPageOffset a).toNat + n ≤ r.pageSize.toNat → ∀ data,
        r.Updated host a n data r' (host'.write p n data) := by
  obtain ⟨p, r', host', ht, htp, htouch⟩ := touchHostAddress_spec hc.toWired hg a
  obtain ⟨hclean, hbytes⟩ := touchPageAddress_clean hc hg htp
  have hoff : r'.getPageOffset a = r.getPageOffset a := getPageOffset_congr htouch.sizes a
  have hps : r'.pageSize = r.pageSize := congrArg RAMSizes.pageSize htouch.sizes
  refine ⟨_, r', host', ht, fun n hpos hfit data => ?_⟩
  have hfit' : (r'.getPageOffset a).toNat + n ≤ r'.pageSize.toNat := by rwa [hoff, hps]
  refine ⟨htouch.evolves_write _ n data, ?_, ?_, fun hin x => ?_⟩
  · rw [← hoff]
    exact hclean.write htouch.present (fun _ => hfit') data
  · rw [htouch.pagemap, Function.update_self]
    exact Option.some_ne_none _
  · rw [← hoff, byteAt_write hclean htouch.present hfit' data]
    split_ifs with hx
    · rfl
    · exact hbytes x fun hpage => ⟨one_lt_pageSize hpos hfit hx hpage, ha, hin⟩

theorem store_spec {r : RAM} {host : Host} (hc : r.Clean host) (hg : r.Granted host) (w : Width)
    {a : RV64Ptr} (ha : a.toNat < r.ramSize.toNat) (hal : a.toNat % w.size = 0)
    (hfit : (r.getPageOffset a).toNat + w.size ≤ r.pageSize.toNat) (v : BitVec (8 * w.size)) :
    ∃ r' host', r.store host w a v = (.ok (), r', host') ∧
      r.Updated host a w.size (LittleEndian.byte v) r' host' := by
  obtain ⟨p, r', host', ht, hu⟩ := updated_write hc hg ha
  refine ⟨r', _, ?_, hu w.size w.size_pos hfit (LittleEndian.byte v)⟩
  unfold store
  rw [validateAddressAlignment_ok hal]
  dsimp only
  rw [ht]

theorem size_dvd_pageSize {r : RAM} {w : Width} (h : w.size ≤ r.pageSize.toNat) :
    w.size ∣ r.pageSize.toNat := by
  obtain ⟨n, -, hn⟩ := exists_pow_of_is2Pow r.pageSize_ne_zero r.pageSize_pow2
  obtain ⟨k, hk⟩ := w.size_eq_pow
  rw [hn, hk] at h ⊢
  exact Nat.pow_dvd_pow 2 ((Nat.pow_le_pow_iff_right (by omega : 1 < 2)).mp h)

theorem aligned_fits {r : RAM} {w : Width} {a : RV64Ptr} (hal : a.toNat % w.size = 0)
    (hps : w.size ≤ r.pageSize.toNat) :
    (r.getPageOffset a).toNat + w.size ≤ r.pageSize.toNat := by
  rw [toNat_getPageOffset]
  obtain ⟨k, hk⟩ := size_dvd_pageSize hps
  have hmod : w.size ∣ a.toNat % r.pageSize.toNat :=
    (Nat.dvd_mod_iff ⟨k, hk⟩).mpr (Nat.dvd_of_mod_eq_zero hal)
  obtain ⟨j, hj⟩ := hmod
  have hlt := Nat.mod_lt a.toNat r.pageSize_pos
  rw [hj, hk] at hlt ⊢
  rw [← Nat.mul_succ]
  exact Nat.mul_le_mul_left _ (Nat.lt_of_mul_lt_mul_left hlt)

/-- No access reaches from one page into another that is still to come. -/
def SpillFree (r : RAM) : Prop :=
  r.pageSize.toNat = 1 ∨ 8 ≤ r.pageSize.toNat ∨ r.ramSize.toNat ≤ r.pageSize.toNat

instance (r : RAM) : Decidable r.SpillFree :=
  inferInstanceAs (Decidable (_ ∨ _))

theorem fits_of_spare {r : RAM} (hs : r.SpillFree) (hspare : r.Spare) {w : Width} {a : RV64Ptr}
    (ha : a.toNat < r.ramSize.toNat) (hpresent : r.pagemap (r.getPageId a) ≠ none)
    (hal : a.toNat % w.size = 0) : (r.getPageOffset a).toNat + w.size ≤ r.pageSize.toNat := by
  obtain ⟨hone, b, hb, hnone⟩ := hspare
  obtain h1 | h8 | hle := hs
  · omega
  · exact aligned_fits hal (Nat.le_trans w.size_le h8)
  · have hid : r.getPageId a = r.getPageId b := by
      apply BitVec.eq_of_toNat_eq
      rw [toNat_getPageId, toNat_getPageId, Nat.div_eq_of_lt (by omega), Nat.div_eq_of_lt (by omega)]
    exact absurd (hid ▸ hnone) hpresent

theorem clean_store {r : RAM} {host : Host} (hc : r.Clean host) (hg : r.Granted host)
    (hs : r.SpillFree) (w : Width) {a : RV64Ptr} (ha : a.toNat < r.ramSize.toNat)
    (v : BitVec (8 * w.size)) :
    (r.store host w a v).2.1.Clean (r.store host w a v).2.2 := by
  obtain ⟨p, r', host', ht, htp, htouch⟩ := touchHostAddress_spec hc.toWired hg a
  obtain ⟨hclean, -⟩ := touchPageAddress_clean hc hg htp
  have hoff : r'.getPageOffset a = r.getPageOffset a := getPageOffset_congr htouch.sizes a
  unfold store validateAddressAlignment
  split_ifs with hal
  · exact hc
  · dsimp only
    rw [ht, ← hoff]
    refine hclean.write htouch.present (fun hspare => ?_) _
    have hs' : r'.SpillFree := by
      unfold SpillFree
      rwa [htouch.sizes]
    exact fits_of_spare hs' hspare (by rwa [htouch.sizes]) (by rw [htouch.present]; nofun)
      (not_not.mp hal)

theorem load_ne_assertionFailed (r : RAM) (host : Host) (w : Width) (a : RV64Ptr) :
    r.load host w a ≠ .error .assertionFailed := by
  unfold load validateAddressAlignment
  split_ifs
  · nofun
  · dsimp only
    split <;> nofun

theorem allocPage_ne_assertionFailed (r : RAM) (host : Host) :
    (r.allocPage host).1 ≠ .error .assertionFailed := by
  unfold allocPage
  dsimp only
  split
  · nofun
  · split
    case h_1 e host' hc =>
      unfold Chunk.create at hc
      dsimp only at hc
      split at hc <;> cases hc
      nofun
    case h_2 => nofun

theorem touchHostAddress_ne_assertionFailed (r : RAM) (host : Host) (a : RV64Ptr) :
    (r.touchHostAddress host a).1 ≠ .error .assertionFailed := by
  have halloc := r.allocPage_ne_assertionFailed host
  unfold touchHostAddress touchPageAddress
  split
  case h_1 e r' host' ht =>
    split at ht
    · cases ht
    · revert halloc ht
      obtain ⟨_ | mem, r'', host''⟩ := r.allocPage host <;> intro halloc ht <;> cases ht
      exact fun he => halloc (congrArg _ (Except.error.inj he))
  case h_2 => nofun

theorem store_ne_assertionFailed (r : RAM) (host : Host) (w : Width) (a : RV64Ptr)
    (v : BitVec (8 * w.size)) : (r.store host w a v).1 ≠ .error .assertionFailed := by
  have htouch := r.touchHostAddress_ne_assertionFailed host a
  unfold store validateAddressAlignment
  split_ifs
  · nofun
  · dsimp only
    revert htouch
    obtain ⟨e | ⟨_ | p, size⟩, r', host'⟩ := r.touchHostAddress host a <;> intro htouch
    · exact fun he => htouch (congrArg _ (Except.error.inj he))
    · nofun
    · nofun

end RAM

end Besm.Mem
