import Besm.Memory.Containment
import Besm.Memory.History
import Mathlib.Data.Finset.Card

namespace Besm.Mem

open Besm.Lib.Transition

namespace RAM

variable {r r' : RAM} {host host' : Host} {a : RV64Ptr} {p : HostPtr} {ids : Finset PageId}

/-- The pages of a device, all of which were taken from one chunk. -/
structure Counted (r : RAM) (host : Host) (ids : Finset PageId) : Prop where
  mem : ∀ id, r.pagemap id ≠ none ↔ id ∈ ids
  lt : ∀ id ∈ ids, id.toNat * r.pageSize.toNat < r.ramSize.toNat
  le : ids.card * r.pageSize.toNat ≤ r.mmapSize host
  chunks : r.chunks = [] ∧ ids = ∅ ∨
    ∃ c, r.chunks = [c] ∧ c.rower.offset = ids.card * r.pageSize.toNat

/-- A device whose chunks are not whole pages has come by with one of them. -/
def Tallied (r : RAM) (host : Host) : Prop :=
  ¬r.pageSize.toNat ∣ r.mmapSize host → ∃ ids, r.Counted host ids

/-- There is no page in the device for which a chunk has no room. -/
def Roomy (r : RAM) (host : Host) : Prop :=
  r.pageSize.toNat ∣ r.mmapSize host ∨
    (r.pageSize.toNat ∣ r.ramSize.toNat ∧ r.ramSize.toNat ≤ r.mmapSize host)

theorem mmapSize_congr (hsizes : r'.toRAMSizes = r.toRAMSizes)
    (hsize : host'.pageSize = host.pageSize) : r'.mmapSize host' = r.mmapSize host := by
  rw [mmapSize, mmapSize, hsizes, hsize]

theorem Tallied.congr (h : r.Tallied host) (hsize : host'.pageSize = host.pageSize) :
    r.Tallied host' := by
  have hmmap := mmapSize_congr (r := r) rfl hsize
  intro hno
  rw [hmmap] at hno
  obtain ⟨ids, hc⟩ := h hno
  exact ⟨ids, hc.mem, hc.lt, hmmap ▸ hc.le, hc.chunks⟩

theorem tallied_of_empty (hchunks : r.chunks = []) (hpages : r.pagemap = fun _ => none) :
    r.Tallied host := by
  refine fun _ => ⟨∅, fun id => ?_, by simp, by simp, .inl ⟨hchunks, rfl⟩⟩
  rw [hpages]
  simp

theorem card_mul_le (hdvd : r.pageSize.toNat ∣ r.ramSize.toNat)
    (h : ∀ id ∈ ids, id.toNat * r.pageSize.toNat < r.ramSize.toNat) :
    ids.card * r.pageSize.toNat ≤ r.ramSize.toNat := by
  rw [← Nat.le_div_iff_mul_le r.pageSize_pos, ← Finset.card_range (_ / _)]
  refine Finset.card_le_card_of_injOn BitVec.toNat (fun id hid => ?_)
    (fun id _ id' _ hid => BitVec.eq_of_toNat_eq hid)
  rw [Finset.coe_range, Set.mem_Iio, Nat.lt_div_iff_mul_lt_of_dvd r.pageSize_pos.ne' hdvd]
  exact h id hid

theorem Counted.le_card_mul (h : r.Counted host ids) (hdvd : r.pageSize.toNat ∣ r.ramSize.toNat)
    (hall : ∀ a : RV64Ptr, a.toNat < r.ramSize.toNat → r.pagemap (r.getPageId a) ≠ none) :
    r.ramSize.toNat ≤ ids.card * r.pageSize.toNat := by
  have hps := r.pageSize_pos
  obtain ⟨n, hn⟩ := hdvd
  have hlt : ∀ i < n, r.pageSize.toNat * i < 2 ^ 64 ∧ r.pageSize.toNat * i < r.ramSize.toNat := by
    intro i hi
    have hlt := r.ramSize.isLt
    have hmul := Nat.mul_lt_mul_of_pos_left hi hps
    omega
  have hid : ∀ i < n, (r.getPageId (BitVec.ofNat 64 (r.pageSize.toNat * i))).toNat = i := by
    intro i hi
    rw [toNat_getPageId, BitVec.toNat_ofNat, Nat.mod_eq_of_lt (hlt i hi).1,
      Nat.mul_div_cancel_left _ hps]
  have hcard : (Finset.range n).card ≤ ids.card := by
    refine Finset.card_le_card_of_injOn
      (fun i => r.getPageId (BitVec.ofNat 64 (r.pageSize.toNat * i))) (fun i hi => ?_)
      fun i hi j hj heq => ?_
    · refine (h.mem _).mp (hall _ ?_)
      have hi := hlt i (Finset.mem_range.mp hi)
      rw [BitVec.toNat_ofNat, Nat.mod_eq_of_lt hi.1]
      exact hi.2
    · have hnat := congrArg BitVec.toNat heq
      dsimp only at hnat
      rwa [hid i (Finset.mem_range.mp hi), hid j (Finset.mem_range.mp hj)] at hnat
  rw [Finset.card_range] at hcard
  rw [hn, Nat.mul_comm]
  exact Nat.mul_le_mul_right _ hcard

theorem Counted.allocPage (h : r.Counted host ids) (hc : r.Clean host) (hg : r.Granted host)
    (hno : ¬r.pageSize.toNat ∣ r.mmapSize host) :
    ∃ p c host', r.allocPage host = (.ok (some p), { r with chunks := [c] }, host') ∧
      p.offset = ids.card * r.pageSize.toNat ∧
      c.rower.offset = (ids.card + 1) * r.pageSize.toNat := by
  obtain ⟨c, chunks, hch, -, ha⟩ | ⟨hfull, ha⟩ := allocPage_cases hg
  · obtain ⟨hnil, -⟩ | ⟨d, hd, hrower⟩ := h.chunks
    · exact absurd (hch.symm.trans hnil) (List.cons_ne_nil _ _)
    · obtain ⟨rfl, rfl⟩ := List.cons.inj (hch.symm.trans hd)
      refine ⟨_, _, _, ha, hrower, ?_⟩
      rw [HostPtr.offset_add, hrower, (hc.newest c [] hch).pageSize, Nat.succ_mul]
  · obtain ⟨hnil, rfl⟩ | ⟨d, hd, hrower⟩ := h.chunks
    · rw [hnil] at ha
      exact ⟨_, _, _, ha, (Nat.zero_mul _).symm, (Nat.one_mul _).symm⟩
    · -- such a chunk cannot be used up to its end
      obtain ⟨hstart, hsize⟩ := hc.mmapSize d (hd ▸ List.mem_cons_self)
      have hne : ids.card * r.pageSize.toNat ≠ r.mmapSize host :=
        fun heq => hno (heq ▸ Nat.dvd_mul_left _ _)
      have hle := h.le
      have hroom : d.data ≠ .mapFailed ∧ d.rower.offset < d.data.offset + d.size.toNat := by
        refine ⟨fun hfailed => ?_, by omega⟩
        have ho : d.data.offset = 2 ^ 64 - 1 := congrArg HostPtr.offset hfailed
        omega
      have hnone := hfull d (by rw [hd]; rfl)
      rw [Chunk.allocPage, if_pos hroom] at hnone
      cases hnone

theorem getPageId_mul_lt (r : RAM) (ha : a.toNat < r.ramSize.toNat) :
    (r.getPageId a).toNat * r.pageSize.toNat < r.ramSize.toNat := by
  rw [toNat_getPageId]
  exact Nat.lt_of_le_of_lt (Nat.div_mul_le_self _ _) ha

theorem Counted.touch (h : r.Counted host ids) (hc : r.Clean host) (hg : r.Granted host)
    (hno : ¬r.pageSize.toNat ∣ r.mmapSize host) (ha : a.toNat < r.ramSize.toNat)
    (hm : r.pagemap (r.getPageId a) = none)
    (ht : r.touchPageAddress host a = (.ok (some p), r', host')) :
    p.offset = ids.card * r.pageSize.toNat ∧
      ((ids.card + 1) * r.pageSize.toNat ≤ r.mmapSize host →
        r'.Counted host' (insert (r.getPageId a) ids)) := by
  obtain ⟨q, c, host₁, halloc, hoff, hrower⟩ := h.allocPage hc hg hno
  obtain ⟨p', r'', host'', ht', htouch⟩ := touchPageAddress_spec hc.toWired hg a
  cases ht.symm.trans ht'
  have hnew : r.getPageId a ∉ ids := fun hin => (h.mem _).mpr hin hm
  have hmmap := mmapSize_congr htouch.sizes htouch.extend.pageSize
  have hmap := htouch.pagemap
  have hps : r'.pageSize = r.pageSize := congrArg RAMSizes.pageSize htouch.sizes
  have hsize : r'.ramSize = r.ramSize := congrArg RAMSizes.ramSize htouch.sizes
  have hchunks : p = q ∧ r'.chunks = [c] := by
    unfold touchPageAddress at ht
    rw [hm, halloc] at ht
    cases ht
    exact ⟨rfl, rfl⟩
  obtain ⟨rfl, hchunks⟩ := hchunks
  refine ⟨hoff, fun hle => ⟨fun id => ?_, fun id hid => ?_, ?_, .inr ⟨c, hchunks, ?_⟩⟩⟩
  · rw [hmap, Finset.mem_insert, ← h.mem]
    by_cases hid : id = r.getPageId a
    · rw [hid, Function.update_self]
      exact iff_of_true (Option.some_ne_none _) (.inl rfl)
    · rw [Function.update_of_ne hid, or_iff_right hid]
  · rw [hps, hsize]
    obtain rfl | hid := Finset.mem_insert.mp hid
    · exact r.getPageId_mul_lt ha
    · exact h.lt id hid
  · rwa [Finset.card_insert_of_notMem hnew, hps, hmmap]
  · rwa [Finset.card_insert_of_notMem hnew, hps]

/-- Where every page has room, the touched one lies in its chunk. -/
theorem touch_inside (h : r.Tallied host) (hroomy : r.Roomy host) (hc : r.Clean host)
    (hg : r.Granted host) (hin : r.PagesInside) (ha : a.toNat < r.ramSize.toNat)
    (ht : r.touchPageAddress host a = (.ok (some p), r', host')) : r'.PagesInside := by
  obtain ⟨p', r'', host'', ht', htouch⟩ := touchPageAddress_spec hc.toWired hg a
  cases ht.symm.trans ht'
  cases hm : r.pagemap (r.getPageId a) with
  | some mem =>
    obtain ⟨-, rfl, -⟩ := htouch.same (by rw [hm]; nofun)
    exact hin
  | none =>
    have hle : p.offset + r.pageSize.toNat ≤ r.mmapSize host := by
      by_cases hdvd : r.pageSize.toNat ∣ r.mmapSize host
      · obtain ⟨q, r₁, host₁, halloc, -⟩ := allocPage_spec hc.toWired hg
        have hpq : p = q := by
          unfold touchPageAddress at ht
          rw [hm, halloc] at ht
          cases ht
          rfl
        subst hpq
        obtain ⟨c, chunks, hch, hlt, he⟩ | ⟨-, he⟩ := allocPage_cases hg
        · cases halloc.symm.trans he
          obtain ⟨hstart, hsize⟩ := hc.mmapSize c (hch ▸ List.mem_cons_self)
          rw [hstart, hsize, Nat.zero_add] at hlt
          exact Nat.le_of_lt_add_of_dvd (Nat.add_lt_add_right hlt _)
            (Nat.dvd_add (hc.newest c chunks hch).aligned (Nat.dvd_refl _)) hdvd
        · cases halloc.symm.trans he
          rw [Nat.zero_add]
          exact Nat.le_of_dvd hg.mmapSize hdvd
      · obtain ⟨hps, hsize⟩ := hroomy.resolve_left hdvd
        obtain ⟨ids, hcount⟩ := h hdvd
        have hnew : r.getPageId a ∉ ids := fun hin => (hcount.mem _).mpr hin hm
        have hall : ∀ id ∈ insert (r.getPageId a) ids, id.toNat * r.pageSize.toNat < r.ramSize.toNat :=
          (Finset.forall_mem_insert _ _ _).mpr ⟨r.getPageId_mul_lt ha, hcount.lt⟩
        have hle := r.card_mul_le hps hall
        rw [Finset.card_insert_of_notMem hnew, Nat.succ_mul] at hle
        rw [(hcount.touch hc hg hdvd ha hm ht).1]
        exact Nat.le_trans hle hsize
    have hclean := (touchPageAddress_clean hc hg ht).1
    rw [hclean.pagesInside_iff, mmapSize_congr htouch.sizes htouch.extend.pageSize, htouch.pagemap,
      htouch.sizes]
    intro id q hq
    obtain ⟨-, rfl⟩ | ⟨-, hq⟩ := pagemap_update hq
    · exact hle
    · exact hc.pagesInside_iff.mp hin id q hq

theorem touch_tallied (h : r.Tallied host) (hc : r.Clean host) (hg : r.Granted host)
    (ha : a.toNat < r.ramSize.toNat)
    (ht : r.touchPageAddress host a = (.ok (some p), r', host')) (hin : r'.PagesInside) :
    r'.Tallied host' := by
  obtain ⟨p', r'', host'', ht', htouch⟩ := touchPageAddress_spec hc.toWired hg a
  cases ht.symm.trans ht'
  cases hm : r.pagemap (r.getPageId a) with
  | some mem =>
    obtain ⟨-, rfl, rfl⟩ := htouch.same (by rw [hm]; nofun)
    exact h
  | none =>
    have hmmap := mmapSize_congr htouch.sizes htouch.extend.pageSize
    intro hno
    rw [hmmap, htouch.sizes] at hno
    obtain ⟨ids, hcount⟩ := h hno
    obtain ⟨hoff, hnew⟩ := hcount.touch hc hg hno ha hm ht
    have hle := (touchPageAddress_clean hc hg ht).1.pagesInside_iff.mp hin (r.getPageId a) p
      (by rw [htouch.pagemap, Function.update_self])
    rw [hmmap, htouch.sizes, hoff, ← Nat.succ_mul] at hle
    exact ⟨_, hnew hle⟩

end RAM

namespace PhysMem

variable {m m' : PhysMem} {e : Mapping}

/-- In no device that has an address do accesses reach into pages still to come. -/
def SpillFree (m : PhysMem) : Prop :=
  ∀ e ∈ m.devices, e.1.leftBorder < e.1.rightBorder → (m.rams e.2).SpillFree

def Roomy (m : PhysMem) : Prop :=
  ∀ e ∈ m.devices, e.1.leftBorder < e.1.rightBorder → (m.rams e.2).Roomy m.host

def Tallied (m : PhysMem) : Prop := ∀ e ∈ m.devices, (m.rams e.2).Tallied m.host

theorem WidePages.spillFree (hw : m.WidePages) : m.SpillFree := fun e he _ => .inr (.inl (hw e he))

theorem Evolves.spillFree (h : m.Evolves m') (hs : m.SpillFree) : m'.SpillFree := by
  intro e he hlt
  rw [RAM.SpillFree, h.sizes]
  exact hs e (h.devices ▸ he) hlt

theorem Evolves.roomy (h : m.Evolves m') (hr : m.Roomy) : m'.Roomy := by
  intro e he hlt
  rw [RAM.Roomy, h.sizes, RAM.mmapSize_congr (h.sizes e.2) h.pageSize]
  exact hr e (h.devices ▸ he) hlt

theorem tallied_build {b : PhysMemBuilder} {calls : List MapRAM} (hb : b.Mapped calls)
    (host : Host) : (b.build host).Tallied := by
  intro e he
  obtain ⟨-, -, -, -, -, -, hchunks, hpages⟩ := rams_build hb host he
  exact RAM.tallied_of_empty hchunks hpages

theorem lt_of_contains {a : RV64Ptr} (ha : e.1.contains a = true) :
    e.1.leftBorder < e.1.rightBorder := by
  have hin := contains_toNat.mp ha
  exact BitVec.lt_def.mpr (Nat.lt_of_le_of_lt hin.1 hin.2)

/-- What one access does: it remembers the device, and may touch a page of it and
write to that. -/
inductive Takes (m : PhysMem) : PhysMem → Prop
  | same : Takes m m
  | remember {e : Mapping} (he : e ∈ m.devices) : Takes m (m.remember e)
  | page {e : Mapping} {a : RV64Ptr} {p : HostPtr} {r : RAM} {host host' : Host}
      (he : e ∈ m.devices) (ha : e.1.contains a = true)
      (ht : (m.rams e.2).touchPageAddress m.host (a - e.1.leftBorder) = (.ok (some p), r, host))
      (hev : (m.rams e.2).Evolves m.host r host') (hc : r.Clean host') :
      Takes m ((m.remember e).setRAM e.2 r host')

theorem takes_store (hc : m.Clean) (hg : m.Granted) (hs : m.SpillFree) (w : Width) (a : RV64Ptr)
    (v : BitVec (8 * w.size)) : m.Takes (m.store w a v).2 := by
  obtain ⟨e, he, ha, hst⟩ | ⟨-, hst⟩ := store_cases hc.cached w a v
  · have hclean := RAM.clean_store (hc.clean e he) (hg e he) (hs e he (lt_of_contains ha)) w
      ((contains_iff_sub hc.toWired he ha a).mp ha) v
    by_cases hal : (a - e.1.leftBorder).toNat % w.size = 0
    · obtain ⟨p, r, host, ht, htouch⟩ :=
        RAM.touchPageAddress_spec (hc.wired e he) (hg e he) (a - e.1.leftBorder)
      have hr := RAM.store_touched hal ht v
      rw [hr] at hclean
      rw [hst _ _ _ hr]
      exact .page he ha ht (htouch.evolves_write _ _ _) hclean
    · have hr : (m.rams e.2).store m.host w (a - e.1.leftBorder) v =
          (.error (.unalignedAddress "RAM unaligned access"), m.rams e.2, m.host) := by
        unfold RAM.store RAM.validateAddressAlignment
        rw [if_pos hal]
      have hsame : (m.remember e).setRAM e.2 (m.rams e.2) m.host = m.remember e :=
        congrArg (fun rams => { m.remember e with rams := rams }) (Function.update_eq_self _ _)
      rw [hst _ _ _ hr, hsame]
      exact .remember he
  · rw [hst]
    exact .same

theorem takes_touch_copy (hc : m.Clean) (hg : m.Granted) (a : RV64Ptr) :
    m.Takes (m.touchHostAddress a).2 ∧ ∀ p k m', m.touchHostAddress a = (.ok (some p, k), m') →
      ∀ n ≤ k.toNat, ∀ data, m.Takes (m'.copy p n data) := by
  obtain ⟨e, he, ha, ht⟩ | ⟨-, ht⟩ := touchHostAddress_cases hc.cached a
  · have hclean := hc.clean e he
    obtain ⟨q, r, host, hr, hpage, htouch⟩ :=
      RAM.touchHostAddress_spec hclean.toWired (hg e he) (a - e.1.leftBorder)
    have hnew := (RAM.touchPageAddress_clean hclean (hg e he) hpage).1
    rw [ht _ _ _ hr]
    refine ⟨.page he ha hpage htouch.evolves hnew, fun p k m' h n hn data => ?_⟩
    cases h
    have hoff := RAM.getPageOffset_lt (m.rams e.2) (a - e.1.leftBorder)
    rw [BitVec.toNat_sub_of_le (BitVec.le_def.mpr (Nat.le_of_lt hoff))] at hn
    refine .page he ha hpage (htouch.evolves_write _ n data)
      (hnew.write htouch.present (fun _ => ?_) data)
    rw [htouch.sizes]
    omega
  · rw [ht]
    exact ⟨.same, fun p k m' h => by cases h⟩

theorem Takes.evolves (hw : m.Wired) (h : m.Takes m') : m.Evolves m' := by
  cases h with
  | same => exact .refl hw
  | remember he => exact evolves_remember hw he
  | page he _ _ hev => exact evolves_access hw he hev

theorem Takes.clean (hc : m.Clean) (h : m.Takes m') : m'.Clean := by
  cases h with
  | same => exact hc
  | remember he => exact hc.remember he
  | page he _ _ hev hclean => exact clean_access hc he hev hclean

theorem Takes.tallied (hc : m.Clean) (hg : m.Granted) (h : m.Takes m') (ht : m.Tallied)
    (hin : m'.PagesInside) : m'.Tallied := by
  cases h with
  | same => exact ht
  | remember => exact ht
  | @page e a p r host host' he ha htouch hev hclean =>
    intro d hd
    by_cases hde : d = e
    · subst hde
      have hinside := hin d hd
      rw [rams_setRAM_self] at hinside ⊢
      obtain ⟨p', r', host₁, htouch', hspec⟩ :=
        RAM.touchPageAddress_spec (hc.wired d hd) (hg d hd) (a - d.1.leftBorder)
      cases htouch.symm.trans htouch'
      exact (RAM.touch_tallied (ht d hd) (hc.clean d hd) (hg d hd)
        ((contains_iff_sub hc.toWired hd ha a).mp ha) htouch hinside).congr
          (hev.pageSize.trans hspec.extend.pageSize.symm)
    · rw [(others_access hc he hev hd hde).1]
      exact (ht d hd).congr hev.pageSize

theorem Takes.inside (hc : m.Clean) (hg : m.Granted) (h : m.Takes m') (ht : m.Tallied)
    (hroomy : m.Roomy) (hin : m.PagesInside) : m'.PagesInside := by
  cases h with
  | same => exact hin
  | remember => exact hin
  | @page e a p r host host' he ha htouch hev hclean =>
    intro d hd
    by_cases hde : d = e
    · subst hde
      rw [rams_setRAM_self]
      exact RAM.touch_inside (ht d hd) (hroomy d hd (lt_of_contains ha)) (hc.clean d hd) (hg d hd)
        (hin d hd) ((contains_iff_sub hc.toWired hd ha a).mp ha) htouch
    · rw [(others_access hc he hev hd hde).1]
      exact hin d hd

/-- Clean devices that the host gives memory, and whose accesses keep to a page. -/
structure Kept (m : PhysMem) : Prop extends Clean m where
  granted : m.Granted
  spillFree : m.SpillFree

theorem Takes.kept (hk : m.Kept) (h : m.Takes m') : m'.Kept :=
  have hev := h.evolves hk.toWired
  ⟨h.clean hk.toClean, hev.granted hk.granted, hev.spillFree hk.spillFree⟩

/-- What accesses preserve, every operation preserves. -/
theorem Step.invariant {I : PhysMem → Prop} (hI : ∀ n n', n.Kept → I n → n.Takes n' → I n')
    (hk : m.Kept) (hm : I m) (h : Step m m') : m'.Kept ∧ I m' := by
  have hall : ∀ n n', n.Kept ∧ I n → n.Takes n' → n'.Kept ∧ I n' :=
    fun n n' hn ht => ⟨ht.kept hn.1, hI n n' hn.1 hn.2 ht⟩
  cases h with
  | load w a =>
    obtain ⟨e, he, -, hl⟩ | ⟨-, hl⟩ := load_cases hk.cached w a <;> rw [hl]
    · exact hall _ _ ⟨hk, hm⟩ (.remember he)
    · exact ⟨hk, hm⟩
  | store w a v => exact hall _ _ ⟨hk, hm⟩ (takes_store hk.toClean hk.granted hk.spillFree w a v)
  | getHostAddress a =>
    obtain ⟨e, he, -, hl⟩ | ⟨-, hl⟩ := getHostAddress_cases hk.cached a <;> rw [hl]
    · exact hall _ _ ⟨hk, hm⟩ (.remember he)
    · exact ⟨hk, hm⟩
  | touchHostAddress a => exact hall _ _ ⟨hk, hm⟩ (takes_touch_copy hk.toClean hk.granted a).1
  | storeContArea h =>
    refine storeContAreaLoop_invariant (I := fun n => n.Kept ∧ I n) (fun n a hn => ?_)
      (fun n a p k n' hn ht i hi data => ?_) (fun n a v hn => ?_) ⟨hk, hm⟩ h
    · exact hall _ _ hn (takes_touch_copy hn.1.toClean hn.1.granted a).1
    · exact hall _ _ hn ((takes_touch_copy hn.1.toClean hn.1.granted a).2 p k n' ht i hi data)
    · exact hall _ _ hn (takes_store hn.1.toClean hn.1.granted hn.1.spillFree .byte a v)

theorem kept_build {b : PhysMemBuilder} {calls : List MapRAM} (hb : b.Mapped calls) {host : Host}
    (hg : host.Grants calls) (hs : (b.build host).SpillFree) : (b.build host).Kept :=
  ⟨clean_build hb host, granted_build hb hg, hs⟩

structure Tidy (m : PhysMem) : Prop extends Kept m where
  inside : m.PagesInside
  tallied : m.Tallied
  roomy : m.Roomy

theorem tidy_build {b : PhysMemBuilder} {calls : List MapRAM} (hb : b.Mapped calls) {host : Host}
    (hg : host.Grants calls) (hs : (b.build host).SpillFree) (hr : (b.build host).Roomy) :
    (b.build host).Tidy :=
  ⟨kept_build hb hg hs, inside_build hb host, tallied_build hb host, hr⟩

theorem Takes.tidy (ht : m.Tidy) (h : m.Takes m') : m'.Tidy :=
  have hin := h.inside ht.toClean ht.granted ht.tallied ht.roomy ht.inside
  ⟨h.kept ht.toKept, hin, h.tallied ht.toClean ht.granted ht.tallied hin,
    (h.evolves ht.toWired).roomy ht.roomy⟩

theorem Step.tidy (ht : m.Tidy) (h : Step m m') : m'.Tidy :=
  (h.invariant (I := Tidy) (fun _ _ _ hn hs => hs.tidy hn) ht.toKept ht).2

theorem tidy_of_reach {init : PhysMem} (hinit : init.Tidy) (hm : Reach (· = init) Step m) :
    m.Tidy :=
  hm.invariant (fun _ hs => hs ▸ hinit) fun _ _ hs hst => hst.tidy hs

end PhysMem

end Besm.Mem
