import Besm.Memory.Mapping

namespace Besm.Mem

def MapRAM.mmapSize (c : MapRAM) (host : Host) : Nat :=
  (Chunk.hostMmapSize c.ramChunkSize host.pageSize).toNat

structure Host.Grants (host : Host) (calls : List MapRAM) : Prop where
  refuses : ∀ n, host.refuses n = false
  mmapSize : ∀ c ∈ calls, 0 < c.mmapSize host

namespace PhysMem

open Besm.Lib.Transition Besm.Util

variable {m m' : PhysMem} {e e' : Mapping}

/-- The devices are as large as their ranges, and no two of them share memory
of the host. -/
structure Wired (m : PhysMem) : Prop where
  cached : m.Cached
  range : ∀ e ∈ m.devices, e.1.rightBorder = e.1.leftBorder + (m.rams e.2).ramSize
  device : ∀ e ∈ m.devices, ∀ e' ∈ m.devices, e.2 = e'.2 → e = e'
  wired : ∀ e ∈ m.devices, (m.rams e.2).Wired m.host
  apart : ∀ e ∈ m.devices, ∀ e' ∈ m.devices, e ≠ e' →
    ∀ k, (m.rams e.2).Owns k → ¬(m.rams e'.2).Owns k

def Granted (m : PhysMem) : Prop := ∀ e ∈ m.devices, (m.rams e.2).Granted m.host

/-- The devices have handed out no page beyond the end of its chunk. -/
def PagesInside (m : PhysMem) : Prop := ∀ e ∈ m.devices, (m.rams e.2).PagesInside

structure Evolves (m m' : PhysMem) : Prop where
  wired : m'.Wired
  devices : m'.devices = m.devices
  sizes : ∀ d, (m'.rams d).toRAMSizes = (m.rams d).toRAMSizes
  pages : ∀ d id mem, (m.rams d).pagemap id = some mem → (m'.rams d).pagemap id = some mem
  refuses : m'.host.refuses = m.host.refuses
  pageSize : m'.host.pageSize = m.host.pageSize
  inside : m'.PagesInside → m.PagesInside

theorem Evolves.refl (hw : m.Wired) : m.Evolves m :=
  ⟨hw, rfl, fun _ => rfl, fun _ _ _ h => h, rfl, rfl, id⟩

theorem Evolves.trans {m₁ m₂ : PhysMem} (h : m.Evolves m₁) (h' : m₁.Evolves m₂) : m.Evolves m₂ :=
  ⟨h'.wired, h'.devices.trans h.devices, fun d => (h'.sizes d).trans (h.sizes d),
    fun d id mem hm => h'.pages d id mem (h.pages d id mem hm), h'.refuses.trans h.refuses,
    h'.pageSize.trans h.pageSize, fun hin => h.inside (h'.inside hin)⟩

theorem Evolves.granted (h : m.Evolves m') (hg : m.Granted) : m'.Granted := by
  intro e he
  rw [h.devices] at he
  exact (hg e he).congr (h.sizes e.2) h.refuses h.pageSize

theorem Evolves.disjoint (h : m.Evolves m') (hd : m.Disjoint) : m'.Disjoint := by
  unfold Disjoint
  rw [h.devices]
  exact hd

theorem Wired.remember (hw : m.Wired) (he : e ∈ m.devices) : (m.remember e).Wired :=
  ⟨fun _ _ => he, hw.range, hw.device, hw.wired, hw.apart⟩

theorem evolves_remember (hw : m.Wired) (he : e ∈ m.devices) : m.Evolves (m.remember e) :=
  ⟨hw.remember he, rfl, fun _ => rfl, fun _ _ _ h => h, rfl, rfl, id⟩

theorem rams_setRAM_self (m : PhysMem) (d : DeviceId) (r : RAM) (host : Host) :
    (m.setRAM d r host).rams d = r := by
  simp only [setRAM, Function.update_self]

theorem rams_setRAM_of_ne (m : PhysMem) {d d' : DeviceId} (h : d' ≠ d) (r : RAM) (host : Host) :
    (m.setRAM d r host).rams d' = m.rams d' := by
  simp only [setRAM, Function.update_of_ne h]

theorem evolves_setRAM (hw : m.Wired) (he : e ∈ m.devices) {r : RAM} {host : Host}
    (h : (m.rams e.2).Evolves m.host r host) : m.Evolves (m.setRAM e.2 r host) := by
  have hsame : ∀ d ∈ m.devices, d = e ∨ (m.setRAM e.2 r host).rams d.2 = m.rams d.2 := by
    intro d hd
    by_cases hde : d.2 = e.2
    · exact .inl (hw.device d hd e he hde)
    · exact .inr (m.rams_setRAM_of_ne hde r host)
  have hown : ∀ d ∈ m.devices, d ≠ e → ∀ k, r.Owns k → ¬(m.rams d.2).Owns k := by
    intro d hd hde k hk hdk
    obtain ho | hge := h.owned hk
    · exact hw.apart e he d hd (Ne.symm hde) k ho hdk
    · exact absurd ((hw.wired d hd).region_lt hdk) (Nat.not_lt.mpr hge)
  refine ⟨⟨hw.cached, fun d hd => ?_, hw.device, fun d hd => ?_, fun d hd d' hd' hne k => ?_⟩, rfl,
    fun d => ?_, fun d id mem hmem => ?_, h.refuses, h.pageSize, fun hin d hd => ?_⟩
  · obtain rfl | hr := hsame d hd
    · rw [rams_setRAM_self, h.sizes]
      exact hw.range d hd
    · rw [hr]
      exact hw.range d hd
  · obtain rfl | hr := hsame d hd
    · rw [rams_setRAM_self]
      exact h.wired
    · rw [hr]
      exact (hw.wired d hd).mono h.regions
  · obtain rfl | hr := hsame d hd
    · obtain rfl | hr' := hsame d' hd'
      · exact absurd rfl hne
      · rw [rams_setRAM_self, hr']
        exact hown d' hd' (Ne.symm hne) k
    · obtain rfl | hr' := hsame d' hd'
      · rw [rams_setRAM_self, hr]
        exact fun hk hrk => hown d hd hne k hrk hk
      · rw [hr, hr']
        exact hw.apart d hd d' hd' hne k
  · by_cases hde : d = e.2
    · rw [hde, rams_setRAM_self, h.sizes]
    · rw [rams_setRAM_of_ne m hde]
  · by_cases hde : d = e.2
    · rw [hde] at hmem ⊢
      rw [rams_setRAM_self]
      exact h.pages id mem hmem
    · rw [rams_setRAM_of_ne m hde]
      exact hmem
  · have hinside := hin d hd
    obtain rfl | hr := hsame d hd
    · rw [rams_setRAM_self] at hinside
      exact h.inside (hw.wired d hd) hinside
    · rwa [hr] at hinside

theorem evolves_access (hw : m.Wired) (he : e ∈ m.devices) {r : RAM} {host : Host}
    (h : (m.rams e.2).Evolves m.host r host) : m.Evolves ((m.remember e).setRAM e.2 r host) :=
  (evolves_remember hw he).trans (evolves_setRAM (hw.remember he) he h)

theorem evolves_load (hw : m.Wired) (w : Width) (a : RV64Ptr) : m.Evolves (m.load w a).2 := by
  obtain ⟨e, he, -, hl⟩ | ⟨-, hl⟩ := load_cases hw.cached w a <;> rw [hl]
  · exact evolves_remember hw he
  · exact .refl hw

theorem evolves_store (hw : m.Wired) (hg : m.Granted) (w : Width) (a : RV64Ptr)
    (v : BitVec (8 * w.size)) : m.Evolves (m.store w a v).2 := by
  obtain ⟨e, he, -, hs⟩ | ⟨-, hs⟩ := store_cases hw.cached w a v
  · have hwired := hw.wired e he
    obtain ⟨-, hr⟩ | ⟨-, p, r, host, htouch, hr⟩ :=
      RAM.store_cases hwired (hg e he) w (a - e.1.leftBorder) v
    · rw [hs _ _ _ hr]
      exact evolves_access hw he (.refl hwired)
    · rw [hs _ _ _ hr]
      exact evolves_access hw he (htouch.evolves_write _ _ _)
  · rw [hs]
    exact .refl hw

theorem evolves_getHostAddress (hw : m.Wired) (a : RV64Ptr) :
    m.Evolves (m.getHostAddress a).2 := by
  obtain ⟨e, he, -, hg⟩ | ⟨-, hg⟩ := getHostAddress_cases hw.cached a <;> rw [hg]
  · exact evolves_remember hw he
  · exact .refl hw

theorem evolves_touch_copy (hw : m.Wired) (hg : m.Granted) (a : RV64Ptr) :
    m.Evolves (m.touchHostAddress a).2 ∧ ∀ p k m', m.touchHostAddress a = (.ok (some p, k), m') →
      ∀ n data, m.Evolves (m'.copy p n data) := by
  obtain ⟨e, he, -, ht⟩ | ⟨-, ht⟩ := touchHostAddress_cases hw.cached a
  · obtain ⟨q, r, host, hr, -, htouch⟩ :=
      RAM.touchHostAddress_spec (hw.wired e he) (hg e he) (a - e.1.leftBorder)
    rw [ht _ _ _ hr]
    refine ⟨evolves_access hw he htouch.evolves, fun p k m' h n data => ?_⟩
    cases h
    exact evolves_access hw he (htouch.evolves_write _ n data)
  · rw [ht]
    exact ⟨.refl hw, fun p k m' h => by cases h⟩

theorem Step.evolves (hw : m.Wired) (hg : m.Granted) (h : Step m m') : m.Evolves m' := by
  cases h with
  | load w a => exact evolves_load hw w a
  | store w a v => exact evolves_store hw hg w a v
  | getHostAddress a => exact evolves_getHostAddress hw a
  | touchHostAddress a => exact (evolves_touch_copy hw hg a).1
  | storeContArea h =>
    refine storeContAreaLoop_invariant (I := m.Evolves) (fun n a hn => ?_)
      (fun n a p k n' hn ht i _ data => ?_) (fun n a v hn => ?_) (.refl hw) h
    · exact hn.trans (evolves_touch_copy hn.wired (hn.granted hg) a).1
    · exact hn.trans ((evolves_touch_copy hn.wired (hn.granted hg) a).2 p k n' ht i data)
    · exact hn.trans (evolves_store hn.wired (hn.granted hg) .byte a v)

theorem rams_build {b : PhysMemBuilder} {calls : List MapRAM} (hb : b.Mapped calls) (host : Host)
    {e : Mapping} (he : e ∈ b.devices) : ∃ c ∈ calls, e.1 = c.range ∧
      ((b.build host).rams e.2).ramSize = c.ramSize ∧
      ((b.build host).rams e.2).pageSize = c.ramPageSize ∧
      ((b.build host).rams e.2).chunkSize = c.ramChunkSize ∧
      ((b.build host).rams e.2).chunks = [] ∧
      ((b.build host).rams e.2).pagemap = fun _ => none := by
  obtain ⟨c, hc, hrange⟩ := hb.entry e he
  obtain ⟨r, hr, hcreate⟩ := hb.ram _ c hc
  have hrams : (b.build host).rams e.2 = r := by
    change b.rams.getD e.2 default = r
    rw [List.getD_eq_getElem?_getD, hr, Option.getD_some]
  rw [hrams]
  exact ⟨c, List.mem_of_getElem? hc, hrange, PhysMemBuilder.create_sizes hcreate⟩

theorem wired_build {b : PhysMemBuilder} {calls : List MapRAM} (hb : b.Mapped calls)
    (host : Host) : (b.build host).Wired := by
  refine ⟨PhysMemBuilder.cached_build b host, fun e he => ?_, fun e he e' he' hid => ?_,
    fun e he => ?_, fun e he e' _ _ k hk => ?_⟩
  · obtain ⟨c, -, hrange, hsize, -⟩ := rams_build hb host he
    rw [hsize, hrange, MapRAM.range]
  · obtain ⟨c, hc, hrange⟩ := hb.entry e he
    obtain ⟨d, hd, hrange'⟩ := hb.entry e' he'
    obtain rfl := Option.some.inj (hc.symm.trans (hid ▸ hd))
    exact Prod.ext (hrange.trans hrange'.symm) hid
  · obtain ⟨-, -, -, -, -, -, hchunks, hpages⟩ := rams_build hb host he
    refine ⟨fun c hc => ?_, fun id mem hm => ?_⟩
    · rw [hchunks] at hc
      exact (List.not_mem_nil hc).elim
    · rw [hpages] at hm
      exact (Option.some_ne_none _ hm.symm).elim
  · obtain ⟨-, -, -, -, -, -, hchunks, -⟩ := rams_build hb host he
    obtain ⟨c, hc, -⟩ := hk
    rw [hchunks] at hc
    exact (List.not_mem_nil hc).elim

theorem granted_build {b : PhysMemBuilder} {calls : List MapRAM} (hb : b.Mapped calls)
    {host : Host} (hg : host.Grants calls) : (b.build host).Granted := by
  intro e he
  obtain ⟨c, hc, -, -, -, hchunk, -⟩ := rams_build hb host he
  refine ⟨hg.refuses, ?_⟩
  rw [RAM.mmapSize, hchunk]
  exact hg.mmapSize c hc

/-- Whatever is done to a memory that was built keeps its devices apart. -/
theorem reach_evolves {b : PhysMemBuilder} {calls : List MapRAM} {host : Host}
    (h : PhysMemBuilder.empty.mapRAMs calls = .ok b) (hg : host.Grants calls)
    (hm : Reach (· = b.build host) Step m) : (b.build host).Evolves m := by
  have hb := PhysMemBuilder.mapped_of_empty h
  refine hm.invariant (fun s hs => ?_) fun s t hs hst => ?_
  · rw [hs]
    exact .refl (wired_build hb host)
  · exact hs.trans (hst.evolves hs.wired (hs.granted (granted_build hb hg)))

theorem grants_adjacent : Host.willing.Grants PhysMemBuilder.adjacent := by
  refine ⟨fun _ => rfl, fun c hc => ?_⟩
  obtain rfl | hc := List.mem_cons.mp hc
  · decide
  · obtain rfl := List.mem_singleton.mp hc
    decide

end PhysMem

end Besm.Mem
