import Besm.Memory.Wiring

namespace Besm.Mem

open Besm.Lib Besm.Util

theorem RAM.clean_of_empty {r : RAM} {host : Host} (hchunks : r.chunks = [])
    (hpages : r.pagemap = fun _ => none) : r.Clean host := by
  refine ⟨⟨fun c hc => ?_, fun id mem hm => ?_⟩, fun c hc => ?_, fun id id' p q hp => ?_,
    fun c chunks hc => ?_⟩
  · rw [hchunks] at hc
    exact (List.not_mem_nil hc).elim
  · rw [hpages] at hm
    exact (Option.some_ne_none _ hm.symm).elim
  · rw [hchunks] at hc
    exact (List.not_mem_nil hc).elim
  · rw [hpages] at hp
    exact (Option.some_ne_none _ hp.symm).elim
  · rw [hchunks] at hc
    exact (List.cons_ne_nil _ _ hc.symm).elim

namespace PhysMem

variable {m m' : PhysMem} {e e' : Mapping}

theorem contains_toNat {a : RV64Ptr} : e.1.contains a = true ↔
    e.1.leftBorder.toNat ≤ a.toNat ∧ a.toNat < e.1.rightBorder.toNat := by
  rw [Range.contains_iff, BitVec.le_def, BitVec.lt_def]

theorem contains_iff_sub (hw : m.Wired) (he : e ∈ m.devices) {a : RV64Ptr}
    (ha : e.1.contains a = true) (x : RV64Ptr) :
    e.1.contains x = true ↔
      (x - e.1.leftBorder).toNat < (m.rams e.2).ramSize.toNat := by
  rw [contains_toNat] at ha ⊢
  rw [hw.range e he, BitVec.toNat_add] at ha ⊢
  rw [BitVec.toNat_sub]
  have hx := x.isLt
  have hl := e.1.leftBorder.isLt
  have hs := (m.rams e.2).ramSize.isLt
  omega

theorem rightBorder_toNat (hw : m.Wired) (he : e ∈ m.devices) {a : RV64Ptr}
    (ha : e.1.contains a = true) :
    e.1.rightBorder.toNat = e.1.leftBorder.toNat + (m.rams e.2).ramSize.toNat := by
  have hin := contains_toNat.mp ha
  rw [hw.range e he, BitVec.toNat_add] at hin ⊢
  have hl := e.1.leftBorder.isLt
  have hs := (m.rams e.2).ramSize.isLt
  omega

def byteIn (m : PhysMem) (e : Mapping) (a : RV64Ptr) : BitVec 8 :=
  (m.rams e.2).byteAt m.host (a - e.1.leftBorder)

/-- All pages are apart, and those still to come will be zero. -/
structure Clean (m : PhysMem) : Prop extends Wired m where
  clean : ∀ e ∈ m.devices, (m.rams e.2).Clean m.host

theorem Clean.remember (hc : m.Clean) (he : e ∈ m.devices) : (m.remember e).Clean :=
  ⟨hc.toWired.remember he, hc.clean⟩

theorem clean_build {b : PhysMemBuilder} {calls : List MapRAM} (hb : b.Mapped calls)
    (host : Host) : (b.build host).Clean := by
  refine ⟨wired_build hb host, fun e he => ?_⟩
  obtain ⟨-, -, -, -, -, -, hchunks, hpages⟩ := rams_build hb host he
  exact RAM.clean_of_empty hchunks hpages

theorem inside_build {b : PhysMemBuilder} {calls : List MapRAM} (hb : b.Mapped calls)
    (host : Host) : (b.build host).PagesInside := by
  intro e he id p hp
  obtain ⟨-, -, -, -, -, -, -, hpages⟩ := rams_build hb host he
  rw [hpages] at hp
  cases hp

/-- What the memory looks like after `n` bytes were copied to `a`, in one device,
if its pages still lie in its chunks. -/
structure Updated (m : PhysMem) (e : Mapping) (a : RV64Ptr) (n : Nat) (data : Nat → BitVec 8)
    (m' : PhysMem) : Prop extends Evolves m m' where
  clean : m'.Clean
  present : (m'.rams e.2).pagemap ((m.rams e.2).getPageId (a - e.1.leftBorder)) ≠ none
  byteIn : m'.PagesInside → ∀ d ∈ m.devices, ∀ x, m'.byteIn d x =
    if d = e ∧ (x - a).toNat < n then data (x - a).toNat else m.byteIn d x

theorem others_access (hc : m.Clean) (he : e ∈ m.devices) {r : RAM} {host : Host}
    (h : (m.rams e.2).Evolves m.host r host) {d : Mapping} (hd : d ∈ m.devices) (hde : d ≠ e) :
    ((m.remember e).setRAM e.2 r host).rams d.2 = m.rams d.2 ∧
      ∀ k, (m.rams d.2).Owns k → host.bytes k = m.host.bytes k := by
  refine ⟨(m.remember e).rams_setRAM_of_ne (fun hid => hde (hc.device d hd e he hid)) r host,
    fun k hk => h.bytes_of_not_owns ((hc.wired d hd).region_lt hk) fun hek => ?_⟩
  exact hc.apart d hd e he hde k hk hek

theorem clean_access (hc : m.Clean) (he : e ∈ m.devices) {r : RAM} {host : Host}
    (h : (m.rams e.2).Evolves m.host r host) (hr : r.Clean host) :
    ((m.remember e).setRAM e.2 r host).Clean := by
  refine ⟨(evolves_access hc.toWired he h).wired, fun d hd => ?_⟩
  by_cases hde : d = e
  · subst hde
    rw [rams_setRAM_self]
    exact hr
  · obtain ⟨hsame, hbytes⟩ := others_access hc he h hd hde
    rw [hsame]
    exact (hc.clean d hd).agree h.regions h.pageSize hbytes

theorem updated_access (hc : m.Clean) (he : e ∈ m.devices) {a : RV64Ptr} {n : Nat}
    {data : Nat → BitVec 8} {r : RAM} {host : Host}
    (h : (m.rams e.2).Updated m.host (a - e.1.leftBorder) n data r host) :
    m.Updated e a n data ((m.remember e).setRAM e.2 r host) := by
  refine ⟨evolves_access hc.toWired he h.toEvolves, clean_access hc he h.toEvolves h.clean, ?_,
    fun hin d hd x => ?_⟩
  · rw [rams_setRAM_self]
    exact h.present
  unfold PhysMem.byteIn
  by_cases hde : d = e
  · subst hde
    have hsub : x - d.1.leftBorder - (a - d.1.leftBorder) = x - a := by bv_omega
    have hinside := hin d hd
    rw [rams_setRAM_self] at hinside ⊢
    change r.byteAt host _ = _
    rw [h.byteAt hinside, hsub]
    simp only [true_and]
  · obtain ⟨hr, hbytes⟩ := others_access hc he h.toEvolves hd hde
    rw [hr, if_neg fun hand => hde hand.1]
    exact RAM.byteAt_agree (hc.wired d hd) hbytes _

def Within (e : Mapping) (a : RV64Ptr) (n : Nat) : Prop :=
  ∀ i < n, e.1.contains (a + BitVec.ofNat 64 i) = true

instance (e : Mapping) (a : RV64Ptr) (n : Nat) : Decidable (Within e a n) :=
  inferInstanceAs (Decidable (∀ i < n, e.1.contains (a + BitVec.ofNat 64 i) = true))

theorem Within.contains {a : RV64Ptr} {n : Nat} (h : Within e a n) (hn : 0 < n) :
    e.1.contains a = true := by
  have h0 := h 0 hn
  rwa [BitVec.add_zero] at h0

theorem contains_of_sub_lt {a x : RV64Ptr} {n : Nat} (h : Within e a n)
    (hx : (x - a).toNat < n) : e.1.contains x = true := by
  have hin := h _ hx
  rwa [add_toNat_sub] at hin

theorem load_spec (hw : m.Wired) (hd : m.Disjoint) (he : e ∈ m.devices) (w : Width)
    {a : RV64Ptr} (ha : e.1.contains a = true) (hal : (a - e.1.leftBorder).toNat % w.size = 0)
    (hfit : ((m.rams e.2).getPageOffset (a - e.1.leftBorder)).toNat + w.size ≤
      (m.rams e.2).pageSize.toNat) :
    m.load w a = (.ok (LittleEndian.word w.size fun i => m.byteIn e (a + BitVec.ofNat 64 i)),
      m.remember e) := by
  obtain ⟨d, hd', ha', hl⟩ | ⟨hnone, -⟩ := load_cases hw.cached w a
  · obtain rfl := hd e he d hd' a ha ha'
    rw [hl, RAM.load_spec (hw.wired e he) w hal hfit]
    refine congrArg (fun v => (Except.ok v, m.remember e)) (LittleEndian.word_congr fun i _ => ?_)
    have hsub : a - e.1.leftBorder + BitVec.ofNat 64 i =
        a + BitVec.ofNat 64 i - e.1.leftBorder := by bv_omega
    rw [byteIn, hsub]
  · exact absurd ((hnone e he).symm.trans ha) Bool.false_ne_true

theorem loadByte_spec (hw : m.Wired) (hd : m.Disjoint) (he : e ∈ m.devices) {a : RV64Ptr}
    (ha : e.1.contains a = true) : (m.load .byte a).1 = .ok (m.byteIn e a) := by
  have hfit := RAM.getPageOffset_lt (m.rams e.2) (a - e.1.leftBorder)
  rw [load_spec hw hd he .byte ha (Nat.mod_one _) hfit]
  refine congrArg Except.ok ((LittleEndian.word_one _).trans ?_)
  exact congrArg (m.byteIn e) (BitVec.add_zero a)

theorem store_spec (hc : m.Clean) (hg : m.Granted) (hd : m.Disjoint) (he : e ∈ m.devices)
    (w : Width) {a : RV64Ptr} (ha : e.1.contains a = true)
    (hal : (a - e.1.leftBorder).toNat % w.size = 0)
    (hfit : ((m.rams e.2).getPageOffset (a - e.1.leftBorder)).toNat + w.size ≤
      (m.rams e.2).pageSize.toNat) (v : BitVec (8 * w.size)) :
    ∃ m', m.store w a v = (.ok (), m') ∧ m.Updated e a w.size (LittleEndian.byte v) m' := by
  obtain ⟨d, hd', ha', hs⟩ | ⟨hnone, -⟩ := store_cases hc.cached w a v
  · obtain rfl := hd e he d hd' a ha ha'
    obtain ⟨r, host, hr, hu⟩ := RAM.store_spec (hc.clean e he) (hg e he) w
      ((contains_iff_sub hc.toWired he ha a).mp ha) hal hfit v
    exact ⟨_, hs _ _ _ hr, updated_access hc he hu⟩
  · exact absurd ((hnone e he).symm.trans ha) Bool.false_ne_true

theorem touchHostAddress_spec (hc : m.Clean) (hg : m.Granted) (hd : m.Disjoint)
    (he : e ∈ m.devices) {a : RV64Ptr} (ha : e.1.contains a = true) :
    ∃ p m', m.touchHostAddress a = (.ok (some p, (m.rams e.2).pageSize -
        (m.rams e.2).getPageOffset (a - e.1.leftBorder)), m') ∧
      ∀ n, 0 < n → ((m.rams e.2).getPageOffset (a - e.1.leftBorder)).toNat + n ≤
        (m.rams e.2).pageSize.toNat → ∀ data, m.Updated e a n data (m'.copy p n data) := by
  obtain ⟨d, hd', ha', ht⟩ | ⟨hnone, -⟩ := touchHostAddress_cases hc.cached a
  · obtain rfl := hd e he d hd' a ha ha'
    obtain ⟨p, r, host, hr, hu⟩ := RAM.updated_write (hc.clean e he) (hg e he)
      ((contains_iff_sub hc.toWired he ha a).mp ha)
    exact ⟨p, _, ht _ _ _ hr, fun n hpos hn data => updated_access hc he (hu n hpos hn data)⟩
  · exact absurd ((hnone e he).symm.trans ha) Bool.false_ne_true

/-- An outcome of a load does not depend on the device that was accessed last. -/
theorem load_congr {n : PhysMem} (hc : m.Cached) (hn : n.Cached) (hd : m.Disjoint)
    (hdevices : n.devices = m.devices) (hrams : n.rams = m.rams) (hhost : n.host = m.host)
    (w : Width) (a : RV64Ptr) : (n.load w a).1 = (m.load w a).1 := by
  obtain ⟨e, he, ha, hl⟩ | ⟨hnone, hl⟩ := load_cases hc w a
  · obtain ⟨e', he', ha', hl'⟩ | ⟨hnone', -⟩ := load_cases hn w a
    · obtain rfl := hd e he e' (hdevices ▸ he') a ha ha'
      rw [hl, hl', hrams, hhost]
    · exact absurd ((hnone' e (hdevices ▸ he)).symm.trans ha) Bool.false_ne_true
  · obtain ⟨e', he', ha', -⟩ | ⟨-, hl'⟩ := load_cases hn w a
    · exact absurd ((hnone e' (hdevices ▸ he')).symm.trans ha') Bool.false_ne_true
    · rw [hl, hl']

theorem load_load (hc : m.Cached) (hd : m.Disjoint) (w w' : Width) (a a' : RV64Ptr) :
    ((m.load w a).2.load w' a').1 = (m.load w' a').1 := by
  obtain ⟨e, he, -, hl⟩ | ⟨-, hl⟩ := load_cases hc w a <;> rw [hl]
  exact load_congr (n := m.remember e) hc (fun _ _ => he) hd rfl rfl rfl w' a'

end PhysMem

end Besm.Mem
