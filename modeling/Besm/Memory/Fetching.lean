import Besm.Memory.ContArea
import Besm.Memory.Prefetcher

namespace Besm.Mem.Prefetcher

open Besm.Lib Besm.Lib.Transition Besm.Util

variable {f f' : Prefetcher} {m : PhysMem} {e : Mapping} {v : RV64Ptr}

/-- The window starts at a word of a page that the device has, and ends with the page. -/
structure InPage (f : Prefetcher) (e : Mapping) (p : HostPtr) : Prop where
  contains : e.1.contains f.start = true
  aligned : f.start.toNat % 4 = 0
  page : (f.mmu.pMem.rams e.2).pagemap
    ((f.mmu.pMem.rams e.2).getPageId (f.start - e.1.leftBorder)) = some (some p)
  saved : f.saved =
    some (p.add ((f.mmu.pMem.rams e.2).getPageOffset (f.start - e.1.leftBorder)).toNat)
  len : f.len = (f.mmu.pMem.rams e.2).pageSize -
    (f.mmu.pMem.rams e.2).getPageOffset (f.start - e.1.leftBorder)

def Window (f : Prefetcher) : Prop :=
  f.len = 0 ∨ ∃ e ∈ f.mmu.pMem.devices, ∃ p, f.InPage e p

theorem InPage.congr {p : HostPtr} (h : f.InPage e p) (hev : f.mmu.pMem.Evolves f'.mmu.pMem)
    (hsaved : f'.saved = f.saved) (hstart : f'.start = f.start) (hlen : f'.len = f.len) :
    f'.InPage e p := by
  have hsizes := hev.sizes e.2
  have hid := RAM.getPageId_congr hsizes (f.start - e.1.leftBorder)
  have hoff := RAM.getPageOffset_congr hsizes (f.start - e.1.leftBorder)
  refine ⟨hstart ▸ h.contains, hstart ▸ h.aligned, ?_, ?_, ?_⟩
  · rw [hstart, hid]
    exact hev.pages _ _ _ h.page
  · rw [hsaved, hstart, hoff, h.saved]
  · rw [hlen, hstart, hoff, hsizes, h.len]

theorem Window.congr (h : f.Window) (hev : f.mmu.pMem.Evolves f'.mmu.pMem)
    (hsaved : f'.saved = f.saved) (hstart : f'.start = f.start) (hlen : f'.len = f.len) :
    f'.Window := by
  obtain h | ⟨e, he, p, h⟩ := h
  · exact .inl (hlen.trans h)
  · exact .inr ⟨e, hev.devices ▸ he, p, h.congr hev hsaved hstart hlen⟩

abbrev Ahead (f : Prefetcher) (v : RV64Ptr) : Prop := f.start < v ∧ v < f.start + f.len

theorem not_ahead_of_len (h : f.len = 0) : ¬f.Ahead v := by
  intro ha
  have hempty : f.start + f.len = f.start := by
    rw [h]
    exact BitVec.add_zero _
  exact absurd ha.1 (BitVec.lt_asymm (hempty ▸ ha.2))

theorem loadWord_ahead (h : f.Ahead v) (hal : (v - f.start).toNat % 4 = 0) :
    f.loadWord v = (f.readSaved (v - f.start).toNat, f) := by
  unfold loadWord
  rw [if_pos h, if_neg (not_not.mpr hal), Nat.mul_div_cancel' (Nat.dvd_of_mod_eq_zero hal)]

/-- A fetch that is not in the window moves it, where there is a page to move it to. -/
theorem loadWord_cases (hw : f.mmu.pMem.Wired) (h : ¬f.Ahead v) :
    (∃ e ∈ f.mmu.pMem.devices, e.1.contains v = true ∧
      ((∃ p, (f.mmu.pMem.rams e.2).pagemap ((f.mmu.pMem.rams e.2).getPageId
          (v - e.1.leftBorder)) = some (some p) ∧
        f.loadWord v =
          (.ok (f.mmu.pMem.host.read .word
            (p.add ((f.mmu.pMem.rams e.2).getPageOffset (v - e.1.leftBorder)).toNat)),
          ⟨⟨f.mmu.pMem.remember e⟩,
            some (p.add ((f.mmu.pMem.rams e.2).getPageOffset (v - e.1.leftBorder)).toNat), v,
            (f.mmu.pMem.rams e.2).pageSize -
              (f.mmu.pMem.rams e.2).getPageOffset (v - e.1.leftBorder)⟩)) ∨
      ((f.mmu.pMem.rams e.2).pagemap ((f.mmu.pMem.rams e.2).getPageId
          (v - e.1.leftBorder)) = none ∧
        f.loadWord v = (((f.mmu.pMem.remember e).load .word v).1,
          { f with mmu := ⟨((f.mmu.pMem.remember e).load .word v).2⟩ })))) ∨
    ((∀ e ∈ f.mmu.pMem.devices, e.1.contains v = false) ∧
      f.loadWord v = (.error (.invalidAddress "Device not found"), f)) := by
  unfold loadWord MMU.getHostAddress MMU.translateAddress
  rw [if_neg h]
  obtain ⟨e, he, ha, hget⟩ | ⟨hnone, hget⟩ := PhysMem.getHostAddress_cases hw.cached v
  · refine .inl ⟨e, he, ha, ?_⟩
    rw [hget]
    dsimp only
    cases hm : (f.mmu.pMem.rams e.2).pagemap ((f.mmu.pMem.rams e.2).getPageId
        (v - e.1.leftBorder)) with
    | none =>
      rw [RAM.getHostAddress_absent hm]
      exact .inr ⟨rfl, rfl⟩
    | some mem =>
      obtain ⟨p, rfl, -⟩ := (hw.wired e he).page _ _ hm
      have hoff := RAM.getPageOffset_lt (f.mmu.pMem.rams e.2) (v - e.1.leftBorder)
      have hpos : 0 < (f.mmu.pMem.rams e.2).pageSize -
          (f.mmu.pMem.rams e.2).getPageOffset (v - e.1.leftBorder) := by
        rw [BitVec.lt_def, BitVec.toNat_sub_of_le (BitVec.le_def.mpr (Nat.le_of_lt hoff))]
        exact Nat.sub_pos_of_lt hoff
      rw [RAM.getHostAddress_present hm]
      dsimp only
      rw [if_pos hpos]
      exact .inl ⟨p, rfl, rfl⟩
  · refine .inr ⟨hnone, ?_⟩
    rw [hget]

/-- The memory is one that was built, and the window is a part of it. -/
structure Sound (m : PhysMem) (f : Prefetcher) : Prop where
  evolves : m.Evolves f.mmu.pMem
  window : f.Window

theorem sound_create (hw : m.Wired) : Sound m (create ⟨m⟩) := ⟨.refl hw, .inl rfl⟩

theorem Sound.loadWord (h : Sound m f) (hv : v.toNat % 4 = 0) : Sound m (f.loadWord v).2 := by
  have hw := h.evolves.wired
  by_cases hahead : f.Ahead v
  · unfold Prefetcher.loadWord
    rw [if_pos hahead]
    split_ifs <;> exact h
  · obtain ⟨e, he, ha, ⟨p, hm, hl⟩ | ⟨-, hl⟩⟩ | ⟨-, hl⟩ := loadWord_cases hw hahead
    · rw [hl]
      exact ⟨h.evolves.trans (PhysMem.evolves_remember hw he),
        .inr ⟨e, he, p, ha, hv, hm, rfl, rfl⟩⟩
    · have hev := (PhysMem.evolves_remember hw he).trans
        (PhysMem.evolves_load (hw.remember he) .word v)
      rw [hl]
      exact ⟨h.evolves.trans hev, h.window.congr hev rfl rfl rfl⟩
    · rw [hl]
      exact h

theorem Step.sound (hg : m.Granted) (h : Sound m f) (hs : Step f f') : Sound m f' := by
  have hw := h.evolves.wired
  cases hs with
  | fetch hv => exact h.loadWord hv
  | load w a =>
    have hev := PhysMem.evolves_load hw w a
    exact ⟨h.evolves.trans hev, h.window.congr hev rfl rfl rfl⟩
  | store w a x =>
    have hev := PhysMem.evolves_store hw (h.evolves.granted hg) w a x
    exact ⟨h.evolves.trans hev, h.window.congr hev rfl rfl rfl⟩

theorem reach_sound (hw : m.Wired) (hg : m.Granted)
    (hf : Reach (· = create ⟨m⟩) Step f) : Sound m f :=
  hf.invariant (fun s hs => by rw [hs]; exact sound_create hw) fun _ _ hs hst => hst.sound hg hs

/-- A fetch has the outcome of a load, which is an error where nothing is mapped. -/
structure Agrees (f : Prefetcher) (v : RV64Ptr) : Prop where
  load : (f.loadWord v).1 = (Memory.load f .word v).1
  unmapped : (∀ e ∈ f.mmu.pMem.devices, e.1.contains v = false) →
    (f.loadWord v).1 = .error (.invalidAddress "Device not found")

theorem agrees_of_load (hw : f.mmu.pMem.Wired)
    (h : (f.loadWord v).1 = (Memory.load f .word v).1) : f.Agrees v := by
  refine ⟨h, fun hnone => h.trans ?_⟩
  obtain ⟨e, he, ha, -⟩ | ⟨-, hl⟩ := PhysMem.load_cases hw.cached .word v
  · exact absurd ((hnone e he).symm.trans ha) Bool.false_ne_true
  · exact congrArg Prod.fst hl

def BaseAligned (m : PhysMem) : Prop := ∀ e ∈ m.devices, e.1.leftBorder.toNat % 4 = 0

def pagesEnd (m : PhysMem) (e : Mapping) : Nat :=
  e.1.leftBorder.toNat + (m.rams e.2).pageSize.toNat *
    (((m.rams e.2).ramSize.toNat - 1) / (m.rams e.2).pageSize.toNat + 1)

/-- No word begins behind the end of a device and within its last page. -/
def NoTail (m : PhysMem) : Prop :=
  ∀ e ∈ m.devices, e.1.leftBorder < e.1.rightBorder → ∀ v : RV64Ptr, v.toNat % 4 = 0 →
    ¬(e.1.rightBorder.toNat ≤ v.toNat ∧ v.toNat < pagesEnd m e ∧ pagesEnd m e < 2 ^ 64)

theorem toNat_sub_left {a : RV64Ptr} (ha : e.1.contains a = true) :
    (a - e.1.leftBorder).toNat = a.toNat - e.1.leftBorder.toNat :=
  BitVec.toNat_sub_of_le (BitVec.le_def.mpr (PhysMem.contains_toNat.mp ha).1)

theorem InPage.ahead {p : HostPtr} (h : f.InPage e p) (ha : f.Ahead v) :
    v.toNat = f.start.toNat + (v - f.start).toNat ∧
      ((f.mmu.pMem.rams e.2).getPageOffset (f.start - e.1.leftBorder)).toNat +
        (v - f.start).toNat < (f.mmu.pMem.rams e.2).pageSize.toNat ∧
      f.start.toNat + (f.mmu.pMem.rams e.2).pageSize.toNat < 2 ^ 64 +
        ((f.mmu.pMem.rams e.2).getPageOffset (f.start - e.1.leftBorder)).toNat := by
  obtain ⟨hlt, hend⟩ := ha
  have hoff := RAM.getPageOffset_lt (f.mmu.pMem.rams e.2) (f.start - e.1.leftBorder)
  rw [BitVec.lt_def] at hlt hend
  rw [h.len, BitVec.toNat_add, BitVec.toNat_sub_of_le (BitVec.le_def.mpr (Nat.le_of_lt hoff))]
    at hend
  have hsub : (v - f.start).toNat = v.toNat - f.start.toNat :=
    BitVec.toNat_sub_of_le (BitVec.le_def.mpr (Nat.le_of_lt hlt))
  have hpage := (f.mmu.pMem.rams e.2).pageSize.isLt
  omega

theorem InPage.contains_ahead {p : HostPtr} (hw : f.mmu.pMem.Wired) (he : e ∈ f.mmu.pMem.devices)
    (hno : NoTail f.mmu.pMem) (h : f.InPage e p) (ha : f.Ahead v) (hv : v.toNat % 4 = 0) :
    e.1.contains v = true := by
  obtain ⟨hsum, hin, hwrap⟩ := h.ahead ha
  have hstart := PhysMem.contains_toNat.mp h.contains
  have hright := PhysMem.rightBorder_toNat hw he h.contains
  refine PhysMem.contains_toNat.mpr ⟨by omega, ?_⟩
  by_contra hge
  rw [RAM.toNat_getPageOffset, toNat_sub_left h.contains] at hin hwrap
  have hpos := (f.mmu.pMem.rams e.2).pageSize_pos
  have hdiv := Nat.div_add_mod (f.start.toNat - e.1.leftBorder.toNat)
    (f.mmu.pMem.rams e.2).pageSize.toNat
  have hlast : ((f.mmu.pMem.rams e.2).ramSize.toNat - 1) / (f.mmu.pMem.rams e.2).pageSize.toNat =
      (f.start.toNat - e.1.leftBorder.toNat) / (f.mmu.pMem.rams e.2).pageSize.toNat := by
    refine Nat.div_eq_of_lt_le ?_ ?_
    · rw [Nat.mul_comm]
      omega
    · rw [Nat.mul_comm, Nat.mul_succ]
      omega
  have hpages : pagesEnd f.mmu.pMem e = e.1.leftBorder.toNat + ((f.mmu.pMem.rams e.2).pageSize.toNat *
      ((f.start.toNat - e.1.leftBorder.toNat) / (f.mmu.pMem.rams e.2).pageSize.toNat) +
      (f.mmu.pMem.rams e.2).pageSize.toNat) := by
    rw [pagesEnd, hlast, Nat.mul_succ]
  refine hno e he (BitVec.lt_def.mpr (by omega)) v hv ⟨by omega, ?_, ?_⟩ <;> rw [hpages] <;> omega

theorem load_at {p : HostPtr} (hw : f.mmu.pMem.Wired) (hd : f.mmu.pMem.Disjoint)
    (hbase : BaseAligned f.mmu.pMem) (he : e ∈ f.mmu.pMem.devices) (ha : e.1.contains v = true)
    (hv : v.toNat % 4 = 0)
    (hm : (f.mmu.pMem.rams e.2).pagemap ((f.mmu.pMem.rams e.2).getPageId
      (v - e.1.leftBorder)) = some (some p)) :
    (Memory.load f .word v).1 = .ok (f.mmu.pMem.host.read .word
      (p.add ((f.mmu.pMem.rams e.2).getPageOffset (v - e.1.leftBorder)).toNat)) := by
  have hleft := (PhysMem.contains_toNat.mp ha).1
  have hal : (v - e.1.leftBorder).toNat % Width.word.size = 0 := by
    have hb := hbase e he
    rw [toNat_sub_left ha]
    change (v.toNat - e.1.leftBorder.toNat) % 4 = 0
    omega
  obtain ⟨d, hd', ha', hl⟩ | ⟨hnone, -⟩ := PhysMem.load_cases hw.cached .word v
  · obtain rfl := hd e he d hd' v ha ha'
    exact (congrArg Prod.fst hl).trans (RAM.load_present hal hm)
  · exact absurd ((hnone e he).symm.trans ha) Bool.false_ne_true

/-- Without tails, a fetch returns what a load would, whatever the window. -/
theorem Sound.agrees (h : Sound m f) (hd : m.Disjoint) (hbase : BaseAligned m) (hno : NoTail m)
    (hv : v.toNat % 4 = 0) : f.Agrees v := by
  have hw := h.evolves.wired
  have hd' := h.evolves.disjoint hd
  have hbase' : BaseAligned f.mmu.pMem := fun e he => hbase e (h.evolves.devices ▸ he)
  have hno' : NoTail f.mmu.pMem := by
    intro e he
    unfold pagesEnd
    rw [h.evolves.sizes]
    exact hno e (h.evolves.devices ▸ he)
  refine agrees_of_load hw ?_
  by_cases hahead : f.Ahead v
  · obtain hzero | ⟨e, he, p, hin⟩ := h.window
    · exact absurd hahead (not_ahead_of_len hzero)
    · obtain ⟨hsum, hpage, -⟩ := hin.ahead hahead
      have ha := hin.contains_ahead hw he hno' hahead hv
      have hal : (v - f.start).toNat % 4 = 0 := by
        have hs := hin.aligned
        omega
      have hrel : f.start - e.1.leftBorder + BitVec.ofNat 64 (v - f.start).toNat =
          v - e.1.leftBorder := by
        rw [BitVec.ofNat_toNat, BitVec.setWidth_eq]
        bv_omega
      obtain ⟨hid, hoff⟩ := RAM.getPage_add_within hpage
      rw [hrel] at hid hoff
      rw [loadWord_ahead hahead hal, load_at hw hd' hbase' he ha hv (hid ▸ hin.page), hoff,
        readSaved, hin.saved]
      dsimp only
      rw [HostPtr.add_add]
      rfl
  · obtain ⟨e, he, ha, ⟨p, hm, hl⟩ | ⟨-, hl⟩⟩ | ⟨hnone, hl⟩ := loadWord_cases hw hahead
    · rw [hl, load_at hw hd' hbase' he ha hv hm]
      rfl
    · rw [hl]
      exact PhysMem.load_congr (n := f.mmu.pMem.remember e) hw.cached (fun _ _ => he) hd' rfl rfl rfl
        .word v
    · rw [hl]
      obtain ⟨e, he, ha, -⟩ | ⟨-, hl'⟩ := PhysMem.load_cases hw.cached .word v
      · exact absurd ((hnone e he).symm.trans ha) Bool.false_ne_true
      · exact (congrArg Prod.fst hl').symm

theorem store_load {m : PhysMem} (hw : m.Wired) (hg : m.Granted) (hd : m.Disjoint)
    (he : e ∈ m.devices) {w : Width} {a : RV64Ptr} (ha : e.1.contains a = true)
    (hal : PhysMem.AlignedIn e w a) (x : BitVec (8 * w.size)) :
    (∃ p, ((m.store w a x).2.rams e.2).pagemap (((m.store w a x).2.rams e.2).getPageId
      (a - e.1.leftBorder)) = some (some p)) ∧
    ((m.store w a x).2.load w a).1 = .ok x ∧
    ∀ d ∈ m.devices, d ≠ e → ∀ k, (m.rams d.2).Owns k →
      (m.store w a x).2.host.bytes k = m.host.bytes k := by
  have hev := PhysMem.evolves_store hw hg w a x
  obtain ⟨e', he', ha', hs⟩ | ⟨hnone, -⟩ := PhysMem.store_cases hw.cached w a x
  · obtain rfl := hd e he e' he' a ha ha'
    obtain ⟨hno, -⟩ | ⟨-, p, r, host, htouch, hr⟩ :=
      RAM.store_cases (hw.wired e he) (hg e he) w (a - e.1.leftBorder) x
    · exact absurd hal hno
    · rw [hs _ _ _ hr] at hev ⊢
      refine ⟨⟨p, ?_⟩, ?_, fun d hd' hde k hk => ?_⟩
      · rw [PhysMem.rams_setRAM_self]
        exact htouch.present
      · obtain ⟨d, hd', hda, hl⟩ | ⟨hnone, -⟩ := PhysMem.load_cases hev.wired.cached w a
        · obtain rfl := hd e he d (hev.devices ▸ hd') a ha hda
          rw [hl, PhysMem.rams_setRAM_self, RAM.load_present hal htouch.present,
            RAM.getPageOffset_congr htouch.sizes]
          exact congrArg Except.ok (Host.read_write_same _ _ _ _)
        · exact absurd ((hnone e (hev.devices ▸ he)).symm.trans ha) Bool.false_ne_true
      · refine (htouch.evolves_write _ _ _).bytes_of_not_owns ((hw.wired d hd').region_lt hk) ?_
        exact fun hek => hw.apart d hd' e he hde k hk hek
  · exact absurd ((hnone e he).symm.trans ha) Bool.false_ne_true

theorem last_page {m : PhysMem} (hw : m.Wired) (hbase : BaseAligned m) (he : e ∈ m.devices)
    (hlt : e.1.leftBorder < e.1.rightBorder) (hv : v.toNat % 4 = 0)
    (hge : e.1.rightBorder.toNat ≤ v.toNat) (hend : v.toNat < pagesEnd m e) :
    ∃ a : RV64Ptr, e.1.contains a = true ∧ a.toNat % 4 = 0 ∧ a < v ∧
      pagesEnd m e = a.toNat + (m.rams e.2).pageSize.toNat ∧
      ((m.rams e.2).getPageOffset (a - e.1.leftBorder)).toNat = 0 := by
  rw [BitVec.lt_def] at hlt
  have hright := PhysMem.rightBorder_toNat hw he
    (PhysMem.contains_toNat.mpr ⟨Nat.le_refl _, hlt⟩)
  have hb := hbase e he
  have hdiv := Nat.div_add_mod ((m.rams e.2).ramSize.toNat - 1) (m.rams e.2).pageSize.toNat
  have hr := e.1.rightBorder.isLt
  rw [pagesEnd, Nat.mul_succ] at hend
  have hfour : 4 ∣ (m.rams e.2).pageSize.toNat := by
    obtain h | h | h := (m.rams e.2).pageSize_cases
    · rw [h] at hend hdiv
      omega
    · rw [h] at hend hdiv
      omega
    · exact h
  have hstart := Nat.dvd_trans hfour (Nat.dvd_mul_right (m.rams e.2).pageSize.toNat
    (((m.rams e.2).ramSize.toNat - 1) / (m.rams e.2).pageSize.toNat))
  have hzero := Nat.mul_mod_right (m.rams e.2).pageSize.toNat
    (((m.rams e.2).ramSize.toNat - 1) / (m.rams e.2).pageSize.toNat)
  have hpages : pagesEnd m e = e.1.leftBorder.toNat + (m.rams e.2).pageSize.toNat *
      (((m.rams e.2).ramSize.toNat - 1) / (m.rams e.2).pageSize.toNat) +
      (m.rams e.2).pageSize.toNat := by
    rw [pagesEnd, Nat.mul_succ, Nat.add_assoc]
  rw [hpages]
  generalize (m.rams e.2).pageSize.toNat *
    (((m.rams e.2).ramSize.toNat - 1) / (m.rams e.2).pageSize.toNat) = q at *
  have hsum : (e.1.leftBorder + BitVec.ofNat 64 q).toNat = e.1.leftBorder.toNat + q := by
    rw [BitVec.toNat_add, BitVec.toNat_ofNat]
    omega
  have hsub := toNat_add_sub e.1.leftBorder (by omega : q < 2 ^ 64)
  refine ⟨e.1.leftBorder + BitVec.ofNat 64 q, PhysMem.contains_toNat.mpr (by omega), by omega,
    BitVec.lt_def.mpr (by omega), by omega, ?_⟩
  rw [RAM.toNat_getPageOffset, hsub, hzero]

theorem window_opens {f : Prefetcher} {a : RV64Ptr} (hw : f.mmu.pMem.Wired)
    (hd : f.mmu.pMem.Disjoint) (hnot : ¬f.Ahead a) (he : e ∈ f.mmu.pMem.devices)
    (ha : e.1.contains a = true) {p : HostPtr}
    (hm : (f.mmu.pMem.rams e.2).pagemap
      ((f.mmu.pMem.rams e.2).getPageId (a - e.1.leftBorder)) = some (some p)) :
    (f.loadWord a).2 = ⟨⟨f.mmu.pMem.remember e⟩,
      some (p.add ((f.mmu.pMem.rams e.2).getPageOffset (a - e.1.leftBorder)).toNat), a,
      (f.mmu.pMem.rams e.2).pageSize -
        (f.mmu.pMem.rams e.2).getPageOffset (a - e.1.leftBorder)⟩ := by
  obtain ⟨d, hd', hda, ⟨q, hq, hl⟩ | ⟨hq, -⟩⟩ | ⟨hnone, -⟩ := loadWord_cases hw hnot
  · obtain rfl := hd e he d hd' a ha hda
    obtain rfl := Option.some.inj (Option.some.inj (hm.symm.trans hq))
    rw [hl]
  · obtain rfl := hd e he d hd' a ha hda
    exact absurd (hm.symm.trans hq) nofun
  · exact absurd ((hnone e he).symm.trans ha) Bool.false_ne_true

/-- A word ahead in the window that lies behind its device is still fetched there. -/
theorem disagrees_of_ahead {p : HostPtr} (hs : Sound m f) (hg : m.Granted) (hd : m.Disjoint)
    (hbase : BaseAligned m) (hf : Reach (· = create ⟨m⟩) Step f) (he : e ∈ m.devices)
    (hin : f.InPage e p) (ha : f.Ahead v) (hv : v.toNat % 4 = 0)
    (hge : e.1.rightBorder.toNat ≤ v.toNat) :
    ∃ f, Reach (· = create ⟨m⟩) Step f ∧ ¬f.Agrees v := by
  have hw := hs.evolves.wired
  have he' : e ∈ f.mmu.pMem.devices := hs.evolves.devices ▸ he
  have hal : (v - f.start).toNat % 4 = 0 := by
    have hsum := (hin.ahead ha).1
    have hstart := hin.aligned
    omega
  by_cases hmapped : ∃ d ∈ f.mmu.pMem.devices, d.1.contains v = true
  · obtain ⟨d, hd', hda⟩ := hmapped
    have hde : e ≠ d := by
      rintro rfl
      exact absurd (PhysMem.contains_toNat.mp hda).2 (Nat.not_lt.mpr hge)
    have hdal : PhysMem.AlignedIn d .word v := by
      have hb := hbase d (hs.evolves.devices ▸ hd')
      have hle := (PhysMem.contains_toNat.mp hda).1
      rw [PhysMem.AlignedIn, toNat_sub_left hda]
      change (v.toNat - d.1.leftBorder.toNat) % 4 = 0
      omega
    have howns : (f.mmu.pMem.rams e.2).Owns p.region := by
      obtain ⟨q, hq, ho⟩ := (hw.wired e he').page _ _ hin.page
      rwa [Option.some.inj hq]
    obtain ⟨y, hy⟩ : ∃ y : RV64UWord, f.mmu.pMem.host.read .word ((p.add
        ((f.mmu.pMem.rams e.2).getPageOffset (f.start - e.1.leftBorder)).toNat).add
        (v - f.start).toNat) = y := ⟨_, rfl⟩
    obtain ⟨-, hload, hothers⟩ := store_load hw (hs.evolves.granted hg) (hs.evolves.disjoint hd)
      hd' hda hdal (y + 1 : RV64UWord)
    refine ⟨(Memory.store f .word v (y + 1 : RV64UWord)).2, .step hf (.store f .word v _),
      fun hagrees => ?_⟩
    have hread : (Memory.store f .word v (y + 1 : RV64UWord)).2.readSaved
        (v - f.start).toNat = .ok y := by
      have hsaved : (Memory.store f .word v (y + 1 : RV64UWord)).2.saved = f.saved := rfl
      rw [readSaved, hsaved, hin.saved]
      exact congrArg Except.ok ((Host.read_congr (p := (p.add _).add _)
        (hothers e he' hde _ howns)).trans hy)
    have hfetch := loadWord_ahead (f := (Memory.store f .word v (y + 1 : RV64UWord)).2) ha hal
    have hsame : (Except.ok y : Except MemError RV64UWord) = .ok (y + 1) :=
      (((congrArg Prod.fst hfetch).trans hread).symm.trans hagrees.load).trans hload
    have hself : y = y + 1 := Except.ok.inj hsame
    bv_omega
  · refine ⟨f, hf, fun hagrees => ?_⟩
    have herror := hagrees.unmapped fun d hd' =>
      Bool.eq_false_iff.mpr fun hda => hmapped ⟨d, hd', hda⟩
    rw [loadWord_ahead ha hal, readSaved, hin.saved] at herror
    cases herror

theorem tail_disagrees (hw : m.Wired) (hg : m.Granted) (hd : m.Disjoint)
    (hbase : BaseAligned m) (he : e ∈ m.devices) (hlt : e.1.leftBorder < e.1.rightBorder)
    (hv : v.toNat % 4 = 0) (hge : e.1.rightBorder.toNat ≤ v.toNat)
    (hend : v.toNat < pagesEnd m e) (hwrap : pagesEnd m e < 2 ^ 64) :
    ∃ f, Reach (· = create ⟨m⟩) Step f ∧ ¬f.Agrees v := by
  obtain ⟨a, ha, hal, hav, hpages, hoff⟩ := last_page hw hbase he hlt hv hge hend
  obtain ⟨⟨p, hp⟩, -, -⟩ := store_load hw hg hd he ha (w := .byte) (Nat.mod_one _) 0
  have hev := PhysMem.evolves_store hw hg .byte a 0
  have hopen := window_opens (f := (Memory.store (create ⟨m⟩) .byte a 0).2) hev.wired
    (hev.disjoint hd) (not_ahead_of_len rfl) (hev.devices ▸ he) ha hp
  have hreach : Reach (· = create ⟨m⟩) Step
      ((Memory.store (create ⟨m⟩) .byte a 0).2.loadWord a).2 :=
    .step (.step (.init rfl) (.store _ .byte a 0)) (.fetch _ hal)
  have hsound := reach_sound hw hg hreach
  have hsizes := hev.sizes e.2
  rw [hopen] at hreach hsound
  refine disagrees_of_ahead hsound hg hd hbase hreach he ⟨ha, hal, hp, rfl, rfl⟩ ⟨hav, ?_⟩ hv hge
  have hoff' := RAM.getPageOffset_congr hsizes (a - e.1.leftBorder)
  have hzero : (m.rams e.2).getPageOffset (a - e.1.leftBorder) = 0 := BitVec.eq_of_toNat_eq hoff
  have hpage : ((Memory.store (create ⟨m⟩) .byte a 0).2.mmu.pMem.rams e.2).pageSize =
      (m.rams e.2).pageSize := congrArg RAMSizes.pageSize hsizes
  change v < a + (((Memory.store (create ⟨m⟩) .byte a 0).2.mmu.pMem.rams e.2).pageSize -
    ((m.store .byte a 0).2.rams e.2).getPageOffset (a - e.1.leftBorder))
  rw [hoff', hzero, hpage, BitVec.lt_def]
  bv_omega

/-- On a memory that was built, fetches and loads agree on every word, after any
fetches of words and any stores, exactly if no device has a tail. -/
theorem agrees_iff {calls : List MapRAM} {b : PhysMemBuilder} {host : Host}
    (h : PhysMemBuilder.empty.mapRAMs calls = .ok b) (hg : host.Grants calls)
    (hd : (b.build host).Disjoint) (hbase : ∀ c ∈ calls, c.address.toNat % 4 = 0) :
    (∀ f, Reach (· = create ⟨b.build host⟩) Step f → ∀ v : RV64Ptr, v.toNat % 4 = 0 →
      f.Agrees v) ↔ NoTail (b.build host) := by
  have hb := PhysMemBuilder.mapped_of_empty h
  have hw := PhysMem.wired_build hb host
  have hgranted := PhysMem.granted_build hb hg
  have hbase' : BaseAligned (b.build host) := by
    intro e he
    obtain ⟨c, hc, hrange, -⟩ := PhysMem.rams_build hb host he
    rw [hrange]
    exact hbase c hc
  constructor
  · rintro hall e he hlt v hv ⟨hge, hend, hwrap⟩
    obtain ⟨f, hf, hno⟩ := tail_disagrees hw hgranted hd hbase' he hlt hv hge hend hwrap
    exact hno (hall f hf v hv)
  · intro hno f hf v hv
    exact (reach_sound hw hgranted hf).agrees hd hbase' hno hv

theorem agrees_iff_adjacent :
    ((Memory.store (create ⟨PhysMemBuilder.adjacentBuilder.build .willing⟩) .byte 0 0).2.loadWord
      0).2.Agrees 0x1000 := by
  refine (agrees_iff PhysMemBuilder.mapRAMs_adjacent PhysMem.grants_adjacent
    (PhysMemBuilder.disjoint_adjacent _) (by decide)).mpr ?_ _
      (.step (.step (.init rfl) (.store _ .byte 0 0)) (.fetch _ rfl)) _ rfl
  rintro e he - v - ⟨hge, hend, -⟩
  have hpages : pagesEnd (PhysMemBuilder.adjacentBuilder.build .willing) e =
      e.1.rightBorder.toNat := by
    obtain rfl | he := List.mem_cons.mp he
    · decide
    · obtain rfl := List.mem_singleton.mp he
      decide
  omega

/-- The word at 8, behind six bytes on a page of sixteen, is fetched all the same. -/
theorem tail_fetched : ∃ f,
    Reach (· = create ⟨PhysMemBuilder.shortBuilder.build .willing⟩) Step f ∧ ¬f.Agrees 8 := by
  have hf : Reach (· = create ⟨PhysMemBuilder.shortBuilder.build .willing⟩) Step
      ((Memory.store (create ⟨PhysMemBuilder.shortBuilder.build .willing⟩) .byte 0 0).2.loadWord
        0).2 :=
    .step (.step (.init rfl) (.store _ .byte 0 0)) (.fetch _ rfl)
  refine ⟨_, hf, fun hagrees => ?_⟩
  exact absurd (hagrees.unmapped (by decide)) (by decide +kernel)

end Besm.Mem.Prefetcher
