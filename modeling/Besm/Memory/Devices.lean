import Besm.Lib.Transition
import Besm.Memory.PhysMem
import Besm.Memory.RamSpec

namespace Besm.Mem.PhysMem

open Besm.Util

variable {m m' : PhysMem} {e e' : Mapping}

def Cached (m : PhysMem) : Prop :=
  ∀ a, m.lastAccessedRange.contains a = true →
    (m.lastAccessedRange, m.lastAccessedDevice) ∈ m.devices

def Disjoint (m : PhysMem) : Prop :=
  ∀ e ∈ m.devices, ∀ e' ∈ m.devices, ∀ a,
    e.1.contains a = true → e'.1.contains a = true → e = e'

def remember (m : PhysMem) (e : Mapping) : PhysMem :=
  { m with lastAccessedRange := e.1, lastAccessedDevice := e.2 }

theorem findDevice_cases (hc : m.Cached) (a : RV64Ptr) :
    (∃ e ∈ m.devices, e.1.contains a = true ∧ m.findDevice a = (.ok e, m.remember e)) ∨
    ((∀ e ∈ m.devices, e.1.contains a = false) ∧
      m.findDevice a = (.error (.invalidAddress "Device not found"), m)) := by
  unfold findDevice
  by_cases hlast : m.lastAccessedRange.contains a = true
  · rw [if_pos hlast]
    exact .inl ⟨_, hc a hlast, hlast, rfl⟩
  · rw [if_neg hlast]
    cases hf : m.devices.find? fun e => e.1.contains a with
    | some e =>
      have ha := List.find?_some (p := fun e : Mapping => e.1.contains a) hf
      exact .inl ⟨e, List.mem_of_find?_eq_some hf, ha, rfl⟩
    | none =>
      refine .inr ⟨fun e he => ?_, rfl⟩
      simpa using List.find?_eq_none.mp hf e he

theorem findDevice_of_mem (hc : m.Cached) (hd : m.Disjoint) (he : e ∈ m.devices) {a : RV64Ptr}
    (ha : e.1.contains a = true) : m.findDevice a = (.ok e, m.remember e) := by
  obtain ⟨e', he', ha', hf⟩ | ⟨hnone, -⟩ := findDevice_cases hc a
  · rwa [hd e he e' he' a ha ha']
  · exact absurd ((hnone e he).symm.trans ha) Bool.false_ne_true

theorem storeContAreaLoop_invariant {I : PhysMem → Prop} {address : RV64Ptr}
    {data : Nat → BitVec 8} {size : RV64Size}
    (htouch : ∀ m a, I m → I (m.touchHostAddress a).2)
    (hcopy : ∀ m a p k m', I m → m.touchHostAddress a = (.ok (some p, k), m') →
      ∀ n ≤ k.toNat, ∀ data, I (m'.copy p n data))
    (hstore : ∀ m a v, I m → I (m.store .byte a v).2) {fuel i : Nat} {m : PhysMem}
    {result : Except MemError Unit} (hm : I m)
    (h : storeContAreaLoop address data size fuel i m = some (result, m')) : I m' := by
  induction fuel generalizing i m with
  | zero =>
    unfold storeContAreaLoop at h
    split_ifs at h
    cases h
    exact hm
  | succ fuel ih =>
    unfold storeContAreaLoop at h
    split_ifs at h with hi
    · have ht := htouch m (address + BitVec.ofNat 64 i) hm
      have hc := hcopy m (address + BitVec.ofNat 64 i)
      dsimp only at h
      split at h
      · rename_i heq
        cases h
        rwa [heq] at ht
      · rename_i m₁ heq
        rw [heq] at ht
        have hs := hstore m₁ (address + BitVec.ofNat 64 i) (data i) ht
        split at h
        · rename_i heq'
          cases h
          rwa [heq'] at hs
        · rename_i heq'
          rw [heq'] at hs
          exact ih hs h
      · rename_i p k m₁ heq
        exact ih (hc p k m₁ hm heq _ (Nat.min_le_right _ _) _) h
    · cases h
      exact hm

inductive Step : PhysMem → PhysMem → Prop
  | load (m : PhysMem) (w : Width) (a : RV64Ptr) : Step m (m.load w a).2
  | store (m : PhysMem) (w : Width) (a : RV64Ptr) (v : BitVec (8 * w.size)) :
      Step m (m.store w a v).2
  | getHostAddress (m : PhysMem) (a : RV64Ptr) : Step m (m.getHostAddress a).2
  | touchHostAddress (m : PhysMem) (a : RV64Ptr) : Step m (m.touchHostAddress a).2
  | storeContArea {m m' : PhysMem} {a : RV64Ptr} {data : Nat → BitVec 8} {size : RV64Size}
      {result : Except MemError Unit} (h : m.storeContArea a data size = some (result, m')) :
      Step m m'

theorem load_cases (hc : m.Cached) (w : Width) (a : RV64Ptr) :
    (∃ e ∈ m.devices, e.1.contains a = true ∧
      m.load w a = ((m.rams e.2).load m.host w (a - e.1.leftBorder), m.remember e)) ∨
    ((∀ e ∈ m.devices, e.1.contains a = false) ∧
      m.load w a = (.error (.invalidAddress "Device not found"), m)) := by
  unfold load
  obtain ⟨e, he, ha, hf⟩ | ⟨hnone, hf⟩ := findDevice_cases hc a
  · exact .inl ⟨e, he, ha, by rw [hf]; rfl⟩
  · exact .inr ⟨hnone, by rw [hf]⟩

theorem store_cases (hc : m.Cached) (w : Width) (a : RV64Ptr) (v : BitVec (8 * w.size)) :
    (∃ e ∈ m.devices, e.1.contains a = true ∧ ∀ result r' host',
      (m.rams e.2).store m.host w (a - e.1.leftBorder) v = (result, r', host') →
        m.store w a v = (result, (m.remember e).setRAM e.2 r' host')) ∨
    ((∀ e ∈ m.devices, e.1.contains a = false) ∧
      m.store w a v = (.error (.invalidAddress "Device not found"), m)) := by
  unfold store
  obtain ⟨e, he, ha, hf⟩ | ⟨hnone, hf⟩ := findDevice_cases hc a
  · refine .inl ⟨e, he, ha, fun result r' host' hs => ?_⟩
    have hs' : ((m.remember e).rams e.2).store (m.remember e).host w (a - e.1.leftBorder) v =
        (result, r', host') := hs
    rw [hf]
    dsimp only
    rw [hs']
  · exact .inr ⟨hnone, by rw [hf]⟩

theorem getHostAddress_cases (hc : m.Cached) (a : RV64Ptr) :
    (∃ e ∈ m.devices, e.1.contains a = true ∧
      m.getHostAddress a = (.ok ((m.rams e.2).getHostAddress (a - e.1.leftBorder)), m.remember e)) ∨
    ((∀ e ∈ m.devices, e.1.contains a = false) ∧
      m.getHostAddress a = (.error (.invalidAddress "Device not found"), m)) := by
  unfold getHostAddress
  obtain ⟨e, he, ha, hf⟩ | ⟨hnone, hf⟩ := findDevice_cases hc a
  · exact .inl ⟨e, he, ha, by rw [hf]; rfl⟩
  · exact .inr ⟨hnone, by rw [hf]⟩

theorem touchHostAddress_cases (hc : m.Cached) (a : RV64Ptr) :
    (∃ e ∈ m.devices, e.1.contains a = true ∧ ∀ result r' host',
      (m.rams e.2).touchHostAddress m.host (a - e.1.leftBorder) = (result, r', host') →
        m.touchHostAddress a = (result, (m.remember e).setRAM e.2 r' host')) ∨
    ((∀ e ∈ m.devices, e.1.contains a = false) ∧
      m.touchHostAddress a = (.error (.invalidAddress "Device not found"), m)) := by
  unfold touchHostAddress
  obtain ⟨e, he, ha, hf⟩ | ⟨hnone, hf⟩ := findDevice_cases hc a
  · refine .inl ⟨e, he, ha, fun result r' host' hs => ?_⟩
    have hs' : ((m.remember e).rams e.2).touchHostAddress (m.remember e).host
        (a - e.1.leftBorder) = (result, r', host') := hs
    rw [hf]
    dsimp only
    rw [hs']
  · exact .inr ⟨hnone, by rw [hf]⟩

structure Remaps (m m' : PhysMem) : Prop where
  cached : m'.Cached
  devices : m'.devices = m.devices

theorem Remaps.refl (hc : m.Cached) : m.Remaps m := ⟨hc, rfl⟩

theorem Remaps.trans {m₁ m₂ : PhysMem} (h : m.Remaps m₁) (h' : m₁.Remaps m₂) : m.Remaps m₂ :=
  ⟨h'.cached, h'.devices.trans h.devices⟩

theorem remaps_remember (he : e ∈ m.devices) : m.Remaps (m.remember e) := ⟨fun _ _ => he, rfl⟩

theorem remaps_load (hc : m.Cached) (w : Width) (a : RV64Ptr) : m.Remaps (m.load w a).2 := by
  obtain ⟨e, he, -, hl⟩ | ⟨-, hl⟩ := load_cases hc w a <;> rw [hl]
  · exact remaps_remember he
  · exact .refl hc

theorem remaps_store (hc : m.Cached) (w : Width) (a : RV64Ptr) (v : BitVec (8 * w.size)) :
    m.Remaps (m.store w a v).2 := by
  obtain ⟨e, he, -, hs⟩ | ⟨-, hs⟩ := store_cases hc w a v
  · rw [hs _ _ _ rfl]
    exact ⟨fun _ _ => he, rfl⟩
  · rw [hs]
    exact .refl hc

theorem remaps_touchHostAddress (hc : m.Cached) (a : RV64Ptr) :
    m.Remaps (m.touchHostAddress a).2 := by
  obtain ⟨e, he, -, ht⟩ | ⟨-, ht⟩ := touchHostAddress_cases hc a
  · rw [ht _ _ _ rfl]
    exact ⟨fun _ _ => he, rfl⟩
  · rw [ht]
    exact .refl hc

theorem Step.remaps (hc : m.Cached) (h : Step m m') : m.Remaps m' := by
  cases h with
  | load w a => exact remaps_load hc w a
  | store w a v => exact remaps_store hc w a v
  | getHostAddress a =>
    obtain ⟨e, he, -, hg⟩ | ⟨-, hg⟩ := getHostAddress_cases hc a <;> rw [hg]
    · exact remaps_remember he
    · exact .refl hc
  | touchHostAddress a => exact remaps_touchHostAddress hc a
  | storeContArea h =>
    refine storeContAreaLoop_invariant (I := m.Remaps) (fun n a hn => ?_)
      (fun n a p k n' hn ht i _ data => ?_) (fun n a v hn => ?_) (.refl hc) h
    · exact hn.trans (remaps_touchHostAddress hn.cached a)
    · have hr := remaps_touchHostAddress hn.cached a
      rw [ht] at hr
      exact hn.trans ⟨hr.cached, hr.devices⟩
    · exact hn.trans (remaps_store hn.cached .byte a v)

theorem findDevice_ne_assertionFailed (m : PhysMem) (a : RV64Ptr) :
    (m.findDevice a).1 ≠ .error .assertionFailed := by
  unfold findDevice
  split_ifs
  · nofun
  · split <;> nofun

theorem load_ne_assertionFailed (m : PhysMem) (w : Width) (a : RV64Ptr) :
    (m.load w a).1 ≠ .error .assertionFailed := by
  have hfind := m.findDevice_ne_assertionFailed a
  unfold load
  revert hfind
  obtain ⟨e | ⟨range, device⟩, m'⟩ := m.findDevice a <;> intro hfind
  · exact fun he => hfind (congrArg _ (Except.error.inj he))
  · exact (m'.rams device).load_ne_assertionFailed _ _ _

theorem store_ne_assertionFailed (m : PhysMem) (w : Width) (a : RV64Ptr)
    (v : BitVec (8 * w.size)) : (m.store w a v).1 ≠ .error .assertionFailed := by
  have hfind := m.findDevice_ne_assertionFailed a
  unfold store
  revert hfind
  obtain ⟨e | ⟨range, device⟩, m'⟩ := m.findDevice a <;> intro hfind
  · exact fun he => hfind (congrArg _ (Except.error.inj he))
  · exact (m'.rams device).store_ne_assertionFailed _ _ _ _

theorem getHostAddress_ne_assertionFailed (m : PhysMem) (a : RV64Ptr) :
    (m.getHostAddress a).1 ≠ .error .assertionFailed := by
  have hfind := m.findDevice_ne_assertionFailed a
  unfold getHostAddress
  revert hfind
  obtain ⟨e | ⟨range, device⟩, m'⟩ := m.findDevice a <;> intro hfind
  · exact fun he => hfind (congrArg _ (Except.error.inj he))
  · nofun

end Besm.Mem.PhysMem
