import Besm.Memory.RamSpec

namespace Besm.Mem.RAM

open Besm.Lib

variable {r r' : RAM} {host host' : Host} {w : Width} {a : RV64Ptr} {p : HostPtr}

def InPage (r : RAM) (p q : HostPtr) : Prop :=
  q.region = p.region ∧ p.offset ≤ q.offset ∧ q.offset < p.offset + r.pageSize.toNat

/-- A store changes no byte outside of the page that is touched for it. -/
def StoreContained (r : RAM) (host : Host) (w : Width) (a : RV64Ptr) (p : HostPtr) : Prop :=
  ∀ v q, ¬r.InPage p q →
    (r.store host w a v).2.2.readByte q = (r.touchPageAddress host a).2.2.readByte q

def LoadContained (r : RAM) (w : Width) (a : RV64Ptr) (p : HostPtr) : Prop :=
  ∀ host host', (∀ q, r.InPage p q → host'.readByte q = host.readByte q) →
    r.load host' w a = r.load host w a

theorem allocPage_sizes {page : Except MemError HostAddress}
    (h : r.allocPage host = (page, r', host')) : r'.toRAMSizes = r.toRAMSizes := by
  unfold allocPage at h
  dsimp only at h
  split at h
  · cases h
    rfl
  · split at h <;> cases h <;> rfl

theorem touchPageAddress_sizes {page : Except MemError HostAddress}
    (h : r.touchPageAddress host a = (page, r', host')) : r'.toRAMSizes = r.toRAMSizes := by
  unfold touchPageAddress at h
  split at h
  · cases h
    rfl
  · split at h
    · cases h
      exact allocPage_sizes ‹_›
    · cases h
      exact (allocPage_sizes ‹_› :)

theorem store_touched (hal : a.toNat % w.size = 0)
    (ht : r.touchPageAddress host a = (.ok (some p), r', host')) (v : BitVec (8 * w.size)) :
    r.store host w a v = (.ok (), r',
      host'.write (p.add (r.getPageOffset a).toNat) w.size (LittleEndian.byte v)) := by
  have hoff := getPageOffset_congr (touchPageAddress_sizes ht) a
  unfold store touchHostAddress
  rw [validateAddressAlignment_ok hal, ht]
  dsimp only [Option.map]
  rw [hoff]

theorem exists_behind {o n m : Nat} (ho : o ≤ m) (h : ¬o + n ≤ m) : ∃ i < n, o + i = m :=
  ⟨m - o, by omega, by omega⟩

theorem not_inPage_end (r : RAM) (p : HostPtr) : ¬r.InPage p (p.add r.pageSize.toNat) :=
  fun h => Nat.lt_irrefl _ h.2.2

theorem ne_add_one (b : BitVec 8) : b + 1 ≠ b := by
  revert b
  decide

theorem storeContained_iff (hal : a.toNat % w.size = 0)
    (hp : (r.touchPageAddress host a).1 = .ok (some p)) :
    r.StoreContained host w a p ↔ w.size ≤ r.pageSize.toNat := by
  obtain ⟨r', host', ht⟩ : ∃ r' host', r.touchPageAddress host a = (.ok (some p), r', host') :=
    ⟨_, _, Prod.ext hp rfl⟩
  have hlt := r.getPageOffset_lt a
  constructor
  · intro h
    by_contra hno
    obtain ⟨i, hi, hend⟩ := exists_behind (Nat.le_of_lt hlt) (n := w.size) (by omega)
    have hv := h (LittleEndian.word w.size fun _ => host'.readByte (p.add r.pageSize.toNat) + 1) _
      (r.not_inPage_end p)
    rw [store_touched hal ht, ht, ← hend, ← HostPtr.add_add] at hv
    dsimp only at hv
    rw [Host.readByte_write_same _ _ _ hi, LittleEndian.byte_word _ hi, HostPtr.add_add, hend] at hv
    exact ne_add_one _ hv
  · intro hps v q hq
    have hfit := aligned_fits hal hps
    rw [store_touched hal ht, ht]
    refine Host.readByte_write_apart host' _ fun hregion => ?_
    by_contra hin
    rw [HostPtr.region_add] at hregion
    rw [HostPtr.offset_add] at hin
    exact hq ⟨hregion, by omega, by omega⟩

theorem getPageAddress_eq_some :
    r.getPageAddress a = some p ↔ r.pagemap (r.getPageId a) = some (some p) := by
  unfold getPageAddress
  cases r.pagemap (r.getPageId a) with
  | none => exact iff_of_false nofun nofun
  | some mem => exact Option.some_inj.symm

theorem loadContained_iff (hal : a.toNat % w.size = 0) (hp : r.getPageAddress a = some p) :
    r.LoadContained w a p ↔ w.size ≤ r.pageSize.toNat := by
  have hlt := r.getPageOffset_lt a
  have hload : ∀ host : Host,
      r.load host w a = .ok (host.read w (p.add (r.getPageOffset a).toNat)) :=
    fun _ => load_present hal (getPageAddress_eq_some.mp hp)
  constructor
  · intro h
    by_contra hno
    obtain ⟨i, hi, hend⟩ := exists_behind (Nat.le_of_lt hlt) (n := w.size) (by omega)
    have hread := h .willing (Host.willing.write (p.add r.pageSize.toNat) 1 fun _ => 1#8) fun q hq =>
      Host.readByte_write_apart _ _ fun _ => .inl hq.2.2
    rw [hload, hload] at hread
    have hbyte := congrArg (LittleEndian.byte · i) (Except.ok.inj hread)
    dsimp only [Host.read] at hbyte
    rw [LittleEndian.byte_word _ hi, LittleEndian.byte_word _ hi, HostPtr.add_add, hend] at hbyte
    have hone := Host.readByte_write_same .willing (p.add r.pageSize.toNat) (fun _ => 1#8)
      Nat.zero_lt_one
    rw [HostPtr.add_zero, hbyte] at hone
    cases hone
  · intro hps host host' hbytes
    have hfit := aligned_fits hal hps
    rw [hload, hload]
    refine congrArg Except.ok (LittleEndian.word_congr fun i hi => hbytes _ ?_)
    rw [HostPtr.add_add]
    exact ⟨rfl, Nat.le_add_right _ _, Nat.add_lt_add_left (by omega) _⟩

theorem load_absent (hp : r.getPageAddress a = none) (host host' : Host) :
    r.load host' w a = r.load host w a := by
  have hnone : (r.getHostAddress a).1 = none := by
    unfold getHostAddress
    rw [hp]
  unfold load
  rw [hnone]

/-- An aligned access stays in its page exactly if the page is as wide. -/
theorem access_contained_iff (hal : a.toNat % w.size = 0) :
    (∀ p, (r.touchPageAddress host a).1 = .ok (some p) →
      (r.StoreContained host w a p ↔ w.size ≤ r.pageSize.toNat)) ∧
    (∀ p, r.getPageAddress a = some p → (r.LoadContained w a p ↔ w.size ≤ r.pageSize.toNat)) ∧
    (r.getPageAddress a = none → ∀ host host', r.load host' w a = r.load host w a) :=
  ⟨fun _ hp => storeContained_iff hal hp, fun _ hp => loadContained_iff hal hp, load_absent⟩

theorem access_contained_dWord : ∃ r, create 64 8 64 = .ok r ∧
    r.StoreContained .willing .dWord 16 ⟨1, 0⟩ :=
  ⟨_, rfl, ((access_contained_iff rfl).1 _ rfl).mpr (by decide)⟩

/-- Two pages of four bytes, and a double word stored to the first. -/
theorem neighbour_overwritten : ∃ r r₁ r₂ r₃ host₁ host₂ host₃,
    create 64 4 64 = .ok r ∧
    r.store .willing .byte 0 1 = (.ok (), r₁, host₁) ∧
    r₁.store host₁ .byte 4 5 = (.ok (), r₂, host₂) ∧
    r₂.store host₂ .dWord 0 0 = (.ok (), r₃, host₃) ∧
    r₂.load host₂ .byte 4 = .ok 5 ∧ r₃.load host₃ .byte 4 = .ok 0 ∧
    ¬∀ p, (r₂.touchPageAddress host₂ 0).1 = .ok (some p) → r₂.StoreContained host₂ .dWord 0 p := by
  refine ⟨_, _, _, _, _, _, _, rfl, rfl, rfl, rfl, rfl, rfl, fun h => ?_⟩
  have hkept := h ⟨1, 0⟩ rfl 0 ⟨1, 4⟩ fun hin => absurd hin.2.2 (by decide)
  exact absurd hkept (by decide)

end Besm.Mem.RAM
