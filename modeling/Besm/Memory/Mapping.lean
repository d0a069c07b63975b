import Besm.Memory.Devices

namespace Besm.Mem

open Besm.Lib.Transition Besm.Util

namespace MapRAM

def range (c : MapRAM) : Range RV64Ptr := ⟨c.address, c.address + c.ramSize⟩

def Covers (c : MapRAM) (a : RV64Ptr) : Prop :=
  c.address.toNat ≤ a.toNat ∧ a.toNat < c.address.toNat + c.ramSize.toNat

def Fits (c : MapRAM) : Prop := c.address.toNat + c.ramSize.toNat < 2 ^ 64

theorem contains_range_iff (c : MapRAM) (a : RV64Ptr) :
    c.range.contains a = true ↔ c.Covers a ∧ c.Fits := by
  have hc := c.address.isLt
  have hs := c.ramSize.isLt
  rw [Range.contains_iff, Covers, Fits, BitVec.le_def, BitVec.lt_def]
  change c.address.toNat ≤ a.toNat ∧ a.toNat < (c.address + c.ramSize).toNat ↔ _
  rw [BitVec.toNat_add]
  by_cases hfit : c.address.toNat + c.ramSize.toNat < 2 ^ 64
  · rw [Nat.mod_eq_of_lt hfit]
    exact ⟨fun h => ⟨h, hfit⟩, fun h => h.1⟩
  · have hmod : (c.address.toNat + c.ramSize.toNat) % 2 ^ 64 < c.address.toNat := by omega
    exact ⟨fun h => by omega, fun h => absurd h.2 hfit⟩

end MapRAM

namespace PhysMemDeviceMap

variable {d e : Mapping} {devices : PhysMemDeviceMap}

theorem mem_of_mem_insert (h : d ∈ insert e devices) : d = e ∨ d ∈ devices := by
  induction devices with
  | nil => exact .inl (List.mem_singleton.mp h)
  | cons x xs ih =>
    unfold insert at h
    split_ifs at h
    · exact List.mem_cons.mp h
    · obtain rfl | h := List.mem_cons.mp h
      · exact .inr List.mem_cons_self
      · exact (ih h).imp_right (List.mem_cons_of_mem _)
    · exact .inr h

theorem mem_insert_of_mem (h : d ∈ devices) : d ∈ insert e devices := by
  induction devices with
  | nil => cases h
  | cons x xs ih =>
    unfold insert
    split_ifs
    · exact List.mem_cons_of_mem _ h
    · obtain rfl | h := List.mem_cons.mp h
      · exact List.mem_cons_self
      · exact List.mem_cons_of_mem _ (ih h)
    · exact h

theorem mem_insert_self (h : ∀ d ∈ devices, d.1.leftBorder ≠ e.1.leftBorder) :
    e ∈ insert e devices := by
  induction devices with
  | nil => exact List.mem_cons_self
  | cons x xs ih =>
    unfold insert
    split_ifs with hlt hgt
    · exact List.mem_cons_self
    · exact List.mem_cons_of_mem _ (ih fun d hd => h d (List.mem_cons_of_mem _ hd))
    · exact absurd (BitVec.le_antisymm (BitVec.not_lt.mp hlt) (BitVec.not_lt.mp hgt))
        (h x List.mem_cons_self)

end PhysMemDeviceMap

namespace PhysMemBuilder

theorem create_sizes {ramSize pageSize chunkSize : RV64Size} {r : RAM}
    (h : RAM.create ramSize pageSize chunkSize = .ok r) :
    r.ramSize = ramSize ∧ r.pageSize = pageSize ∧ r.chunkSize = chunkSize ∧ r.chunks = [] ∧
      r.pagemap = fun _ => none := by
  unfold RAM.create at h
  split_ifs at h
  cases h
  exact ⟨rfl, rfl, rfl, rfl, rfl⟩

variable {b b' : PhysMemBuilder} {calls : List MapRAM} {c : MapRAM}

/-- What a builder holds after calls of `mapRAM`. -/
structure Mapped (b : PhysMemBuilder) (calls : List MapRAM) : Prop where
  length : b.rams.length = calls.length
  entry : ∀ e ∈ b.devices, ∃ c, calls[e.2]? = some c ∧ e.1 = c.range
  ram : ∀ (i : Nat) (c : MapRAM), calls[i]? = some c → ∃ r, b.rams[i]? = some r ∧
    RAM.create c.ramSize c.ramPageSize c.ramChunkSize = .ok r

theorem mapped_empty : empty.Mapped [] :=
  ⟨rfl, fun _ he => (List.not_mem_nil he).elim, fun _ _ h => (Option.some_ne_none _ h.symm).elim⟩

theorem mapRAM_spec (h : b.mapRAM c = .ok b') : ∃ r,
    RAM.create c.ramSize c.ramPageSize c.ramChunkSize = .ok r ∧ b'.rams = b.rams ++ [r] ∧
      b'.devices = PhysMemDeviceMap.insert (c.range, b.rams.length) b.devices := by
  unfold mapRAM at h
  cases hr : RAM.create c.ramSize c.ramPageSize c.ramChunkSize with
  | error e => simp [hr] at h
  | ok r =>
    have hsize := (create_sizes hr).1
    simp only [hr, mapDevice] at h
    split_ifs at h
    cases h
    rw [hsize]
    exact ⟨r, rfl, rfl, rfl⟩

theorem mapRAMs_cons (h : b.mapRAMs (c :: calls) = .ok b') :
    ∃ b₁, b.mapRAM c = .ok b₁ ∧ b₁.mapRAMs calls = .ok b' := by
  unfold mapRAMs at h
  cases hc : b.mapRAM c with
  | error e => simp [hc] at h
  | ok b₁ =>
    rw [hc] at h
    exact ⟨b₁, rfl, h⟩

theorem Mapped.mapRAM (hb : b.Mapped calls) (h : b.mapRAM c = .ok b') :
    b'.Mapped (calls ++ [c]) := by
  obtain ⟨r, hr, hrams, hdevices⟩ := mapRAM_spec h
  refine ⟨by simp [hrams, hb.length], fun e he => ?_, fun i d hd => ?_⟩
  · rw [hdevices] at he
    obtain rfl | he := PhysMemDeviceMap.mem_of_mem_insert he
    · exact ⟨c, by simp [hb.length], rfl⟩
    · obtain ⟨d, hd, hrange⟩ := hb.entry e he
      have hlt := (List.getElem?_eq_some_iff.mp hd).1
      exact ⟨d, by rw [List.getElem?_append_left hlt, hd], hrange⟩
  · rw [hrams]
    by_cases hi : i < calls.length
    · rw [List.getElem?_append_left hi] at hd
      rw [List.getElem?_append_left (hb.length ▸ hi)]
      exact hb.ram i d hd
    · have hie : i = calls.length := by
        have hlt := (List.getElem?_eq_some_iff.mp hd).1
        rw [List.length_append, List.length_singleton] at hlt
        omega
      subst hie
      have hcd : d = c := by simpa using hd.symm
      exact ⟨r, by simp [← hb.length], hcd ▸ hr⟩

theorem mapped_mapRAMs {done : List MapRAM} (hb : b.Mapped done)
    (h : b.mapRAMs calls = .ok b') : b'.Mapped (done ++ calls) := by
  induction calls generalizing b done with
  | nil =>
    cases h
    rwa [List.append_nil]
  | cons c calls ih =>
    obtain ⟨b₁, hc, h⟩ := mapRAMs_cons h
    have hmapped := ih (hb.mapRAM hc) h
    rwa [List.append_assoc, List.singleton_append] at hmapped

theorem mapped_of_empty (h : empty.mapRAMs calls = .ok b) : b.Mapped calls :=
  mapped_mapRAMs mapped_empty h

theorem covers_address {r : RAM}
    (h : RAM.create c.ramSize c.ramPageSize c.ramChunkSize = .ok r) : c.Covers c.address := by
  have hne : c.ramSize ≠ 0 := (create_sizes h).1 ▸ r.ramSize_ne_zero
  have hpos : c.ramSize.toNat ≠ 0 := fun h0 => hne (BitVec.eq_of_toNat_eq h0)
  exact ⟨Nat.le_refl _, by omega⟩

def Apart (calls : List MapRAM) : Prop :=
  ∀ (i j : Nat) (c d : MapRAM), calls[i]? = some c → calls[j]? = some d →
    ∀ a, c.Covers a → d.Covers a → i = j

/-- Ranges that are apart have different left borders, so that none is dropped. -/
theorem mem_devices {done : List MapRAM} (hb : b.Mapped done) (hapart : Apart (done ++ calls))
    (hall : ∀ (i : Nat) (c : MapRAM), done[i]? = some c → (c.range, i) ∈ b.devices)
    (h : b.mapRAMs calls = .ok b') :
    ∀ (i : Nat) (c : MapRAM), (done ++ calls)[i]? = some c → (c.range, i) ∈ b'.devices := by
  induction calls generalizing b done with
  | nil =>
    cases h
    rwa [List.append_nil]
  | cons c calls ih =>
    obtain ⟨b₁, hc, h⟩ := mapRAMs_cons h
    have happend : done ++ c :: calls = (done ++ [c]) ++ calls := by simp
    rw [happend] at hapart ⊢
    refine ih (hb.mapRAM hc) hapart (fun i d hd => ?_) h
    obtain ⟨r, hr, -, hdevices⟩ := mapRAM_spec hc
    rw [hdevices]
    by_cases hi : i < done.length
    · rw [List.getElem?_append_left hi] at hd
      exact PhysMemDeviceMap.mem_insert_of_mem (hall i d hd)
    · have hie : i = done.length := by
        have hlt := (List.getElem?_eq_some_iff.mp hd).1
        rw [List.length_append, List.length_singleton] at hlt
        omega
      subst hie
      have hcd : c = d := by simpa using hd
      subst hcd
      rw [← hb.length]
      refine PhysMemDeviceMap.mem_insert_self fun e he hleft => ?_
      obtain ⟨d, hd', hrange⟩ := hb.entry e he
      have hlt := (List.getElem?_eq_some_iff.mp hd').1
      obtain ⟨q, -, hq⟩ := hb.ram _ d hd'
      have haddress : d.address = c.address := by
        rw [hrange] at hleft
        exact hleft
      have hdc : (done ++ [c] ++ calls)[e.2]? = some d := by
        rw [List.append_assoc, List.getElem?_append_left hlt, hd']
      have hcc : (done ++ [c] ++ calls)[done.length]? = some c := by simp
      have heq := hapart _ _ _ _ hdc hcc _ (covers_address hq) (haddress ▸ covers_address hr)
      omega

theorem cached_build (b : PhysMemBuilder) (host : Host) : (b.build host).Cached := by
  intro a ha
  have hlt : a < 0 := (Range.contains_iff.mp ha).2
  exact absurd (BitVec.lt_def.mp hlt) (Nat.not_lt_zero _)

theorem disjoint_build (host : Host) (hb : b.Mapped calls) (hapart : Apart calls) :
    (b.build host).Disjoint := by
  intro e he e' he' a ha ha'
  obtain ⟨c, hc, hrange⟩ := hb.entry e he
  obtain ⟨d, hd, hrange'⟩ := hb.entry e' he'
  rw [hrange, c.contains_range_iff] at ha
  rw [hrange', d.contains_range_iff] at ha'
  have hid := hapart _ _ _ _ hc hd a ha.1 ha'.1
  obtain rfl := Option.some.inj (hc.symm.trans (hid ▸ hd))
  exact Prod.ext (hrange.trans hrange'.symm) hid

/-- Every address that a call covers belongs to the device of that call. -/
def Resolves (calls : List MapRAM) (m : PhysMem) : Prop :=
  ∀ (i : Nat) (c : MapRAM), calls[i]? = some c → ∀ a, c.Covers a →
    (m.findDevice a).1 = .ok (c.range, i)

theorem resolves_of_apart {host : Host} (h : empty.mapRAMs calls = .ok b) (hapart : Apart calls)
    (hfits : ∀ c ∈ calls, c.Fits) {m : PhysMem}
    (hm : Reach (· = b.build host) PhysMem.Step m) : Resolves calls m := by
  have hmapped : b.Mapped calls := mapped_of_empty h
  have hmem := mem_devices mapped_empty hapart (fun i c hc => absurd hc (by simp)) h
  have hremaps : (b.build host).Remaps m :=
    hm.invariant (fun s hs => by rw [hs]; exact .refl (cached_build b host))
      fun s t hs hst => hs.trans (hst.remaps hs.cached)
  have hdisjoint : m.Disjoint := by
    unfold PhysMem.Disjoint
    rw [hremaps.devices]
    exact disjoint_build host hmapped hapart
  intro i c hc a ha
  have hin : (c.range, i) ∈ m.devices := hremaps.devices ▸ hmem i c hc
  have hcontains : c.range.contains a = true :=
    (c.contains_range_iff a).mpr ⟨ha, hfits c (List.mem_of_getElem? hc)⟩
  rw [PhysMem.findDevice_of_mem hremaps.cached hdisjoint hin hcontains]

/-- Accepted calls map every address of each to its own RAM, whatever was
accessed before, exactly if they are apart and none runs past the last address. -/
theorem resolves_iff {host : Host} (h : empty.mapRAMs calls = .ok b) :
    (∀ m, Reach (· = b.build host) PhysMem.Step m → Resolves calls m) ↔
      Apart calls ∧ ∀ c ∈ calls, c.Fits := by
  constructor
  · intro hall
    have hmapped : b.Mapped calls := mapped_of_empty h
    have hres := hall _ (.init rfl)
    refine ⟨fun i j c d hc hd a ha ha' => ?_, fun c hc => ?_⟩
    · have hsame := (hres i c hc a ha).symm.trans (hres j d hd a ha')
      exact congrArg Prod.snd (Except.ok.inj hsame)
    · obtain ⟨i, hi⟩ := List.mem_iff_getElem?.mp hc
      obtain ⟨r, -, hr⟩ := hmapped.ram i c hi
      have hfind := hres i c hi c.address (covers_address hr)
      obtain ⟨e, -, ha, he⟩ | ⟨-, he⟩ :=
        PhysMem.findDevice_cases (cached_build b host) c.address
      · obtain rfl := Except.ok.inj (hfind.symm.trans (congrArg Prod.fst he))
        exact ((c.contains_range_iff _).mp ha).2
      · exact absurd (hfind.symm.trans (congrArg Prod.fst he)) nofun
  · rintro ⟨hapart, hfits⟩ m hm
    exact resolves_of_apart h hapart hfits hm

def adjacent : List MapRAM := [⟨0, 0x1000, 0x1000, 0x1000⟩, ⟨0x1000, 0x1000, 0x1000, 0x1000⟩]

theorem apart_adjacent : Apart adjacent := by
  intro i j c d hc hd a ha ha'
  obtain _ | _ | i := i <;> obtain _ | _ | j := j <;> simp [adjacent] at hc hd <;>
    subst hc hd
  · rfl
  · have h := ha.2
    have h' := ha'.1
    simp at h h'
    omega
  · have h := ha.1
    have h' := ha'.2
    simp at h h'
    omega
  · rfl

def adjacentBuilder : PhysMemBuilder where
  devices := [(⟨0, 0x1000⟩, 0), (⟨0x1000, 0x2000⟩, 1)]
  rams :=
    let ram : RAM :=
      { ramSize := 0x1000
        pageSize := 0x1000
        chunkSize := 0x1000
        ramSize_ne_zero := by decide
        pageSize_ne_zero := by decide
        pageSize_pow2 := by decide
        chunk_ne_zero := by decide
        chunks := []
        pagemap := fun _ => none }
    [ram, ram]

theorem mapRAMs_adjacent : empty.mapRAMs adjacent = .ok adjacentBuilder := rfl

theorem disjoint_adjacent (host : Host) : (adjacentBuilder.build host).Disjoint :=
  disjoint_build host (mapped_of_empty mapRAMs_adjacent) apart_adjacent

theorem resolves_iff_adjacent :
    Resolves adjacent ((adjacentBuilder.build .willing).load .word 0x1000).2 :=
  (resolves_iff mapRAMs_adjacent).mpr ⟨apart_adjacent, by simp [adjacent, MapRAM.Fits]⟩ _
    (.step (.init rfl) (.load _ .word 0x1000))

theorem apart_singleton (c : MapRAM) : Apart [c] := by
  intro i j d d' hd hd' _ _ _
  obtain ⟨hi, -⟩ := List.getElem?_eq_some_iff.mp hd
  obtain ⟨hj, -⟩ := List.getElem?_eq_some_iff.mp hd'
  exact (Nat.lt_one_iff.mp hi).trans (Nat.lt_one_iff.mp hj).symm

def short : List MapRAM := [⟨0, 6, 16, 0x1000⟩]

def shortBuilder : PhysMemBuilder where
  devices := [(⟨0, 6⟩, 0)]
  rams :=
    [{ ramSize := 6
       pageSize := 16
       chunkSize := 0x1000
       ramSize_ne_zero := by decide
       pageSize_ne_zero := by decide
       pageSize_pow2 := by decide
       chunk_ne_zero := by decide
       chunks := []
       pagemap := fun _ => none }]

theorem mapRAMs_short : empty.mapRAMs short = .ok shortBuilder := rfl

def overlapping : List MapRAM := [⟨0, 0x20, 8, 0x1000⟩, ⟨0x10, 0x20, 8, 0x1000⟩]

theorem overlapping_not_resolved :
    ∃ b, empty.mapRAMs overlapping = .ok b ∧ ¬Resolves overlapping (b.build .willing) := by
  refine ⟨_, rfl, fun h => ?_⟩
  have h18 := h 1 ⟨0x10, 0x20, 8, 0x1000⟩ rfl 0x18 ⟨by decide, by decide⟩
  have hfirst : (1 : DeviceId) = 0 := congrArg Prod.snd (Except.ok.inj h18.symm)
  exact absurd hfirst (by decide)

end PhysMemBuilder

end Besm.Mem
