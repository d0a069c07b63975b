import Besm.Memory.PageAddresses

namespace Besm.Mem

open Besm.Lib Besm.Util

theorem Chunk.allocPage_new (n : Nat) {size : RV64Size} (hs : 0 < size.toNat) (pageSize : RV64Size) :
    (⟨⟨n, 0⟩, ⟨n, 0⟩, size, pageSize⟩ : Chunk).allocPage =
      (some ⟨n, 0⟩, ⟨⟨n, 0⟩, ⟨n, pageSize.toNat⟩, size, pageSize⟩) := by
  have hne : (⟨n, 0⟩ : HostPtr) ≠ .mapFailed := by
    intro h
    have ho : 0 = 2 ^ 64 - 1 := congrArg HostPtr.offset h
    exact absurd ho (by decide)
  have hroom : 0 < 0 + size.toNat := (Nat.zero_add _).symm ▸ hs
  rw [allocPage, if_pos ⟨hne, hroom⟩, HostPtr.add, Nat.zero_add]

theorem Chunk.allocPage_none {c : Chunk} (h : c.allocPage.1 = none) : c.allocPage.2 = c := by
  unfold allocPage at h ⊢
  split_ifs at h ⊢
  rfl

theorem Chunk.create_mapped {chunkSize : RV64Size} {host : Host} {data : HostPtr}
    (h : (host.mmap (hostMmapSize chunkSize host.pageSize)).1 = some data) (pageSize : RV64Size) :
    Chunk.create pageSize chunkSize host =
      (.ok ⟨data, data, hostMmapSize chunkSize host.pageSize, pageSize⟩,
        (host.mmap (hostMmapSize chunkSize host.pageSize)).2) := by
  unfold Chunk.create
  dsimp only
  revert h
  obtain ⟨mapped, host'⟩ := host.mmap (hostMmapSize chunkSize host.pageSize)
  rintro rfl
  rfl

def RAM.mmapSize (r : RAM) (host : Host) : Nat :=
  (Chunk.hostMmapSize r.chunkSize host.pageSize).toNat

structure RAM.Granted (r : RAM) (host : Host) : Prop where
  refuses : ∀ n, host.refuses n = false
  mmapSize : 0 < r.mmapSize host

namespace RAM

def Owns (r : RAM) (region : Nat) : Prop := ∃ c ∈ r.chunks, c.data.region = region

/-- The chunk is one of the RAM's, apart from the pages taken from it, or new. -/
def OldOrNew (r : RAM) (host : Host) (c : Chunk) : Prop :=
  (∃ d ∈ r.chunks, d.data = c.data ∧ d.size = c.size) ∨ host.regions ≤ c.data.region

/-- Every page that was handed out lies in one of the chunks. -/
def PagesInside (r : RAM) : Prop :=
  ∀ id p, r.pagemap id = some (some p) → ∃ c ∈ r.chunks, c.data.region = p.region ∧
    c.data.offset ≤ p.offset ∧ p.offset + r.pageSize.toNat ≤ c.data.offset + c.size.toNat

/-- The chunks and the pages of a RAM lie in regions the host has mapped. -/
structure Wired (r : RAM) (host : Host) : Prop where
  chunk : ∀ c ∈ r.chunks, c.data.region < host.regions ∧ c.rower.region = c.data.region
  page : ∀ id mem, r.pagemap id = some mem → ∃ p, mem = some p ∧ r.Owns p.region

theorem Wired.region_lt {r : RAM} {host : Host} (hw : r.Wired host) {n : Nat}
    (hn : r.Owns n) : n < host.regions := by
  obtain ⟨c, hc, rfl⟩ := hn
  exact (hw.chunk c hc).1

theorem Wired.mono {r : RAM} {host host' : Host} (hw : r.Wired host)
    (hregions : host.regions ≤ host'.regions) : r.Wired host' :=
  ⟨fun c hc => ⟨Nat.lt_of_lt_of_le (hw.chunk c hc).1 hregions, (hw.chunk c hc).2⟩, hw.page⟩

theorem Granted.congr {r r' : RAM} {host host' : Host} (hg : r.Granted host)
    (hsizes : r'.toRAMSizes = r.toRAMSizes) (hrefuses : host'.refuses = host.refuses)
    (hsize : host'.pageSize = host.pageSize) : r'.Granted host' := by
  refine ⟨fun n => hrefuses ▸ hg.refuses n, ?_⟩
  unfold RAM.mmapSize
  rw [hsize, hsizes]
  exact hg.mmapSize

theorem allocPage_full {r : RAM} {host : Host} {data : HostPtr}
    (hfull : ∀ c ∈ r.chunks.head?, c.allocPage.1 = none)
    (hmmap : (host.mmap (Chunk.hostMmapSize r.chunkSize host.pageSize)).1 = some data) :
    r.allocPage host =
      (.ok (Chunk.mk data data (Chunk.hostMmapSize r.chunkSize host.pageSize)
          r.pageSize).allocPage.1,
        { r with chunks := (Chunk.mk data data (Chunk.hostMmapSize r.chunkSize host.pageSize)
            r.pageSize).allocPage.2 :: r.chunks },
        (host.mmap (Chunk.hostMmapSize r.chunkSize host.pageSize)).2) := by
  have hcreate := Chunk.create_mapped hmmap r.pageSize
  unfold allocPage
  cases hc : r.chunks with
  | nil =>
    dsimp only
    rw [hcreate]
  | cons c chunks =>
    have hnone : c.allocPage.1 = none := hfull c (by rw [hc]; rfl)
    dsimp only
    rw [Chunk.allocPage_none hnone, hnone]
    dsimp only
    rw [hcreate]

/-- A new page comes from the newest chunk, or else from the start of a new one. -/
theorem allocPage_cases {r : RAM} {host : Host} (hg : r.Granted host) :
    (∃ c chunks, r.chunks = c :: chunks ∧ c.rower.offset < c.data.offset + c.size.toNat ∧
      r.allocPage host = (.ok (some c.rower),
        { r with chunks := { c with rower := c.rower.add c.pageSize.toNat } :: chunks }, host)) ∨
    (∀ c ∈ r.chunks.head?, c.allocPage.1 = none) ∧
      r.allocPage host = (.ok (some ⟨host.regions, 0⟩),
        { r with chunks :=
            ⟨⟨host.regions, 0⟩, ⟨host.regions, r.pageSize.toNat⟩,
              Chunk.hostMmapSize r.chunkSize host.pageSize, r.pageSize⟩ :: r.chunks },
        (host.mmap (Chunk.hostMmapSize r.chunkSize host.pageSize)).2) := by
  by_cases hfull : ∀ c ∈ r.chunks.head?, c.allocPage.1 = none
  · obtain ⟨hp, -⟩ := Host.mmap_granted (hg.refuses host.regions) hg.mmapSize
    refine .inr ⟨hfull, ?_⟩
    rw [allocPage_full hfull hp, Chunk.allocPage_new _ hg.mmapSize]
  · left
    cases hc : r.chunks with
    | nil =>
      rw [hc] at hfull
      exact absurd nofun hfull
    | cons c chunks =>
      rw [hc] at hfull
      by_cases hlt : c.data ≠ .mapFailed ∧ c.rower.offset < c.data.offset + c.size.toNat
      · have hsome : c.allocPage =
            (some c.rower, { c with rower := c.rower.add c.pageSize.toNat }) := if_pos hlt
        refine ⟨c, chunks, rfl, hlt.2, ?_⟩
        unfold allocPage
        rw [hc]
        dsimp only
        rw [hsome]
      · have hnone : c.allocPage = (none, c) := if_neg hlt
        refine absurd (fun d hd => ?_) hfull
        obtain rfl := Option.some.inj hd
        rw [hnone]

structure Allocates (r : RAM) (host : Host) (p : HostPtr) (r' : RAM) (host' : Host) : Prop where
  sizes : r'.toRAMSizes = r.toRAMSizes
  pagemap : r'.pagemap = r.pagemap
  extend : host.Extends host'
  wired : r'.Wired host'
  page : r'.Owns p.region
  chunks : ∀ c ∈ r'.chunks, r.OldOrNew host c

theorem allocPage_spec {r : RAM} {host : Host} (hw : r.Wired host) (hg : r.Granted host) :
    ∃ p r' host', r.allocPage host = (.ok (some p), r', host') ∧ r.Allocates host p r' host' := by
  obtain ⟨c, chunks, hc, -, ha⟩ | ⟨-, ha⟩ := allocPage_cases hg
  · have hregions : ∀ n, Owns { r with
        chunks := { c with rower := c.rower.add c.pageSize.toNat } :: chunks } n ↔ r.Owns n := by
      intro n
      simp only [Owns, hc, List.mem_cons, exists_eq_or_imp]
    have hcw := hw.chunk c (hc ▸ List.mem_cons_self)
    refine ⟨_, _, _, ha, rfl, rfl, .refl host, ⟨fun d hd => ?_, fun id mem hmem => ?_⟩, ?_,
      fun d hd => .inl ?_⟩
    · obtain rfl | hd := List.mem_cons.mp hd
      · exact hcw
      · exact hw.chunk d (hc ▸ List.mem_cons_of_mem _ hd)
    · obtain ⟨p, hp, hr⟩ := hw.page id mem hmem
      exact ⟨p, hp, (hregions _).mpr hr⟩
    · exact ⟨_, List.mem_cons_self, hcw.2.symm⟩
    · obtain rfl | hd := List.mem_cons.mp hd
      · exact ⟨c, hc ▸ List.mem_cons_self, rfl, rfl⟩
      · exact ⟨d, hc ▸ List.mem_cons_of_mem _ hd, rfl, rfl⟩
  · obtain ⟨-, hcount, hext, -⟩ := Host.mmap_granted (hg.refuses host.regions) hg.mmapSize
    refine ⟨_, _, _, ha, rfl, rfl, hext, ⟨fun d hd => ?_, fun id mem hmem => ?_⟩, ?_, fun d hd => ?_⟩
    · obtain rfl | hd := List.mem_cons.mp hd
      · exact ⟨by rw [hcount]; exact Nat.lt_succ_self _, rfl⟩
      · exact (hw.mono hext.regions).chunk d hd
    · obtain ⟨p, hp, c, hc, hr⟩ := hw.page id mem hmem
      exact ⟨p, hp, c, List.mem_cons_of_mem _ hc, hr⟩
    · exact ⟨_, List.mem_cons_self, rfl⟩
    · obtain rfl | hd := List.mem_cons.mp hd
      · exact .inr (Nat.le_refl _)
      · exact .inl ⟨d, hd, rfl, rfl⟩

structure Touches (r : RAM) (host : Host) (id : PageId) (p : HostPtr) (r' : RAM) (host' : Host) :
    Prop where
  sizes : r'.toRAMSizes = r.toRAMSizes
  pagemap : r'.pagemap = Function.update r.pagemap id (some (some p))
  extend : host.Extends host'
  wired : r'.Wired host'
  chunks : ∀ c ∈ r'.chunks, r.OldOrNew host c
  same : r.pagemap id ≠ none → r.pagemap id = some (some p) ∧ r' = r ∧ host' = host

theorem touchPageAddress_spec {r : RAM} {host : Host} (hw : r.Wired host) (hg : r.Granted host)
    (address : RV64Ptr) :
    ∃ p r' host', r.touchPageAddress host address = (.ok (some p), r', host') ∧
      r.Touches host (r.getPageId address) p r' host' := by
  unfold touchPageAddress
  cases hm : r.pagemap (r.getPageId address) with
  | some mem =>
    obtain ⟨p, rfl, -⟩ := hw.page _ _ hm
    refine ⟨p, r, host, rfl, rfl, ?_, .refl host, hw,
      fun c hc => .inl ⟨c, hc, rfl, rfl⟩, fun _ => ⟨hm, rfl, rfl⟩⟩
    rw [← hm, Function.update_eq_self]
  | none =>
    obtain ⟨p, r', host', ha, hall⟩ := allocPage_spec hw hg
    have hid : r'.getPageId address = r.getPageId address := by
      rw [getPageId, getPageId, hall.sizes]
    have hmap : Function.update r'.pagemap (r'.getPageId address) (some (some p)) =
        Function.update r.pagemap (r.getPageId address) (some (some p)) := by
      rw [hid, hall.pagemap]
    dsimp only
    rw [ha]
    refine ⟨p, _, host', rfl, hall.sizes, hmap, hall.extend, ⟨hall.wired.chunk, fun id mem hmem => ?_⟩,
      hall.chunks, fun hne => absurd hm hne⟩
    by_cases hpage : id = r'.getPageId address
    · subst hpage
      dsimp only at hmem
      rw [Function.update_self] at hmem
      exact ⟨p, (Option.some.inj hmem).symm, hall.page⟩
    · dsimp only at hmem
      rw [Function.update_of_ne hpage] at hmem
      exact hall.wired.page id mem hmem

def byteAt (r : RAM) (host : Host) (address : RV64Ptr) : BitVec 8 :=
  match (r.getHostAddress address).1 with
  | none => 0
  | some p => host.readByte p

theorem getHostAddress_present {r : RAM} {address : RV64Ptr} {p : HostPtr}
    (h : r.pagemap (r.getPageId address) = some (some p)) :
    r.getHostAddress address = (some (p.add (r.getPageOffset address).toNat),
      r.pageSize - r.getPageOffset address) := by
  unfold getHostAddress getPageAddress
  rw [h]
  rfl

theorem getHostAddress_absent {r : RAM} {address : RV64Ptr}
    (h : r.pagemap (r.getPageId address) = none) : r.getHostAddress address = (none, 0) := by
  unfold getHostAddress getPageAddress
  rw [h]
  rfl

theorem byteAt_present {r : RAM} {host : Host} {address : RV64Ptr} {p : HostPtr}
    (h : r.pagemap (r.getPageId address) = some (some p)) :
    r.byteAt host address = host.readByte (p.add (r.getPageOffset address).toNat) := by
  rw [byteAt, getHostAddress_present h]

theorem byteAt_absent {r : RAM} {host : Host} {address : RV64Ptr}
    (h : r.pagemap (r.getPageId address) = none) : r.byteAt host address = 0 := by
  rw [byteAt, getHostAddress_absent h]

/-- There is a page of several bytes that has yet to be handed out. -/
def Spare (r : RAM) : Prop :=
  1 < r.pageSize.toNat ∧ ∃ a : RV64Ptr, a.toNat < r.ramSize.toNat ∧ r.pagemap (r.getPageId a) = none

/-- The pages taken from a chunk lie below the rest of it, which is zero as long
as it may be handed out. -/
structure Frontier (r : RAM) (host : Host) (c : Chunk) : Prop where
  pageSize : c.pageSize = r.pageSize
  aligned : r.pageSize.toNat ∣ c.rower.offset
  below : ∀ id p, r.pagemap id = some (some p) → p.region = c.data.region →
    p.offset + r.pageSize.toNat ≤ c.rower.offset
  zero : r.Spare → ∀ n, c.rower.offset ≤ n → n < c.size.toNat → host.bytes c.data.region n = 0

/-- The pages of a RAM do not overlap, and the next one will be zero. -/
structure Clean (r : RAM) (host : Host) : Prop extends Wired r host where
  mmapSize : ∀ c ∈ r.chunks, c.data.offset = 0 ∧ c.size.toNat = r.mmapSize host
  apart : ∀ id id' p q, r.pagemap id = some (some p) → r.pagemap id' = some (some q) →
    id ≠ id' → p.region = q.region →
      p.offset + r.pageSize.toNat ≤ q.offset ∨ q.offset + r.pageSize.toNat ≤ p.offset
  newest : ∀ c chunks, r.chunks = c :: chunks → r.Frontier host c

theorem Clean.pagesInside_iff {r : RAM} {host : Host} (hc : r.Clean host) : r.PagesInside ↔
    ∀ id p, r.pagemap id = some (some p) → p.offset + r.pageSize.toNat ≤ r.mmapSize host := by
  refine ⟨fun h id p hp => ?_, fun h id p hp => ?_⟩
  · obtain ⟨c, hm, -, -, hle⟩ := h id p hp
    obtain ⟨hstart, hsize⟩ := hc.mmapSize c hm
    omega
  · obtain ⟨q, hq, c, hm, hregion⟩ := hc.page id _ hp
    obtain rfl := Option.some.inj hq
    obtain ⟨hstart, hsize⟩ := hc.mmapSize c hm
    have hle := h id p hp
    exact ⟨c, hm, hregion, by omega, by omega⟩

theorem Clean.agree {r : RAM} {host host' : Host} (hc : r.Clean host)
    (hregions : host.regions ≤ host'.regions) (hsize : host'.pageSize = host.pageSize)
    (hbytes : ∀ n, r.Owns n → host'.bytes n = host.bytes n) : r.Clean host' := by
  have hmmap : r.mmapSize host' = r.mmapSize host := by
    rw [RAM.mmapSize, RAM.mmapSize, hsize]
  refine ⟨⟨fun c hm => ⟨Nat.lt_of_lt_of_le (hc.chunk c hm).1 hregions,
    (hc.chunk c hm).2⟩, hc.page⟩,
    hmmap ▸ hc.mmapSize, hc.apart, fun c chunks hch => ?_⟩
  have hf := hc.newest c chunks hch
  refine ⟨hf.pageSize, hf.aligned, hf.below, fun hs n hn hlt => ?_⟩
  rw [hbytes _ ⟨c, hch ▸ List.mem_cons_self, rfl⟩]
  exact hf.zero hs n hn hlt

theorem byteAt_agree {r : RAM} {host host' : Host} (hw : r.Wired host)
    (hbytes : ∀ n, r.Owns n → host'.bytes n = host.bytes n) (address : RV64Ptr) :
    r.byteAt host' address = r.byteAt host address := by
  cases hm : r.pagemap (r.getPageId address) with
  | none => rw [byteAt_absent hm, byteAt_absent hm]
  | some mem =>
    obtain ⟨p, rfl, ho⟩ := hw.page _ _ hm
    rw [byteAt_present hm, byteAt_present hm, Host.readByte, Host.readByte, HostPtr.region_add,
      hbytes _ ho]

structure NewPage (r : RAM) (host' : Host) (p : HostPtr) (c : Chunk) : Prop where
  above : ∀ id q, r.pagemap id = some (some q) → q.region = p.region →
    q.offset + r.pageSize.toNat ≤ p.offset
  zero : r.Spare → p.offset + r.pageSize.toNat ≤ r.mmapSize host' →
    ∀ n < r.pageSize.toNat, host'.readByte (p.add n) = 0
  frontier : r.Frontier host' c
  below : p.region = c.data.region → p.offset + r.pageSize.toNat ≤ c.rower.offset

theorem allocPage_clean {r : RAM} {host : Host} (hc : r.Clean host) (hg : r.Granted host)
    {p : HostPtr} {r' : RAM} {host' : Host} (ha : r.allocPage host = (.ok (some p), r', host')) :
    (∀ c ∈ r'.chunks, c.data.offset = 0 ∧ c.size.toNat = r.mmapSize host') ∧
      ∃ c chunks, r'.chunks = c :: chunks ∧ r.NewPage host' p c := by
  obtain ⟨c, chunks, hch, -, he⟩ | ⟨-, he⟩ := allocPage_cases hg
  · cases he.symm.trans ha
    have hf := hc.newest c chunks hch
    have hregion := (hc.chunk c (hch ▸ List.mem_cons_self)).2
    have hsize := hc.mmapSize c (hch ▸ List.mem_cons_self)
    refine ⟨fun d hd => ?_, _, chunks, rfl, fun id q hq hr => ?_, fun hs hin n hn => ?_, ?_,
      fun _ => ?_⟩
    · obtain rfl | hd := List.mem_cons.mp hd
      · exact hsize
      · exact hc.mmapSize d (hch ▸ List.mem_cons_of_mem _ hd)
    · exact hf.below id q hq (hr.trans hregion)
    · rw [Host.readByte, HostPtr.region_add, HostPtr.offset_add, hregion]
      exact hf.zero hs _ (Nat.le_add_right _ _) (by omega)
    · refine ⟨hf.pageSize, ?_, fun id q hq hr => ?_, fun hs n hn hn' => ?_⟩
      · rw [HostPtr.offset_add, hf.pageSize]
        exact Nat.dvd_add hf.aligned (Nat.dvd_refl _)
      · exact Nat.le_trans (hf.below id q hq hr) (Nat.le_add_right _ _)
      · exact hf.zero hs n (Nat.le_trans (Nat.le_add_right _ _) hn) hn'
    · rw [HostPtr.offset_add, hf.pageSize]
  · obtain ⟨-, -, hext, hzero⟩ := Host.mmap_granted (hg.refuses host.regions) hg.mmapSize
    cases he.symm.trans ha
    have hfresh : ∀ id q, r.pagemap id = some (some q) → q.region ≠ host.regions := by
      intro id q hq
      obtain ⟨q', hq', ho⟩ := hc.page id _ hq
      obtain rfl := Option.some.inj hq'
      exact Nat.ne_of_lt (hc.region_lt ho)
    have hsize : r.mmapSize (host.mmap (Chunk.hostMmapSize r.chunkSize host.pageSize)).2 =
        r.mmapSize host := by
      rw [RAM.mmapSize, RAM.mmapSize, hext.pageSize]
    refine ⟨fun d hd => ?_, _, r.chunks, rfl, fun id q hq hr => absurd hr (hfresh id q hq),
      fun _ hin n hn => ?_, ?_, fun _ => Nat.le_of_eq (Nat.zero_add _)⟩
    · obtain rfl | hd := List.mem_cons.mp hd
      · exact ⟨rfl, hsize.symm⟩
      · rw [hsize]
        exact hc.mmapSize d hd
    · rw [hsize] at hin
      rw [Host.readByte, HostPtr.region_add, HostPtr.offset_add, Nat.zero_add]
      exact hzero n (Nat.lt_of_lt_of_le hn (Nat.le_trans (Nat.le_add_left _ _) hin))
    · exact ⟨rfl, Nat.dvd_refl _, fun id q hq hr => absurd hr (hfresh id q hq),
        fun _ n _ hn => hzero n hn⟩

theorem pagemap_update {r : RAM} {id : PageId} {p : HostPtr} {id' : PageId} {q : HostPtr}
    (h : Function.update r.pagemap id (some (some p)) id' = some (some q)) :
    (id' = id ∧ q = p) ∨ (id' ≠ id ∧ r.pagemap id' = some (some q)) := by
  by_cases hid : id' = id
  · subst hid
    rw [Function.update_self] at h
    exact .inl ⟨rfl, (Option.some.inj (Option.some.inj h)).symm⟩
  · rw [Function.update_of_ne hid] at h
    exact .inr ⟨hid, h⟩

theorem byteAt_touches {r : RAM} {host : Host} (hw : r.Wired host) {address : RV64Ptr}
    {p : HostPtr} {r' : RAM} {host' : Host} (ht : r.Touches host (r.getPageId address) p r' host')
    {a : RV64Ptr} (hzero : r.getPageId a = r.getPageId address →
      r.pagemap (r.getPageId address) = none → ∀ n < r.pageSize.toNat, host'.readByte (p.add n) = 0) :
    r'.byteAt host' a = r.byteAt host a := by
  have hid : r'.getPageId a = r.getPageId a := by rw [getPageId, getPageId, ht.sizes]
  have hoff : r'.getPageOffset a = r.getPageOffset a := by
    rw [getPageOffset, getPageOffset, ht.sizes]
  by_cases hpage : r.getPageId a = r.getPageId address
  · have hnew : r'.pagemap (r'.getPageId a) = some (some p) := by
      rw [hid, ht.pagemap, hpage, Function.update_self]
    rw [byteAt_present hnew, hoff]
    cases hm : r.pagemap (r.getPageId address) with
    | some mem =>
      obtain ⟨hp, -, rfl⟩ := ht.same (by rw [hm]; nofun)
      rw [← hpage] at hp
      rw [byteAt_present hp]
    | none =>
      have hz := hzero hpage hm _ (BitVec.lt_def.mp (BitVec.umod_lt a r.pageSize_pos))
      rw [← hpage] at hm
      rw [byteAt_absent hm]
      exact hz
  · have hkeep : r'.pagemap (r'.getPageId a) = r.pagemap (r.getPageId a) := by
      rw [hid, ht.pagemap, Function.update_of_ne hpage]
    cases hq : r.pagemap (r.getPageId a) with
    | none => rw [byteAt_absent hq, byteAt_absent (hkeep.trans hq)]
    | some mem =>
      obtain ⟨b, rfl, ho⟩ := hw.page _ _ hq
      rw [byteAt_present hq, byteAt_present (hkeep.trans hq), hoff]
      exact ht.extend.readByte (hw.region_lt ho)

theorem Touches.spare {r r' : RAM} {host host' : Host} {id : PageId} {p : HostPtr}
    (ht : r.Touches host id p r' host') (hs : r'.Spare) : r.Spare := by
  obtain ⟨hps, a, ha, hnone⟩ := hs
  have hid : r'.getPageId a = r.getPageId a := by rw [getPageId, getPageId, ht.sizes]
  rw [hid, ht.pagemap] at hnone
  have hne : r.getPageId a ≠ id := by
    rintro rfl
    rw [Function.update_self] at hnone
    cases hnone
  rw [Function.update_of_ne hne] at hnone
  rw [ht.sizes] at hps ha
  exact ⟨hps, a, ha, hnone⟩

/-- A page that is touched for the first time is apart from the others, and if it
is more than the touched byte and lies in its chunk, the program sees the zeros
it saw before. -/
theorem touchPageAddress_clean {r : RAM} {host : Host} (hc : r.Clean host) (hg : r.Granted host)
    {address : RV64Ptr} {p : HostPtr} {r' : RAM} {host' : Host}
    (ht : r.touchPageAddress host address = (.ok (some p), r', host')) :
    r'.Clean host' ∧ ∀ a, (r.getPageId a = r.getPageId address → 1 < r.pageSize.toNat ∧
      address.toNat < r.ramSize.toNat ∧ r'.PagesInside) → r'.byteAt host' a = r.byteAt host a := by
  obtain ⟨p', r'', host'', ht', htouch⟩ := touchPageAddress_spec hc.toWired hg address
  cases ht.symm.trans ht'
  cases hm : r.pagemap (r.getPageId address) with
  | some mem =>
    obtain ⟨-, rfl, rfl⟩ := htouch.same (by rw [hm]; nofun)
    exact ⟨hc, fun _ _ => rfl⟩
  | none =>
    obtain ⟨q, r₁, host₁, ha, hall⟩ := allocPage_spec hc.toWired hg
    obtain ⟨hsize, c, chunks, hch, hnew⟩ := allocPage_clean hc hg ha
    unfold touchPageAddress at ht
    rw [hm, ha] at ht
    cases ht
    have hps : r₁.pageSize = r.pageSize := congrArg RAMSizes.pageSize hall.sizes
    have hmmap : r₁.mmapSize host' = r.mmapSize host' := by
      rw [RAM.mmapSize, RAM.mmapSize, hall.sizes]
    have hmap := htouch.pagemap
    have hspare := htouch.spare
    dsimp only at hmap
    have hclean : RAM.Clean { r₁ with
        pagemap := Function.update r₁.pagemap (r₁.getPageId address) (some (some p)) } host' := by
      refine ⟨htouch.wired, fun d hd => ?_, fun id id' a b ha hb hne hr => ?_, fun d ds hd => ?_⟩
      · change d.data.offset = 0 ∧ d.size.toNat = r₁.mmapSize host'
        rw [hmmap]
        exact hsize d hd
      · change a.offset + r₁.pageSize.toNat ≤ b.offset ∨ b.offset + r₁.pageSize.toNat ≤ a.offset
        rw [hps]
        dsimp only at ha hb
        rw [hmap] at ha hb
        obtain ⟨hi, rfl⟩ | ⟨-, ha'⟩ := pagemap_update ha
        · obtain ⟨hj, -⟩ | ⟨-, hb'⟩ := pagemap_update hb
          · exact absurd (hi.trans hj.symm) hne
          · exact .inr (hnew.above _ _ hb' hr.symm)
        · obtain ⟨-, rfl⟩ | ⟨-, hb'⟩ := pagemap_update hb
          · exact .inl (hnew.above _ _ ha' hr)
          · exact hc.apart _ _ _ _ ha' hb' hne hr
      · obtain ⟨rfl, -⟩ := List.cons.inj (hch.symm.trans hd)
        have hf := hnew.frontier
        refine ⟨hf.pageSize.trans hps.symm, ?_, fun id b hb hr => ?_, fun hs => hf.zero (hspare hs)⟩
        · change r₁.pageSize.toNat ∣ c.rower.offset
          rw [hps]
          exact hf.aligned
        · change b.offset + r₁.pageSize.toNat ≤ c.rower.offset
          rw [hps]
          dsimp only at hb
          rw [hmap] at hb
          obtain ⟨-, rfl⟩ | ⟨-, hb'⟩ := pagemap_update hb
          · exact hnew.below hr
          · exact hf.below id b hb' hr
    refine ⟨hclean, fun a ha => byteAt_touches hc.toWired htouch fun hpage _ => ?_⟩
    obtain ⟨hone, hlt, hin⟩ := ha hpage
    have hle := hclean.pagesInside_iff.mp hin (r.getPageId address) p
      (by rw [htouch.pagemap, Function.update_self])
    exact hnew.zero ⟨hone, address, hlt, hm⟩ (by rwa [← hmmap, ← hps])

end RAM

end Besm.Mem
