import Besm.Memory.Pages
import Mathlib.Data.List.Range

namespace Besm.Mem.RAM

open Besm.Lib

def allocPages : Nat → RAM → Host → List (Except MemError HostAddress) × RAM × Host
  | 0, r, host => ([], r, host)
  | n + 1, r, host =>
    match allocPages n r host with
    | (pages, r, host) =>
      match r.allocPage host with
      | (page, r, host) => (pages ++ [page], r, host)

/-- Every page lies inside a chunk, and no two pages overlap. -/
structure PagesSound (n : Nat) (r : RAM) (host : Host) : Prop where
  inside : ∀ page ∈ (allocPages n r host).1, ∃ p, page = .ok (some p) ∧
    ∃ c ∈ (allocPages n r host).2.1.chunks, c.data.region = p.region ∧ c.data.offset ≤ p.offset ∧
      p.offset + r.pageSize.toNat ≤ c.data.offset + c.size.toNat
  apart : (allocPages n r host).1.Pairwise fun page page' =>
    ∀ p q, page = .ok (some p) → page' = .ok (some q) → p.region = q.region →
      p.offset + r.pageSize.toNat ≤ q.offset ∨ q.offset + r.pageSize.toNat ≤ p.offset

def pagesPerChunk (r : RAM) (host : Host) : Nat :=
  (r.mmapSize host + r.pageSize.toNat - 1) / r.pageSize.toNat

def nthPage (r : RAM) (host : Host) (k : Nat) : HostPtr :=
  ⟨host.regions + k / r.pagesPerChunk host, k % r.pagesPerChunk host * r.pageSize.toNat⟩

variable {r r' : RAM} {host host' : Host} {n : Nat}

theorem lt_pagesPerChunk_iff (r : RAM) (host : Host) (k : Nat) :
    k < r.pagesPerChunk host ↔ k * r.pageSize.toNat < r.mmapSize host := by
  have hps := r.pageSize_pos
  rw [pagesPerChunk, Nat.lt_iff_add_one_le, Nat.le_div_iff_mul_le hps, Nat.succ_mul]
  omega

theorem pagesPerChunk_pos (hg : r.Granted host) : 0 < r.pagesPerChunk host := by
  rw [lt_pagesPerChunk_iff, Nat.zero_mul]
  exact hg.mmapSize

def newestChunk (r : RAM) (host : Host) (j : Nat) : Chunk :=
  ⟨⟨host.regions + j / r.pagesPerChunk host, 0⟩,
    ⟨host.regions + j / r.pagesPerChunk host,
      (j % r.pagesPerChunk host + 1) * r.pageSize.toNat⟩,
    Chunk.hostMmapSize r.chunkSize host.pageSize, r.pageSize⟩

structure Handed (r : RAM) (host : Host) (n : Nat) (r' : RAM) (host' : Host) : Prop where
  sizes : r'.toRAMSizes = r.toRAMSizes
  refuses : host'.refuses = host.refuses
  pageSize : host'.pageSize = host.pageSize
  chunk : ∀ c ∈ r'.chunks, c.data.offset = 0 ∧ c.size.toNat = r.mmapSize host
  owns : ∀ k < n, r'.Owns (r.nthPage host k).region
  first : n = 0 → r'.chunks = [] ∧ host'.regions = host.regions
  newest : ∀ j, n = j + 1 → r'.chunks.head? = some (r.newestChunk host j) ∧
    host'.regions = host.regions + j / r.pagesPerChunk host + 1

theorem Handed.granted (h : r.Handed host n r' host') (hg : r.Granted host) : r'.Granted host' :=
  hg.congr h.sizes h.refuses h.pageSize

theorem handed_zero (hnew : r.chunks = []) : r.Handed host 0 r host where
  sizes := rfl
  refuses := rfl
  pageSize := rfl
  chunk c hc := by rw [hnew] at hc; cases hc
  owns k hk := absurd hk (Nat.not_lt_zero k)
  first _ := ⟨hnew, rfl⟩
  newest _ hj := by cases hj

theorem succ_div_mod {s : Nat} (hs : 0 < s) (j : Nat) :
    (j % s + 1 < s ∧ (j + 1) / s = j / s ∧ (j + 1) % s = j % s + 1) ∨
      (j % s + 1 = s ∧ (j + 1) / s = j / s + 1 ∧ (j + 1) % s = 0) := by
  have hj := Nat.mod_add_div j s
  obtain hlt | heq := Nat.lt_or_eq_of_le (Nat.succ_le_of_lt (Nat.mod_lt j hs))
  · refine .inl ⟨hlt, (Nat.div_mod_unique hs).mpr ⟨?_, hlt⟩⟩
    omega
  · refine .inr ⟨heq, (Nat.div_mod_unique hs).mpr ⟨?_, hs⟩⟩
    rw [Nat.mul_succ]
    omega

theorem newestChunk_room (r : RAM) (host : Host) (j : Nat) :
    (r.newestChunk host j).allocPage.1 ≠ none ↔
      j % r.pagesPerChunk host + 1 < r.pagesPerChunk host := by
  have hfailed : (r.newestChunk host j).data ≠ .mapFailed := by
    intro h
    have ho : 0 = 2 ^ 64 - 1 := congrArg HostPtr.offset h
    exact absurd ho (by decide)
  have hend : (r.newestChunk host j).data.offset + (r.newestChunk host j).size.toNat =
    r.mmapSize host := Nat.zero_add _
  rw [lt_pagesPerChunk_iff, Chunk.allocPage, hend]
  split_ifs with hroom
  · exact iff_of_true (Option.some_ne_none _) hroom.2
  · exact iff_of_false (fun h => h rfl) fun hlt => hroom ⟨hfailed, hlt⟩

theorem Handed.same_chunk (h : r.Handed host n r' host') (hg : r.Granted host) {c : Chunk}
    {chunks : List Chunk} (hc : r'.chunks = c :: chunks)
    (hroom : c.rower.offset < c.data.offset + c.size.toNat) :
    c.rower = r.nthPage host n ∧
      r.Handed host (n + 1)
        { r' with chunks := { c with rower := c.rower.add c.pageSize.toNat } :: chunks } host' := by
  have hs := pagesPerChunk_pos hg
  cases n with
  | zero =>
    rw [(h.first rfl).1] at hc
    cases hc
  | succ j =>
    obtain ⟨hnew, hregions⟩ := h.newest j rfl
    rw [hc] at hnew
    obtain rfl := Option.some.inj hnew
    have hend : (r.newestChunk host j).data.offset + (r.newestChunk host j).size.toNat =
      r.mmapSize host := Nat.zero_add _
    have hlt : j % r.pagesPerChunk host + 1 < r.pagesPerChunk host := by
      rw [lt_pagesPerChunk_iff, ← hend]
      exact hroom
    obtain ⟨-, hdiv, hmod⟩ | ⟨heq, -, -⟩ := succ_div_mod hs j
    · have hrower : (r.newestChunk host j).rower = r.nthPage host (j + 1) := by
        rw [nthPage, hdiv, hmod]
        rfl
      have hadvance : { r.newestChunk host j with
          rower := (r.newestChunk host j).rower.add (r.newestChunk host j).pageSize.toNat } =
            r.newestChunk host (j + 1) := by
        rw [newestChunk, newestChunk, hdiv, hmod, Nat.succ_mul (j % _ + 1)]
        rfl
      have hregion : (r.newestChunk host (j + 1)).data.region =
        (r.newestChunk host j).data.region := congrArg (host.regions + ·) hdiv
      rw [hadvance]
      refine ⟨hrower, h.sizes, h.refuses, h.pageSize, fun d hd => ?_, fun k hk => ?_, nofun,
        fun j' hj' => ?_⟩
      · obtain rfl | hd := List.mem_cons.mp hd
        · exact ⟨rfl, rfl⟩
        · exact h.chunk d (hc ▸ List.mem_cons_of_mem _ hd)
      · obtain hk | rfl := Nat.lt_succ_iff_lt_or_eq.mp hk
        · obtain ⟨d, hd, howns⟩ := h.owns k hk
          rw [hc] at hd
          obtain rfl | hd := List.mem_cons.mp hd
          · exact ⟨_, List.mem_cons_self, hregion.trans howns⟩
          · exact ⟨d, List.mem_cons_of_mem _ hd, howns⟩
        · exact ⟨_, List.mem_cons_self, rfl⟩
      · obtain rfl : j + 1 = j' := Nat.succ.inj hj'
        exact ⟨rfl, by rw [hregions, hdiv]⟩
    · omega

theorem Handed.new_chunk (h : r.Handed host n r' host') (hg : r.Granted host)
    (hfull : ∀ c ∈ r'.chunks.head?, c.allocPage.1 = none) :
    (⟨host'.regions, 0⟩ : HostPtr) = r.nthPage host n ∧
      r.Handed host (n + 1)
        { r' with chunks := ⟨⟨host'.regions, 0⟩, ⟨host'.regions, r'.pageSize.toNat⟩,
            Chunk.hostMmapSize r'.chunkSize host'.pageSize, r'.pageSize⟩ :: r'.chunks }
        (host'.mmap (Chunk.hostMmapSize r'.chunkSize host'.pageSize)).2 := by
  have hs := pagesPerChunk_pos hg
  have hg' := h.granted hg
  obtain ⟨-, hcount, hext, -⟩ := Host.mmap_granted (hg'.refuses host'.regions) hg'.mmapSize
  have hfresh : n % r.pagesPerChunk host = 0 ∧
      host'.regions = host.regions + n / r.pagesPerChunk host := by
    cases n with
    | zero => exact ⟨Nat.zero_mod _, (h.first rfl).2.trans (by rw [Nat.zero_div, Nat.add_zero])⟩
    | succ j =>
      obtain ⟨hnew, hregions⟩ := h.newest j rfl
      have hno := hfull _ hnew
      obtain ⟨hlt, -, -⟩ | ⟨-, hdiv, hmod⟩ := succ_div_mod hs j
      · exact absurd hno ((newestChunk_room r host j).mpr hlt)
      · exact ⟨hmod, by rw [hregions, hdiv, Nat.add_assoc]⟩
  have hpage : (⟨host'.regions, 0⟩ : HostPtr) = r.nthPage host n := by
    rw [nthPage, hfresh.1, hfresh.2, Nat.zero_mul]
  have hps : r'.pageSize = r.pageSize := congrArg RAMSizes.pageSize h.sizes
  have hcs : r'.chunkSize = r.chunkSize := congrArg RAMSizes.chunkSize h.sizes
  refine ⟨hpage, h.sizes, hext.refuses.trans h.refuses, hext.pageSize.trans h.pageSize,
    fun d hd => ?_, fun k hk => ?_, nofun, fun j hj => ?_⟩
  · obtain rfl | hd := List.mem_cons.mp hd
    · refine ⟨rfl, ?_⟩
      dsimp only
      rw [hcs, h.pageSize]
      rfl
    · exact h.chunk d hd
  · obtain hk | rfl := Nat.lt_succ_iff_lt_or_eq.mp hk
    · obtain ⟨d, hd, hregion⟩ := h.owns k hk
      exact ⟨d, List.mem_cons_of_mem _ hd, hregion⟩
    · exact ⟨_, List.mem_cons_self, congrArg HostPtr.region hpage⟩
  · obtain rfl : n = j := Nat.succ.inj hj
    rw [hcount, newestChunk, hfresh.1, ← hfresh.2, Nat.zero_add, Nat.one_mul, hps, hcs, h.pageSize]
    exact ⟨rfl, rfl⟩

theorem Handed.step (h : r.Handed host n r' host') (hg : r.Granted host) :
    ∃ r'' host'', r'.allocPage host' = (.ok (some (r.nthPage host n)), r'', host'') ∧
      r.Handed host (n + 1) r'' host'' := by
  obtain ⟨c, chunks, hc, hroom, ha⟩ | ⟨hfull, ha⟩ := allocPage_cases (h.granted hg)
  · obtain ⟨hpage, hnext⟩ := h.same_chunk hg hc hroom
    exact ⟨_, _, by rw [ha, hpage], hnext⟩
  · obtain ⟨hpage, hnext⟩ := h.new_chunk hg hfull
    exact ⟨_, _, by rw [ha, hpage], hnext⟩

theorem allocPages_spec (hnew : r.chunks = []) (hg : r.Granted host) (n : Nat) :
    ∃ r' host', allocPages n r host =
        ((List.range n).map fun k => .ok (some (r.nthPage host k)), r', host') ∧
      r.Handed host n r' host' := by
  induction n with
  | zero => exact ⟨r, host, rfl, handed_zero hnew⟩
  | succ n ih =>
    obtain ⟨r', host', hn, h⟩ := ih
    obtain ⟨r'', host'', ha, hnext⟩ := h.step hg
    refine ⟨r'', host'', ?_, hnext⟩
    rw [allocPages, hn]
    dsimp only
    rw [ha, List.range_succ, List.map_append]
    rfl

/-- Pages of the same chunk are apart, also those that leave the chunk. -/
theorem nthPage_apart {i j : Nat} (hij : i < j)
    (hregion : (r.nthPage host i).region = (r.nthPage host j).region) :
    (r.nthPage host i).offset + r.pageSize.toNat ≤ (r.nthPage host j).offset := by
  have hdiv : i / r.pagesPerChunk host = j / r.pagesPerChunk host :=
    Nat.add_left_cancel hregion
  have hi := Nat.mod_add_div i (r.pagesPerChunk host)
  have hj := Nat.mod_add_div j (r.pagesPerChunk host)
  have hmod : i % r.pagesPerChunk host + 1 ≤ j % r.pagesPerChunk host := by
    rw [hdiv] at hi
    omega
  rw [nthPage, nthPage, ← Nat.succ_mul]
  exact Nat.mul_le_mul_right _ hmod

/-- Every page is inside its chunk exactly if the chunks are whole pages, or the
first chunk has not come to its last, broken page. -/
theorem pages_sound_iff (n : Nat) (hnew : r.chunks = []) (hg : r.Granted host) :
    PagesSound n r host ↔
      r.pageSize.toNat ∣ r.mmapSize host ∨ n ≤ r.mmapSize host / r.pageSize.toNat := by
  have hps := r.pageSize_pos
  obtain ⟨r', host', hn, h⟩ := allocPages_spec hnew hg n
  constructor
  · intro hsound
    by_contra hno
    obtain ⟨hdvd, hlt⟩ := not_or.mp hno
    have hbroken : r.mmapSize host / r.pageSize.toNat < r.pagesPerChunk host := by
      rw [lt_pagesPerChunk_iff]
      refine Nat.lt_of_le_of_ne (Nat.div_mul_le_self _ _) fun he => hdvd ?_
      exact ⟨r.mmapSize host / r.pageSize.toNat, by rw [Nat.mul_comm, he]⟩
    obtain ⟨p, hp, c, hc, -, -, hle⟩ := hsound.inside
      (.ok (some (r.nthPage host (r.mmapSize host / r.pageSize.toNat)))) (by
        rw [hn]
        exact List.mem_map.mpr ⟨_, List.mem_range.mpr (by omega), rfl⟩)
    rw [hn] at hc
    obtain ⟨hstart, hsize⟩ := h.chunk c hc
    obtain rfl := Option.some.inj (Except.ok.inj hp)
    rw [hstart, hsize, nthPage, Nat.mod_eq_of_lt hbroken, Nat.zero_add, ← Nat.succ_mul] at hle
    exact absurd ((Nat.div_lt_iff_lt_mul hps).mp (Nat.lt_succ_self _)) (Nat.not_lt.mpr hle)
  · intro hfit
    constructor
    · intro page hpage
      rw [hn] at hpage ⊢
      obtain ⟨k, hk, rfl⟩ := List.mem_map.mp hpage
      obtain ⟨c, hc, hregion⟩ := h.owns k (List.mem_range.mp hk)
      obtain ⟨hstart, hsize⟩ := h.chunk c hc
      refine ⟨_, rfl, c, hc, hregion, by rw [hstart]; exact Nat.zero_le _, ?_⟩
      rw [hstart, hsize, nthPage, Nat.zero_add, ← Nat.succ_mul, ← Nat.le_div_iff_mul_le hps]
      have hlt := Nat.mod_lt k (pagesPerChunk_pos hg)
      have hle := Nat.mod_le k (r.pagesPerChunk host)
      have hk := List.mem_range.mp hk
      obtain ⟨q, hq⟩ | hfit := hfit
      · have hwhole : r.pagesPerChunk host ≤ q := by
          rw [← Nat.not_lt, lt_pagesPerChunk_iff, hq, Nat.mul_comm]
          exact Nat.lt_irrefl _
        rw [hq, Nat.mul_div_cancel_left _ hps]
        omega
      · omega
    · rw [hn, List.pairwise_map]
      refine List.pairwise_lt_range.imp fun hij p q hp hq hregion => .inl ?_
      obtain rfl := Option.some.inj (Except.ok.inj hp)
      obtain rfl := Option.some.inj (Except.ok.inj hq)
      exact nthPage_apart hij hregion

theorem pages_sound_whole : ∃ r, create 0x10000 0x1000 0x4000 = .ok r ∧ PagesSound 9 r .willing :=
  ⟨_, rfl, (pages_sound_iff 9 rfl ⟨fun _ => rfl, by decide⟩).mpr (.inl ⟨5, rfl⟩)⟩

/-- A chunk of one page of 8 KiB, rounded to 12 KiB, from which two are taken. -/
theorem pages_overrun : ∃ r, create 0x10000 0x2000 0x2000 = .ok r ∧ ¬PagesSound 2 r .willing := by
  refine ⟨_, rfl, fun h => ?_⟩
  obtain ⟨p, hp, c, hc, -, -, hle⟩ := h.inside (.ok (some ⟨1, 0x2000⟩)) (.tail _ (.head _))
  obtain rfl := Option.some.inj (Except.ok.inj hp)
  obtain rfl := List.mem_singleton.mp hc
  exact absurd hle (by decide)

/-- The store that finds no memory throws, changes nothing a load can see, and
succeeds when it is repeated on a host that grants its calls again. -/
structure ReportsFailure (r : RAM) (host : Host) (w : Width) (a : RV64Ptr)
    (v : BitVec (8 * w.size)) : Prop where
  thrown : (r.store host w a v).1 = .error .badAlloc
  pagemap : (r.store host w a v).2.1.pagemap = r.pagemap
  contents : ∀ w' b, (r.store host w a v).2.1.load (r.store host w a v).2.2 w' b = r.load host w' b
  repeated : ∃ r' host', (r.store host w a v).2.1.store
      { (r.store host w a v).2.2 with refuses := fun _ => false } w a v = (.ok (), r', host') ∧
    r'.load host' w a = .ok v

/-- A failed `mmap` gives a chunk without pages. -/
theorem allocPage_refused (hfull : ∀ c ∈ r.chunks.head?, c.allocPage.1 = none)
    (hfailed : (host.mmap (Chunk.hostMmapSize r.chunkSize host.pageSize)).1 = some .mapFailed) :
    ∃ chunks host', r.allocPage host = (.ok none, { r with chunks := chunks }, host') := by
  have hempty : ∀ size pageSize,
      (⟨.mapFailed, .mapFailed, size, pageSize⟩ : Chunk).allocPage.1 = none := by
    intro size pageSize
    rw [Chunk.allocPage, if_neg fun h => h.1 rfl]
  rw [allocPage_full hfull hfailed, hempty]
  exact ⟨_, _, rfl⟩

theorem store_null (host : Host) {w : Width} {a : RV64Ptr} (hal : a.toNat % w.size = 0)
    (hnull : r.pagemap (r.getPageId a) = some none) (v : BitVec (8 * w.size)) :
    (r.store host w a v).1 = .error .nullDereference := by
  unfold store touchHostAddress touchPageAddress
  rw [validateAddressAlignment_ok hal, hnull]
  rfl

/-- Only a null pointer is taken for a failure: the page map keeps a null page
for good, and every store to it goes through the null pointer. -/
theorem store_refused {w : Width} {a : RV64Ptr} (hal : a.toNat % w.size = 0)
    (habsent : r.pagemap (r.getPageId a) = none)
    (hfull : ∀ c ∈ r.chunks.head?, c.allocPage.1 = none)
    (hfailed : (host.mmap (Chunk.hostMmapSize r.chunkSize host.pageSize)).1 = some .mapFailed)
    (v : BitVec (8 * w.size)) :
    ¬r.ReportsFailure host w a v ∧
      ∃ r' host', r.store host w a v = (.error .nullDereference, r', host') ∧
        r'.pagemap (r.getPageId a) = some none ∧
        ∀ h v', (r'.store h w a v').1 = .error .nullDereference := by
  obtain ⟨chunks, host', ha⟩ := allocPage_refused hfull hfailed
  have hstore : r.store host w a v = (.error .nullDereference,
      { r with
        chunks := chunks
        pagemap := Function.update r.pagemap (r.getPageId a) (some none) }, host') := by
    unfold store touchHostAddress touchPageAddress
    rw [validateAddressAlignment_ok hal, habsent, ha]
    rfl
  refine ⟨fun h => ?_, _, _, hstore, Function.update_self _ _ _, fun h v' => ?_⟩
  · have hthrown := h.thrown
    rw [hstore] at hthrown
    cases hthrown
  · exact store_null h hal (Function.update_self _ _ _) v'

theorem store_refused_first : ¬(default : RAM).ReportsFailure
    { Host.willing with refuses := fun _ => true } .byte 0 1 :=
  have hfull : ∀ c ∈ (default : RAM).chunks.head?, c.allocPage.1 = none :=
    fun c hc => absurd hc (Option.not_mem_none c)
  (store_refused rfl rfl hfull rfl 1).1

/-- A store to a page that is not there, on a host whose `mmap` fails, and the
same store again when it would not fail. -/
theorem failure_unreported : ∃ r' host', (default : RAM).store
    { Host.willing with refuses := fun _ => true } .byte 0 1 =
      (.error .nullDereference, r', host') ∧ r'.pagemap 0 = some none ∧
    (r'.store .willing .byte 0 1).1 = .error .nullDereference ∧
    ¬(default : RAM).ReportsFailure { Host.willing with refuses := fun _ => true } .byte 0 1 := by
  refine ⟨_, _, rfl, rfl, rfl, fun h => ?_⟩
  have hthrown := h.thrown
  cases hthrown

end Besm.Mem.RAM
