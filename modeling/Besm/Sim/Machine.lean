import Besm.Memory.Loader
import Besm.Sim.Stack

namespace Besm.Mem.PhysMemBuilder

variable {b : PhysMemBuilder} {calls : List MapRAM}

theorem mapRAM_ok {done : List MapRAM} {c : MapRAM} (hb : b.Mapped done)
    (hcreate : ∃ r, RAM.create c.ramSize c.ramPageSize c.ramChunkSize = .ok r)
    (hfits : ∀ d ∈ done, d.Fits) (hapart : Apart (done ++ [c])) : ∃ b', b.mapRAM c = .ok b' := by
  obtain ⟨r, hr⟩ := hcreate
  have hsize := (create_sizes hr).1
  unfold mapRAM
  rw [hr]
  dsimp only [mapDevice]
  rw [if_neg]
  · exact ⟨_, rfl⟩
  · rw [List.any_eq_true]
    rintro ⟨e, he, hin⟩
    obtain ⟨d, hd, hrange⟩ := hb.entry e he
    have hlt := (List.getElem?_eq_some_iff.mp hd).1
    obtain ⟨q, -, hq⟩ := hb.ram _ d hd
    have hcov := covers_address hq
    have hfit := hfits d (List.mem_of_getElem? hd)
    rw [hrange, hsize] at hin
    obtain ⟨hleft, hright⟩ := (Bool.and_eq_true _ _).mp hin
    have hl := BitVec.le_def.mp (of_decide_eq_true hleft)
    have hr' := BitVec.lt_def.mp (of_decide_eq_true hright)
    change c.address.toNat ≤ d.address.toNat at hl
    change (d.address + d.ramSize).toNat < (c.address + c.ramSize).toNat at hr'
    rw [BitVec.toNat_add, BitVec.toNat_add] at hr'
    unfold MapRAM.Fits at hfit
    have hcc : c.Covers d.address := by
      have hx := hcov.2
      refine ⟨hl, ?_⟩
      omega
    have hdone : (done ++ [c])[e.2]? = some d := by rw [List.getElem?_append_left hlt, hd]
    have hlast : (done ++ [c])[done.length]? = some c := by simp
    have heq := hapart _ _ _ _ hdone hlast d.address hcov hcc
    omega

theorem apart_of_append {done rest : List MapRAM} (h : Apart (done ++ rest)) : Apart done := by
  intro i j c d hc hd
  refine h i j c d ?_ ?_
  · rw [List.getElem?_append_left (List.getElem?_eq_some_iff.mp hc).1, hc]
  · rw [List.getElem?_append_left (List.getElem?_eq_some_iff.mp hd).1, hd]

theorem mapRAMs_ok {done : List MapRAM} (hb : b.Mapped done)
    (hcreate : ∀ c ∈ calls, ∃ r, RAM.create c.ramSize c.ramPageSize c.ramChunkSize = .ok r)
    (hfits : ∀ c ∈ done ++ calls, c.Fits) (hapart : Apart (done ++ calls)) :
    ∃ b', b.mapRAMs calls = .ok b' := by
  induction calls generalizing b done with
  | nil => exact ⟨b, rfl⟩
  | cons c calls ih =>
    have happend : done ++ c :: calls = (done ++ [c]) ++ calls := by simp
    rw [happend] at hfits hapart
    obtain ⟨b₁, hb₁⟩ := mapRAM_ok hb (hcreate c List.mem_cons_self)
      (fun d hd => hfits d (by simp [hd])) (apart_of_append hapart)
    unfold mapRAMs
    rw [hb₁]
    exact ih (hb.mapRAM hb₁) (fun d hd => hcreate d (List.mem_cons_of_mem _ hd)) hfits hapart

end Besm.Mem.PhysMemBuilder

namespace Besm.Sim

open Besm.Exec Besm.Mem Besm.Util Besm.Lib.Transition

structure ConfigData where
  executablePath : String
  ramRanges : List (Range RV64Ptr)
  ramPageSize : RV64Size
  ramChunkSize : RV64Size

inductive InvalidConfiguration
  | mk (message : String)
  deriving DecidableEq, Repr

structure Config where
  data : ConfigData

structure ConfigBuilder where
  data : ConfigData

namespace ConfigBuilder

/-- A new builder. No constructor sets the two sizes. -/
def create (ramPageSize ramChunkSize : RV64Size) : ConfigBuilder :=
  ⟨"", [], ramPageSize, ramChunkSize⟩

def setExecutablePath (b : ConfigBuilder) (path : String) : ConfigBuilder :=
  ⟨{ b.data with executablePath := path }⟩

def addRamRange (b : ConfigBuilder) (range : Range RV64Ptr) : ConfigBuilder :=
  ⟨{ b.data with ramRanges := b.data.ramRanges ++ [range] }⟩

def setRamPageSize (b : ConfigBuilder) (pageSize : RV64Size) : ConfigBuilder :=
  ⟨{ b.data with ramPageSize := pageSize }⟩

def setRamChunkSize (b : ConfigBuilder) (chunkSize : RV64Size) : ConfigBuilder :=
  ⟨{ b.data with ramChunkSize := chunkSize }⟩

def build (b : ConfigBuilder) : Except InvalidConfiguration Config :=
  if b.data.executablePath.isEmpty then .error (.mk "Invalid executable path")
  else .ok ⟨b.data⟩

end ConfigBuilder

inductive MachineError
  | build (e : BuildError)
  | load (e : LoadError)
  deriving DecidableEq, Repr

def Config.mapRAM (config : Config) (range : Range RV64Ptr) : MapRAM :=
  ⟨range.leftBorder, range.size, config.data.ramPageSize, config.data.ramChunkSize⟩

def Config.mapRAMs (config : Config) : List MapRAM := config.data.ramRanges.map config.mapRAM

/-- The constructor of the machine: its memory, the executable in it, and a new
hart on top. -/
def Machine.create (load : String → Option Elfio) (host : Host) (garbage : Register → RV64UDWord)
    (config : Config) : Option (Except MachineError (Hart Prefetcher)) :=
  match PhysMemBuilder.empty.mapRAMs config.mapRAMs with
  | .error e => some (.error (.build e))
  | .ok b =>
    match (b.build host).loadElf load config.data.executablePath with
    | none => none
    | some (.error e, _) => some (.error (.load e))
    | some (.ok (), pMem) => some (.ok (Hart.create garbage (Prefetcher.create ⟨pMem⟩)))

/-- Pages of a power of two of bytes, at least eight, of which the chunks that the
host maps hold a whole number; ranges of whole pages from multiples of eight on,
nonempty and apart from each other; and a host that grants memory. -/
structure Config.Sound (config : Config) (host : Host) : Prop where
  pageSize : is2Pow config.data.ramPageSize = true
  wide : 8 ≤ config.data.ramPageSize.toNat
  chunkSize : config.data.ramPageSize.toNat ≤ config.data.ramChunkSize.toNat
  refuses : ∀ n, host.refuses n = false
  mmapSize : 0 < (Chunk.hostMmapSize config.data.ramChunkSize host.pageSize).toNat
  wholeChunk : config.data.ramPageSize.toNat ∣
    (Chunk.hostMmapSize config.data.ramChunkSize host.pageSize).toNat
  nonempty : ∀ r ∈ config.data.ramRanges, r.leftBorder < r.rightBorder
  base : ∀ r ∈ config.data.ramRanges, 8 ∣ r.leftBorder.toNat
  wholePages : ∀ r ∈ config.data.ramRanges, config.data.ramPageSize.toNat ∣ r.size.toNat
  apart : config.data.ramRanges.Pairwise fun r r' =>
    r.rightBorder ≤ r'.leftBorder ∨ r'.rightBorder ≤ r.leftBorder

/-- The byte array that a machine starts with: the image of the executable, and
zeros in the rest of the ranges. -/
def Config.image (config : Config) (reader : Elfio) : MappedMemory where
  flat :=
    { mapped := fun x => config.data.ramRanges.any fun r => r.contains x
      bytes := Mem.overlay (reader.segments.filterMap ElfParser.loadable) fun _ => 0 }

namespace Config.Sound

open PhysMemBuilder

variable {config : Config} {host : Host} (hs : config.Sound host)
include hs

theorem size_toNat {r : Range RV64Ptr} (hr : r ∈ config.data.ramRanges) :
    r.size.toNat = r.rightBorder.toNat - r.leftBorder.toNat :=
  BitVec.toNat_sub_of_le (BitVec.le_def.mpr (Nat.le_of_lt (BitVec.lt_def.mp (hs.nonempty r hr))))

theorem range_mapRAM {r : Range RV64Ptr} (hr : r ∈ config.data.ramRanges) :
    (config.mapRAM r).range = r ∧ (config.mapRAM r).Fits := by
  have hlt := BitVec.lt_def.mp (hs.nonempty r hr)
  have hsub := hs.size_toNat hr
  have hright : r.leftBorder + r.size = r.rightBorder := by
    rw [BitVec.add_comm]
    exact BitVec.sub_add_cancel _ _
  refine ⟨congrArg (Range.mk r.leftBorder) hright, ?_⟩
  have hend := r.rightBorder.isLt
  change r.leftBorder.toNat + r.size.toNat < 2 ^ 64
  omega

theorem covers_iff {r : Range RV64Ptr} (hr : r ∈ config.data.ramRanges) (a : RV64Ptr) :
    (config.mapRAM r).Covers a ↔ r.contains a = true := by
  obtain ⟨hrange, hfits⟩ := hs.range_mapRAM hr
  rw [← and_iff_left (a := (config.mapRAM r).Covers a) hfits, ← MapRAM.contains_range_iff, hrange]

theorem pairwise_mapRAMs :
    config.mapRAMs.Pairwise fun c d => ∀ a, c.Covers a → ¬d.Covers a := by
  refine List.pairwise_map.mpr (hs.apart.imp_of_mem fun {r r'} hr hr' hapart a ha ha' => ?_)
  rw [hs.covers_iff hr, Range.contains_iff, BitVec.le_def, BitVec.lt_def] at ha
  rw [hs.covers_iff hr', Range.contains_iff, BitVec.le_def, BitVec.lt_def] at ha'
  rw [BitVec.le_def, BitVec.le_def] at hapart
  omega

theorem apart_mapRAMs : Apart config.mapRAMs := by
  have hlt : ∀ (i j : Nat) (c d : MapRAM), config.mapRAMs[i]? = some c →
      config.mapRAMs[j]? = some d → ∀ a, c.Covers a → d.Covers a → ¬i < j := by
    intro i j c d hc hd a ha hda hij
    obtain ⟨hi, rfl⟩ := List.getElem?_eq_some_iff.mp hc
    obtain ⟨hj, rfl⟩ := List.getElem?_eq_some_iff.mp hd
    exact List.pairwise_iff_getElem.mp hs.pairwise_mapRAMs i j hi hj hij a ha hda
  intro i j c d hc hd a ha hda
  exact Nat.le_antisymm (Nat.not_lt.mp (hlt j i d c hd hc a hda ha))
    (Nat.not_lt.mp (hlt i j c d hc hd a ha hda))

theorem create_ok {r : Range RV64Ptr} (hr : r ∈ config.data.ramRanges) :
    ∃ ram, RAM.create r.size config.data.ramPageSize config.data.ramChunkSize = .ok ram := by
  have hlt := BitVec.lt_def.mp (hs.nonempty r hr)
  have hwide := hs.wide
  have hle := hs.chunkSize
  rw [RAM.create, dif_pos, dif_neg]
  · exact ⟨_, rfl⟩
  · intro h0
    have hsub := hs.size_toNat hr
    rw [h0] at hsub
    change 0 = _ at hsub
    omega
  · refine ⟨fun h0 => ?_, fun h0 => ?_, hs.pageSize, fun h0 => ?_⟩
    · rw [h0] at hle
      change _ ≤ 0 at hle
      omega
    · rw [h0] at hwide
      change 8 ≤ 0 at hwide
      omega
    · have hdiv := congrArg BitVec.toNat h0
      rw [BitVec.toNat_udiv] at hdiv
      have hpos := Nat.div_pos hle (by omega : 0 < config.data.ramPageSize.toNat)
      change _ = 0 at hdiv
      omega

theorem grants : host.Grants config.mapRAMs :=
  ⟨hs.refuses, List.forall_mem_map.mpr fun _ _ => hs.mmapSize⟩

theorem mapRAMs_ok : ∃ b, empty.mapRAMs config.mapRAMs = .ok b :=
  PhysMemBuilder.mapRAMs_ok mapped_empty (List.forall_mem_map.mpr fun _ hr => hs.create_ok hr)
    (List.forall_mem_map.mpr fun _ hr => (hs.range_mapRAM hr).2) hs.apart_mapRAMs

variable {b : PhysMemBuilder} (hb : empty.mapRAMs config.mapRAMs = .ok b)
include hb

theorem regular_build : (b.build host).Regular :=
  PhysMem.regular_of_reach hb hs.grants
    (disjoint_build host (mapped_of_empty hb) hs.apart_mapRAMs)
    (List.forall_mem_map.mpr fun _ _ => hs.wide)
    (List.forall_mem_map.mpr fun _ _ => .inl hs.wholeChunk) (.init rfl)

theorem laidOut_build : (b.build host).LaidOut := by
  refine PhysMem.laidOut_build (mapped_of_empty hb) host
    (List.forall_mem_map.mpr hs.base) (List.forall_mem_map.mpr fun r hr => ?_)
    (List.forall_mem_map.mpr hs.wholePages)
  obtain ⟨ram, hram⟩ := hs.create_ok hr
  have hpage : ram.pageSize = config.data.ramPageSize := (create_sizes hram).2.1
  change 8 ∣ config.data.ramPageSize.toNat
  rw [← hpage]
  exact RAM.size_dvd_pageSize (w := .dWord) (hpage ▸ hs.wide)

theorem wholePages_build : (b.build host).WholePages := by
  intro e he _
  obtain ⟨c, hc, -, hsize, hpages, -⟩ := PhysMem.rams_build (mapped_of_empty hb) host he
  obtain ⟨r, hr, rfl⟩ := List.mem_map.mp hc
  rw [hsize, hpages]
  exact hs.wholePages r hr

theorem contains_iff (x : RV64Ptr) : (∃ e ∈ (b.build host).devices, e.1.contains x = true) ↔
    ∃ r ∈ config.data.ramRanges, r.contains x = true := by
  constructor
  · rintro ⟨e, he, hx⟩
    obtain ⟨c, hc, hrange⟩ := (mapped_of_empty hb).entry e he
    obtain ⟨r, hr, rfl⟩ := List.mem_map.mp (List.mem_of_getElem? hc)
    rw [hrange, (hs.range_mapRAM hr).1] at hx
    exact ⟨r, hr, hx⟩
  · rintro ⟨r, hr, hx⟩
    obtain ⟨i, hi⟩ := List.mem_iff_getElem?.mp (List.mem_map.mpr ⟨r, hr, rfl⟩)
    refine ⟨_, mem_devices mapped_empty hs.apart_mapRAMs (fun i c hc => absurd hc (by simp)) hb
      i _ hi, ?_⟩
    rw [(hs.range_mapRAM hr).1]
    exact hx

theorem flat_build : (b.build host).flat =
    ⟨⟨fun x => config.data.ramRanges.any fun r => r.contains x, fun _ => 0⟩⟩ := by
  have hzero : ∀ x, (b.build host).flat.flat.bytes x = 0 := by
    intro x
    cases hf : (b.build host).devices.find? fun e => e.1.contains x with
    | none => simp only [PhysMem.flat, hf]
    | some e =>
      obtain ⟨-, -, -, -, -, -, -, hpages⟩ :=
        PhysMem.rams_build (mapped_of_empty hb) host (List.mem_of_find?_eq_some hf)
      simp only [PhysMem.flat, hf]
      exact RAM.byteAt_absent (congrFun hpages _)
  have hmapped : ∀ x, (b.build host).flat.flat.mapped x =
      config.data.ramRanges.any fun r => r.contains x := by
    intro x
    refine Bool.eq_iff_iff.mpr ?_
    rw [List.any_eq_true, ← hs.contains_iff hb]
    exact List.any_eq_true
  exact congrArg MappedMemory.mk (FlatMemory.mk.injEq .. ▸ ⟨funext hmapped, funext hzero⟩)

end Config.Sound

/-- The executable is one that the parser takes, and the bytes of its loadable
segments lie in the ranges. -/
structure Config.Runnable (config : Config) (load : String → Option Elfio) (reader : Elfio) :
    Prop where
  load : load config.data.executablePath = some reader
  suits : ElfParser.Suits reader
  mapped : ∀ s ∈ reader.segments.filterMap ElfParser.loadable, ∀ x, covers s x →
    ∃ r ∈ config.data.ramRanges, r.contains x = true

theorem Config.Sound.loadable_iff {config : Config} {host : Host} (hs : config.Sound host)
    {b : PhysMemBuilder} (hb : PhysMemBuilder.empty.mapRAMs config.mapRAMs = .ok b)
    (load : String → Option Elfio) (reader : Elfio) :
    (b.build host).Loadable load config.data.executablePath reader ↔
      config.Runnable load reader := by
  constructor
  · rintro ⟨hload, hsuits, hmapped⟩
    exact ⟨hload, hsuits, fun s hin x hx => (hs.contains_iff hb x).mp (hmapped s hin x hx)⟩
  · rintro ⟨hload, hsuits, hmapped⟩
    exact ⟨hload, hsuits, fun s hin x hx => (hs.contains_iff hb x).mpr (hmapped s hin x hx)⟩

namespace Machine

variable {config : Config} {host : Host}

/-- With a sound configuration a machine is constructed exactly if the executable
can be run, and then its memory shows the image and nothing else. -/
theorem create_spec (hs : config.Sound host) (load : String → Option Elfio) :
    (∃ reader m, config.Runnable load reader ∧
      (∀ garbage, create load host garbage config =
        some (.ok (Hart.create garbage (Prefetcher.create ⟨m⟩)))) ∧
      m.Regular ∧ m.LaidOut ∧ m.flat = config.image reader) ∨
    ((∀ reader, ¬config.Runnable load reader) ∧
      ∃ e, (∀ garbage, create load host garbage config = some (.error (.load e))) ∧
        ((∃ e', e = .elf e') ∨ e = .memory (.invalidAddress "Device not found"))) := by
  obtain ⟨b, hb⟩ := hs.mapRAMs_ok
  unfold create
  rw [hb]
  dsimp only
  obtain ⟨reader, m, hl, hload, hev, hr, hflat⟩ | ⟨hno, e, m, hload, he⟩ :=
    PhysMem.loadElf_spec (hs.regular_build hb) (hs.wholePages_build hb) load
      config.data.executablePath
  · rw [hload]
    refine .inl ⟨reader, m, (hs.loadable_iff hb load reader).mp hl, fun _ => rfl, hr,
      hev.laidOut (hs.laidOut_build hb), ?_⟩
    rw [hflat, hs.flat_build hb]
    rfl
  · rw [hload]
    exact .inr ⟨fun reader hrun => hno reader ((hs.loadable_iff hb load reader).mpr hrun), e,
      fun _ => rfl, he⟩

variable {load : String → Option Elfio} {reader : Elfio}

theorem create_of_runnable (hs : config.Sound host) (hr : config.Runnable load reader) : ∃ m,
    (∀ garbage, create load host garbage config =
      some (.ok (Hart.create garbage (Prefetcher.create ⟨m⟩)))) ∧
    m.Regular ∧ m.LaidOut ∧ m.flat = config.image reader := by
  obtain ⟨reader', m, hr', hrest⟩ | ⟨hno, -⟩ := create_spec hs load
  · obtain rfl := Option.some.inj (hr.load.symm.trans hr'.load)
    exact ⟨m, hrest⟩
  · exact absurd hr (hno reader)

def usual (path : String) : Config := ⟨⟨path, [⟨0, 0x40000000⟩], 0x1000, 0x200000⟩⟩

theorem sound_usual (path : String) : (usual path).Sound .willing where
  pageSize := (by decide : is2Pow (0x1000 : RV64Size) = true)
  wide := (by decide : 8 ≤ (0x1000 : RV64Size).toNat)
  chunkSize := (by decide : (0x1000 : RV64Size).toNat ≤ (0x200000 : RV64Size).toNat)
  refuses _ := rfl
  mmapSize := (by decide +kernel : 0 < (Chunk.hostMmapSize 0x200000 4096).toNat)
  wholeChunk := (by decide +kernel :
    (0x1000 : RV64Size).toNat ∣ (Chunk.hostMmapSize 0x200000 4096).toNat)
  nonempty := List.forall_mem_singleton.mpr (by decide)
  base := List.forall_mem_singleton.mpr (by decide)
  wholePages := List.forall_mem_singleton.mpr (by decide : 0x1000 ∣ 0x40000000)
  apart := List.pairwise_singleton _ _

/-- A file of one segment at address 0, of the given words. -/
def wordsFile (words : List RV64UWord) : Elfio where
  fileClass := 2
  encoding := 1
  machine := 243
  segments := [⟨1, 0, fun i => Lib.LittleEndian.byte (n := 4) (words.getD (i / 4) 0) (i % 4),
    BitVec.ofNat 64 (4 * words.length)⟩]

theorem runnable_words (path : String) {words : List RV64UWord} (h : words.length < 0x10000000) :
    (usual path).Runnable (fun _ => some (wordsFile words)) (wordsFile words) := by
  refine ⟨rfl, ⟨rfl, rfl, rfl⟩, fun s hs x hx => ⟨⟨0, 0x40000000⟩, List.mem_singleton.mpr rfl, ?_⟩⟩
  obtain rfl := List.mem_singleton.mp hs
  have hlt : (x - 0#64).toNat < (BitVec.ofNat 64 (4 * words.length)).toNat := hx
  rw [BitVec.sub_zero, BitVec.toNat_ofNat] at hlt
  refine Range.contains_iff.mpr ⟨BitVec.le_def.mpr (Nat.zero_le _), BitVec.lt_def.mpr ?_⟩
  change x.toNat < 0x40000000
  omega

def addiFile : Elfio := wordsFile [0x00500093]

theorem runnable_addi (path : String) : (usual path).Runnable (fun _ => some addiFile) addiFile :=
  runnable_words path (by decide)

theorem create_spec_addi : ∃ m,
    create (fun _ => some addiFile) .willing (fun _ => 0) (usual "addi") =
      some (.ok (Hart.create (fun _ => 0) (Prefetcher.create ⟨m⟩))) ∧
    m.flat.load .word 0 = .ok (0x00500093 : RV64UWord) := by
  obtain ⟨reader, m, hr, hcreate, -, -, hflat⟩ | ⟨hno, -⟩ :=
    create_spec (sound_usual "addi") fun _ => some addiFile
  · obtain rfl : addiFile = reader := Option.some.inj hr.load
    refine ⟨m, hcreate _, ?_⟩
    rw [hflat]
    decide +kernel
  · exact absurd (runnable_addi "addi") (hno addiFile)

/-- The machine that is constructed runs the executable: what its hart does is
what the plain interpreter does on the image, and what that does in code that it
does not write, the hart does. -/
theorem runs_executable (hs : config.Sound host) (hr : config.Runnable load reader)
    (garbage : Register → RV64UDWord) :
    ∃ h, create load host garbage config = some (.ok h) ∧
      (∀ h₁ ls h', h.run = .running h₁ → Run (Hart.StepAt instrAddresses) h₁ ls h' →
        ∃ s, Run Interpreter.Step (Hart.create garbage (config.image reader)).toArch ls s ∧
          s.view = h'.view) ∧
      (∀ C ⊆ instrAddresses, InCode C (Memory.contents (config.image reader)) 0 →
        ∀ ls s, Run (Interpreter.StepIn C (Memory.contents (config.image reader)))
          (Hart.create garbage (config.image reader)).toArch ls s →
        ∃ h₁ h', h.run = .running h₁ ∧ Run (Hart.StepAt C) h₁ ls h' ∧ h'.view = s.view) := by
  obtain ⟨m, hcreate, hregular, hlaid, hflat⟩ := create_of_runnable hs hr
  rw [← hflat]
  refine ⟨_, hcreate garbage, fun h₁ ls h' hrun hsteps => ?_, fun C hC hstart ls s hrun => ?_⟩
  · exact stack_refines_interpreter hregular hlaid hrun hsteps
  · exact stack_matches_interpreter hregular hlaid hC hstart hrun

theorem readable_usual (path : String) (reader : Elfio) {a : RV64Ptr} (hal : a.toNat % 4 = 0)
    (hlt : a.toNat < 0x40000000) :
    ∃ word, Memory.contents ((usual path).image reader) .word a = .ok word := by
  have hmapped : ∀ x : RV64Ptr, x.toNat < 0x40000000 →
      ((usual path).image reader).flat.mapped x = true := fun x hx =>
    List.any_eq_true.mpr ⟨_, List.mem_singleton.mpr rfl,
      Range.contains_iff.mpr ⟨BitVec.le_def.mpr (Nat.zero_le _), BitVec.lt_def.mpr hx⟩⟩
  have hr : ((usual path).image reader).flat.refuses .word a = none := by
    refine FlatMemory.refuses_eq_none.mpr ⟨hal, fun i hi => hmapped _ ?_⟩
    have hi' : i < 4 := hi
    rw [BitVec.toNat_add, BitVec.toNat_ofNat]
    omega
  refine ⟨((usual path).image reader).flat.read .word a, ?_⟩
  change MappedMemory.load _ _ _ = _
  rw [MappedMemory.load, if_pos (hmapped a hlt), FlatMemory.load, hr]

def lowerHalf : Set RV64Ptr := {a | a.toNat % 4 = 0 ∧ a.toNat < 0x20000000}

theorem lowerHalf_subset : lowerHalf ⊆ instrAddresses := fun _ h => h.1

theorem inCode_usual (path : String) (reader : Elfio) {pc : RV64Ptr} (hal : pc.toNat % 4 = 0)
    (hlt : pc.toNat < 0x10000000) :
    InCode lowerHalf (Memory.contents ((usual path).image reader)) pc := by
  intro k hk
  have hcap : k < 0x1000 := Nat.lt_of_lt_of_le hk.1 (by decide)
  have hnat : (pc + BitVec.ofNat 64 (4 * k)).toNat = pc.toNat + 4 * k := by
    rw [BitVec.toNat_add, BitVec.toNat_ofNat]
    omega
  have hal' : (pc + BitVec.ofNat 64 (4 * k)).toNat % 4 = 0 := by
    rw [hnat]
    omega
  exact ⟨⟨hal', by rw [hnat]; omega⟩, readable_usual path reader hal' (by rw [hnat]; omega)⟩

theorem apart_lowerHalf {b : RV64Ptr} {n : Nat} (hlow : 0x20000000 ≤ b.toNat)
    (hhigh : b.toNat + n ≤ 2 ^ 64) {a : RV64Ptr} (ha : a ∈ lowerHalf) : Memory.Apart b n a 4 := by
  intro i hi j hj heq
  have hnat := congrArg BitVec.toNat heq
  rw [BitVec.toNat_add, BitVec.toNat_add, BitVec.toNat_ofNat, BitVec.toNat_ofNat] at hnat
  have := ha.1
  have := ha.2
  omega

/-- A loop, of which each turn loads what the turn before has stored, adds five and
stores the sum. -/
def sumWords : List RV64UWord :=
  [0x00300093, 0x00100113, 0x01D11113, 0x00120213, 0x00013183, 0x00518193, 0x00313023, 0xFE1218E3]

def sumImage : MappedMemory := (usual "sum").image (wordsFile sumWords)

theorem runnable_sum : (usual "sum").Runnable (fun _ => some (wordsFile sumWords))
    (wordsFile sumWords) :=
  runnable_words "sum" (by decide)

theorem interprets_sum : ∃ ls s,
    Run (Interpreter.StepIn lowerHalf (Memory.contents sumImage))
      (Hart.create (fun _ => 0) sumImage).toArch ls s ∧
    ls.length = 18 ∧ s.view.gprf.read 3 = 15 ∧
    s.view.contents .dWord 0x20000000 = .ok (15 : RV64UDWord) ∧
    ∀ l ∈ ls, (l.after.contents .word l.pc).toOption.map Dec.parse = some l.instr := by
  have hends : (iterate Interpreter.advance 18 (Hart.create (fun _ => 0) sumImage).toArch).map
      (fun p => (p.1.length, p.2.read 3,
        decide (Memory.contents p.2.mem .dWord 0x20000000 = .ok (15 : RV64UDWord)),
        p.1.all fun l => l.pc.toNat % 4 = 0 && l.pc.toNat < 0x10000000 &&
          decide ((l.after.contents .word l.pc).toOption.map Dec.parse = some l.instr) &&
          (storeWidth l.instr.operation).all fun w =>
            0x20000000 ≤ (l.after.gprf.read l.instr.rs1 + signExtend 12 l.instr.immidiate).toNat &&
            (l.after.gprf.read l.instr.rs1 + signExtend 12 l.instr.immidiate).toNat + w.size ≤
              2 ^ 64)) =
      some (18, 15, true, true) := by
    decide +kernel
  obtain ⟨⟨ls, s⟩, hit, hend⟩ := Option.map_eq_some_iff.mp hends
  obtain ⟨hlen, h3, hmem, hall⟩ := by
    simpa only [Prod.mk.injEq, decide_eq_true_eq, List.all_eq_true, Bool.and_eq_true,
      Option.all_eq_true] using hend
  refine ⟨ls, s, Interpreter.runs_of_iterate hit fun l hl => ?_, hlen, h3, hmem,
    fun l hl => (hall l hl).1.2⟩
  obtain ⟨⟨⟨hal, hlt⟩, -⟩, hstores⟩ := hall l hl
  refine ⟨inCode_usual _ _ hal hlt, fun w hw a ha => ?_⟩
  exact apart_lowerHalf (hstores w hw).1 (hstores w hw).2 ha

theorem runs_executable_sum : ∃ h h₁ h' : Hart Prefetcher, ∃ ls,
    create (fun _ => some (wordsFile sumWords)) .willing (fun _ => 0) (usual "sum") =
      some (.ok h) ∧
    h.run = .running h₁ ∧ Run (Hart.StepAt lowerHalf) h₁ ls h' ∧ ls.length = 18 ∧
    h'.view.gprf.read 3 = 15 ∧ h'.view.contents .dWord 0x20000000 = .ok (15 : RV64UDWord) := by
  obtain ⟨ls, s, hrun, hlen, h3, hmem, -⟩ := interprets_sum
  obtain ⟨h, hcreate, -, hmatches⟩ :=
    runs_executable (sound_usual "sum") runnable_sum (fun _ => 0)
  obtain ⟨h₁, h', hr, hsteps, hv⟩ :=
    hmatches _ lowerHalf_subset (inCode_usual "sum" _ rfl (by decide)) ls s hrun
  exact ⟨h, h₁, h', ls, hcreate, hr, hsteps, hlen, hv ▸ h3, hv ▸ hmem⟩

/-- What a hart on the image does, the machine does. -/
theorem runs_image (hs : config.Sound host) (hr : config.Runnable load reader)
    {garbage : Register → RV64UDWord} {m : PhysMem}
    (hcreate : create load host garbage config =
      some (.ok (Hart.create garbage (Prefetcher.create ⟨m⟩))))
    {ks : List (Call MappedMemory)} {p : Outcome MappedMemory}
    (hrun : Run Calls (.returned (Hart.create garbage (config.image reader))) ks p)
    (hword : ∀ k ∈ ks, k.OnWord) :
    ∃ ls o, Run Calls (.returned (Hart.create garbage (Prefetcher.create ⟨m⟩))) ls o ∧
      (∀ l ∈ ls, l.OnWord) ∧ List.Forall₂ (Call.Alike SameContents) ks ls ∧
      p.Alike SameContents o := by
  obtain ⟨m', hcreate', hregular, hlaid, hflat⟩ := create_of_runnable hs hr
  have hm := Except.ok.inj (Option.some.inj (hcreate.symm.trans (hcreate' garbage)))
  obtain rfl : m = m' := congrArg (fun h : Hart Prefetcher => h.mem.mmu.pMem) hm
  rw [← hflat] at hrun
  obtain ⟨ls, o, hrun', hls, ho⟩ := Hart.created_alike (Prefetcher.alike hregular hlaid).swap garbage
    (Prefetcher.shows_create hregular (PhysMem.shows_flat hregular.disjoint)) hrun hword
  exact ⟨ls, o, hrun', Call.Alike.onWord hls hword, hls, ho⟩

/-- How the RAM is divided into ranges, pages and chunks makes no difference to
the executable, as long as the same addresses are mapped. -/
theorem configuration_unobservable {config' : Config} {host' : Host} (hs : config.Sound host)
    (hs' : config'.Sound host') (hpath : config'.data.executablePath = config.data.executablePath)
    (hcover : ∀ x, (∃ r ∈ config.data.ramRanges, r.contains x = true) ↔
      ∃ r ∈ config'.data.ramRanges, r.contains x = true)
    (hr : config.Runnable load reader) (garbage : Register → RV64UDWord) :
    ∃ m m', create load host garbage config =
        some (.ok (Hart.create garbage (Prefetcher.create ⟨m⟩))) ∧
      create load host' garbage config' =
        some (.ok (Hart.create garbage (Prefetcher.create ⟨m'⟩))) ∧
      ∀ ls o, Run Calls (.returned (Hart.create garbage (Prefetcher.create ⟨m⟩))) ls o →
        (∀ l ∈ ls, l.OnWord) →
        ∃ ks p, Run Calls (.returned (Hart.create garbage (Prefetcher.create ⟨m'⟩))) ks p ∧
          List.Forall₂ (Call.Alike SameContents) ls ks ∧ o.Alike SameContents p := by
  have hr' : config'.Runnable load reader :=
    ⟨hpath ▸ hr.load, hr.suits, fun s hs x hx => (hcover x).mp (hr.mapped s hs x hx)⟩
  obtain ⟨m, hcreate, hregular, hlaid, hflat⟩ := create_of_runnable hs hr
  obtain ⟨m', hcreate', hregular', hlaid', hflat'⟩ := create_of_runnable hs' hr'
  have himage : config.image reader = config'.image reader := by
    have hmapped : ∀ x, (config.image reader).flat.mapped x = (config'.image reader).flat.mapped x :=
      fun x => Bool.eq_iff_iff.mpr (List.any_eq_true.trans ((hcover x).trans List.any_eq_true.symm))
    exact congrArg MappedMemory.mk (FlatMemory.mk.injEq .. ▸ ⟨funext hmapped, rfl⟩)
  refine ⟨_, _, hcreate garbage, hcreate' garbage, fun ls o hrun hword => ?_⟩
  refine Hart.layout_unobservable hregular hlaid hregular' hlaid' ?_ garbage hrun hword
  rw [hflat, hflat', himage]

/-- The addresses of `usual` in two ranges, with smaller pages and chunks. -/
def halves (path : String) : Config :=
  ⟨⟨path, [⟨0x20000000, 0x40000000⟩, ⟨0, 0x20000000⟩], 8, 0x1000⟩⟩

theorem sound_halves (path : String) : (halves path).Sound .willing where
  pageSize := (by decide : is2Pow (8 : RV64Size) = true)
  wide := (by decide : 8 ≤ (8 : RV64Size).toNat)
  chunkSize := (by decide : (8 : RV64Size).toNat ≤ (0x1000 : RV64Size).toNat)
  refuses _ := rfl
  mmapSize := (by decide +kernel : 0 < (Chunk.hostMmapSize 0x1000 4096).toNat)
  wholeChunk := (by decide +kernel :
    (8 : RV64Size).toNat ∣ (Chunk.hostMmapSize 0x1000 4096).toNat)
  nonempty := List.forall_mem_cons.mpr ⟨by decide, List.forall_mem_singleton.mpr (by decide)⟩
  base := List.forall_mem_cons.mpr ⟨by decide, List.forall_mem_singleton.mpr (by decide)⟩
  wholePages := List.forall_mem_cons.mpr
    ⟨(by decide : 8 ∣ 0x20000000), List.forall_mem_singleton.mpr (by decide : 8 ∣ 0x20000000)⟩
  apart := List.pairwise_pair.mpr (by decide)

theorem configuration_unobservable_halves : ∃ h h' : Hart Prefetcher, ∃ ks t,
    create (fun _ => some (wordsFile sumWords)) .willing (fun _ => 0) (usual "sum") =
      some (.ok h) ∧
    create (fun _ => some (wordsFile sumWords)) .willing (fun _ => 0) (halves "sum") =
      some (.ok h') ∧
    Run Calls (.returned h') ks (.running t) ∧ t.read 3 = 15 := by
  have hcover : ∀ x, (∃ r ∈ (usual "sum").data.ramRanges, r.contains x = true) ↔
      ∃ r ∈ (halves "sum").data.ramRanges, r.contains x = true := by
    intro x
    have h0 : (0 : RV64Ptr).toNat = 0 := rfl
    have hmid : (0x20000000 : RV64Ptr).toNat = 0x20000000 := rfl
    have hend : (0x40000000 : RV64Ptr).toNat = 0x40000000 := rfl
    simp only [usual, halves, List.mem_cons, List.not_mem_nil, or_false, exists_eq_left,
      exists_eq_or_imp, Range.contains_iff, BitVec.le_def, BitVec.lt_def, h0, hmid, hend]
    omega
  let k₀ := Hart.create (fun _ => 0) sumImage
  have hsome : (k₀.runFor 21).isSome = true := by decide +kernel
  obtain ⟨k, hk⟩ := Option.isSome_iff_exists.mp hsome
  have h15 : k.read 3 = 15 := Hart.of_runFor (f := fun k => k.read 3) hk (by decide +kernel)
  have hword : ∀ c ∈ k₀.callsFor 21, c.before.pc.toNat % 4 = 0 := by decide +kernel
  obtain ⟨m, m', hcreate, hcreate', hall⟩ := configuration_unobservable (sound_usual "sum")
    (sound_halves "sum") rfl hcover runnable_sum (fun _ => 0)
  obtain ⟨ls, o, hrun, honword, -, ho⟩ :=
    runs_image (sound_usual "sum") runnable_sum hcreate (Hart.runs_callsFor hk) hword
  obtain ⟨ks, p, hrun', -, hp⟩ := hall ls o hrun honword
  cases ho with
  | running ha =>
    cases hp with
    | @running _ t hb =>
      refine ⟨_, _, ks, t, hcreate, hcreate', hrun', ?_⟩
      rw [Arch.read, ← hb.gprf, ← ha.gprf]
      exact h15

end Machine

end Besm.Sim
