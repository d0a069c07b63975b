import Besm.Memory.Host
import Besm.Memory.Interface
import Besm.Util.Math

namespace Besm.Mem

open Besm.Lib Besm.Util

/-- The part of a chunk beyond `rower` has not been handed out yet. -/
structure Chunk where
  data : HostPtr
  rower : HostPtr
  size : RV64Size
  pageSize : RV64Size

namespace Chunk

def hostMmapSize (chunkSize hostPageSize : RV64Size) : RV64Size :=
  nearest2PowDivident chunkSize hostPageSize

/-- The assertions of the constructor are those of the allocator that calls it. -/
def create (pageSize chunkSize : RV64Size) (host : Host) : Except MemError Chunk × Host :=
  let size := hostMmapSize chunkSize host.pageSize
  match host.mmap size with
  | (none, host) => (.error .badAlloc, host)
  | (some data, host) => (.ok ⟨data, data, size, pageSize⟩, host)

/-- No address is above that of a failed `mmap`, so that its chunk has no pages. -/
def allocPage (c : Chunk) : HostAddress × Chunk :=
  if c.data ≠ .mapFailed ∧ c.rower.offset < c.data.offset + c.size.toNat then
    (some c.rower, { c with rower := c.rower.add c.pageSize.toNat })
  else (none, c)

end Chunk

structure RAMSizes where
  ramSize : RV64Size
  pageSize : RV64Size
  chunkSize : RV64Size
  ramSize_ne_zero : ramSize ≠ 0
  pageSize_ne_zero : pageSize ≠ 0
  pageSize_pow2 : is2Pow pageSize = true
  chunk_ne_zero : chunkSize / pageSize ≠ 0

abbrev PageId := RV64Size

/-- A device of lazily allocated pages. The allocator's chunks are listed with
the newest first; only that one still hands out pages. -/
structure RAM extends RAMSizes where
  chunks : List Chunk
  pagemap : PageId → Option HostAddress

inductive BuildError
  | assertionFailed
  | invalidArgument (message : String)
  | mappingIntersection (message : String)
  deriving DecidableEq, Repr

namespace RAM

/-- The allocator is constructed before the sizes are checked, so that its
assertions come first. -/
def create (ramSize pageSize chunkSize : RV64Size) : Except BuildError RAM :=
  if h : chunkSize ≠ 0 ∧ pageSize ≠ 0 ∧ is2Pow pageSize = true ∧ chunkSize / pageSize ≠ 0 then
    if hsize : ramSize = 0 then .error (.invalidArgument "Invalid RAM size")
    else .ok
      { ramSize := ramSize
        pageSize := pageSize
        chunkSize := chunkSize
        ramSize_ne_zero := hsize
        pageSize_ne_zero := h.2.1
        pageSize_pow2 := h.2.2.1
        chunk_ne_zero := h.2.2.2
        chunks := []
        pagemap := fun _ => none }
  else .error .assertionFailed

instance : Inhabited RAM where
  default :=
    { ramSize := 1
      pageSize := 1
      chunkSize := 1
      ramSize_ne_zero := by decide
      pageSize_ne_zero := by decide
      pageSize_pow2 := by decide
      chunk_ne_zero := by decide
      chunks := []
      pagemap := fun _ => none }

def getPageId (r : RAM) (address : RV64Ptr) : PageId := address / r.pageSize

def getPageOffset (r : RAM) (address : RV64Ptr) : RV64Size := address % r.pageSize

def getPageAddress (r : RAM) (address : RV64Ptr) : HostAddress :=
  (r.pagemap (r.getPageId address)).getD none

def allocPage (r : RAM) (host : Host) : Except MemError HostAddress × RAM × Host :=
  let (page, chunks) := match r.chunks with
    | [] => (none, [])
    | c :: chunks => (c.allocPage.1, c.allocPage.2 :: chunks)
  match page with
  | some p => (.ok (some p), { r with chunks := chunks }, host)
  | none =>
    match Chunk.create r.pageSize r.chunkSize host with
    | (.error e, host) => (.error e, { r with chunks := chunks }, host)
    | (.ok c, host) =>
      (.ok c.allocPage.1, { r with chunks := c.allocPage.2 :: chunks }, host)

def touchPageAddress (r : RAM) (host : Host) (address : RV64Ptr) :
    Except MemError HostAddress × RAM × Host :=
  match r.pagemap (r.getPageId address) with
  | some mem => (.ok mem, r, host)
  | none =>
    match r.allocPage host with
    | (.error e, r, host) => (.error e, r, host)
    | (.ok mem, r, host) =>
      (.ok mem,
        { r with pagemap := Function.update r.pagemap (r.getPageId address) (some mem) }, host)

/-- The host address of a byte, with the number of bytes up to its page's end. -/
def getHostAddress (r : RAM) (address : RV64Ptr) : HostAddress × RV64Size :=
  match r.getPageAddress address with
  | none => (none, 0)
  | some p => (some (p.add (r.getPageOffset address).toNat), r.pageSize - r.getPageOffset address)

def touchHostAddress (r : RAM) (host : Host) (address : RV64Ptr) :
    Except MemError (HostAddress × RV64Size) × RAM × Host :=
  match r.touchPageAddress host address with
  | (.error e, r, host) => (.error e, r, host)
  | (.ok mem, r, host) =>
    (.ok (mem.map fun p => p.add (r.getPageOffset address).toNat,
      r.pageSize - r.getPageOffset address), r, host)

/-- A check that no access makes. -/
def validateAddressBounds (r : RAM) (address : RV64Ptr) : Except MemError Unit :=
  if address ≥ r.ramSize then .error (.invalidAddress "RAM out of bounds") else .ok ()

def validateAddressAlignment (w : Width) (address : RV64Ptr) : Except MemError Unit :=
  if address.toNat % w.size ≠ 0 then .error (.unalignedAddress "RAM unaligned access") else .ok ()

def load (r : RAM) (host : Host) (w : Width) (address : RV64Ptr) :
    Except MemError (BitVec (8 * w.size)) :=
  match validateAddressAlignment w address with
  | .error e => .error e
  | .ok () =>
    match (r.getHostAddress address).1 with
    | none => .ok 0
    | some p => .ok (host.read w p)

def store (r : RAM) (host : Host) (w : Width) (address : RV64Ptr) (value : BitVec (8 * w.size)) :
    Except MemError Unit × RAM × Host :=
  match validateAddressAlignment w address with
  | .error e => (.error e, r, host)
  | .ok () =>
    match r.touchHostAddress host address with
    | (.error e, r, host) => (.error e, r, host)
    | (.ok (none, _), r, host) => (.error .nullDereference, r, host)
    | (.ok (some p, _), r, host) => (.ok (), r, host.write p w.size (LittleEndian.byte value))

end RAM

end Besm.Mem
