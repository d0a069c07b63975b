import Besm.Memory.Ram
import Besm.Util.Range

namespace Besm.Mem

open Besm.Lib Besm.Util

abbrev DeviceId := Nat

abbrev Mapping := Range RV64Ptr × DeviceId

/-- The mappings by ascending left border, which is all that their order compares. -/
abbrev PhysMemDeviceMap := List Mapping

/-- A mapping with the left border of an earlier one is ignored. -/
def PhysMemDeviceMap.insert (e : Mapping) : PhysMemDeviceMap → PhysMemDeviceMap
  | [] => [e]
  | d :: devices =>
    if e.1.leftBorder < d.1.leftBorder then e :: d :: devices
    else if d.1.leftBorder < e.1.leftBorder then d :: PhysMemDeviceMap.insert e devices
    else d :: devices

/-- The physical memory, with its devices and the host they take pages from. No
address lies in the range that `lastAccessedRange` starts with, so that the
device beside it does not matter. -/
structure PhysMem where
  devices : PhysMemDeviceMap
  rams : DeviceId → RAM
  lastAccessedRange : Range RV64Ptr
  lastAccessedDevice : DeviceId
  host : Host

namespace PhysMem

def findDevice (m : PhysMem) (address : RV64Ptr) : Except MemError Mapping × PhysMem :=
  if m.lastAccessedRange.contains address then
    (.ok (m.lastAccessedRange, m.lastAccessedDevice), m)
  else
    match m.devices.find? fun e => e.1.contains address with
    | some e => (.ok e, { m with lastAccessedRange := e.1, lastAccessedDevice := e.2 })
    | none => (.error (.invalidAddress "Device not found"), m)

def setRAM (m : PhysMem) (device : DeviceId) (ram : RAM) (host : Host) : PhysMem :=
  { m with rams := Function.update m.rams device ram, host := host }

def load (m : PhysMem) (w : Width) (address : RV64Ptr) :
    Except MemError (BitVec (8 * w.size)) × PhysMem :=
  match m.findDevice address with
  | (.error e, m) => (.error e, m)
  | (.ok (range, device), m) =>
    ((m.rams device).load m.host w (address - range.leftBorder), m)

def store (m : PhysMem) (w : Width) (address : RV64Ptr) (value : BitVec (8 * w.size)) :
    Except MemError Unit × PhysMem :=
  match m.findDevice address with
  | (.error e, m) => (.error e, m)
  | (.ok (range, device), m) =>
    let (result, ram, host) := (m.rams device).store m.host w (address - range.leftBorder) value
    (result, m.setRAM device ram host)

def getHostAddress (m : PhysMem) (address : RV64Ptr) :
    Except MemError (HostAddress × RV64Size) × PhysMem :=
  match m.findDevice address with
  | (.error e, m) => (.error e, m)
  | (.ok (range, device), m) =>
    (.ok ((m.rams device).getHostAddress (address - range.leftBorder)), m)

def touchHostAddress (m : PhysMem) (address : RV64Ptr) :
    Except MemError (HostAddress × RV64Size) × PhysMem :=
  match m.findDevice address with
  | (.error e, m) => (.error e, m)
  | (.ok (range, device), m) =>
    let (result, ram, host) := (m.rams device).touchHostAddress m.host (address - range.leftBorder)
    (result, m.setRAM device ram host)

def copy (m : PhysMem) (p : HostPtr) (n : Nat) (data : Nat → BitVec 8) : PhysMem :=
  { m with host := m.host.write p n data }

def storeContAreaLoop (address : RV64Ptr) (data : Nat → BitVec 8) (size : RV64Size) :
    Nat → Nat → PhysMem → Option (Except MemError Unit × PhysMem)
  | fuel, i, m =>
    if i < size.toNat then
      match fuel with
      | 0 => none
      | fuel + 1 =>
        match m.touchHostAddress (address + BitVec.ofNat 64 i) with
        | (.error e, m) => some (.error e, m)
        | (.ok (none, _), m) =>
          match m.store .byte (address + BitVec.ofNat 64 i) (data i) with
          | (.error e, m) => some (.error e, m)
          | (.ok (), m) => storeContAreaLoop address data size fuel (i + 1) m
        | (.ok (some p, hostSize), m) =>
          let cpySize := min (size.toNat - i) hostSize.toNat
          storeContAreaLoop address data size fuel (i + cpySize)
            (m.copy p cpySize fun j => data (i + j))
    else some (.ok (), m)

def storeContArea (m : PhysMem) (address : RV64Ptr) (data : Nat → BitVec 8) (size : RV64Size) :
    Option (Except MemError Unit × PhysMem) :=
  storeContAreaLoop address data size size.toNat 0 m

end PhysMem

structure MapRAM where
  address : RV64Ptr
  ramSize : RV64Size
  ramPageSize : RV64Size
  ramChunkSize : RV64Size

structure PhysMemBuilder where
  devices : PhysMemDeviceMap
  rams : List RAM

namespace PhysMemBuilder

def empty : PhysMemBuilder := ⟨[], []⟩

def mapDevice (b : PhysMemBuilder) (ram : RAM) (address : RV64Ptr) :
    Except BuildError PhysMemBuilder :=
  let range : Range RV64Ptr := ⟨address, address + ram.ramSize⟩
  if b.devices.any fun e => range.containsRange e.1 then
    .error (.mappingIntersection "Invalid mapping")
  else .ok ⟨PhysMemDeviceMap.insert (range, b.rams.length) b.devices, b.rams ++ [ram]⟩

def mapRAM (b : PhysMemBuilder) (c : MapRAM) : Except BuildError PhysMemBuilder :=
  match RAM.create c.ramSize c.ramPageSize c.ramChunkSize with
  | .error e => .error e
  | .ok ram => b.mapDevice ram c.address

/-- The calls one after the other, up to the first that throws. -/
def mapRAMs (b : PhysMemBuilder) : List MapRAM → Except BuildError PhysMemBuilder
  | [] => .ok b
  | c :: calls =>
    match b.mapRAM c with
    | .error e => .error e
    | .ok b => b.mapRAMs calls

def build (b : PhysMemBuilder) (host : Host) : PhysMem where
  devices := b.devices
  rams device := b.rams.getD device default
  lastAccessedRange := ⟨0, 0⟩
  lastAccessedDevice := 0
  host := host

end PhysMemBuilder

end Besm.Mem
