import Besm.RiscvTypes
import Besm.Util.BitMagic

namespace Besm.Exec

open Besm.Util

inductive CSRFieldSpec
  | wpri
  | wlrl
  | warl
  | unchecked
  deriving DecidableEq, Repr

/-- A field of a control register: the bits it takes, what a write to it may
do, and the values it accepts. -/
structure CSRField where
  mask : RV64UDWord
  spec : CSRFieldSpec
  val : RV64UDWord → Bool
  resetValue : RV64UDWord := 0

namespace CSRField

def get (f : CSRField) (rawRegister : RV64UDWord) : RV64UDWord :=
  match f.spec with
  | .wpri => 0
  | _ => extractMasked f.mask rawRegister

def set (f : CSRField) (value rawRegister : RV64UDWord) : Bool × RV64UDWord :=
  match f.spec with
  | .wlrl =>
    if f.val value then (true, insertMasked f.mask value rawRegister) else (false, rawRegister)
  | .wpri => (true, rawRegister)
  | .warl =>
    if f.val value then (true, insertMasked f.mask value rawRegister) else (true, rawRegister)
  | .unchecked => (true, insertMasked f.mask value rawRegister)

def extract (f : CSRField) (registerValue rawRegister : RV64UDWord) : Bool × RV64UDWord :=
  f.set (extractMasked f.mask registerValue) rawRegister

def reset (f : CSRField) (_rawRegister : RV64UDWord) : RV64UDWord :=
  extractMasked f.mask f.resetValue

end CSRField

def csrUncheckedField (mask : RV64UDWord) (resetValue : RV64UDWord) : CSRField :=
  ⟨mask, .unchecked, fun _ => true, resetValue⟩

def csrWARLField (mask : RV64UDWord) (validator : RV64UDWord → Bool) (resetValue : RV64UDWord) :
    CSRField :=
  ⟨mask, .warl, validator, resetValue⟩

/-- A control register is the list of its fields, all laid over one word. -/
abbrev CSRStructure := List CSRField

namespace CSRStructure

/-- Writes the fields in order and stops at the first that refuses. -/
def write : CSRStructure → (value rawRegister : RV64UDWord) → Bool × RV64UDWord
  | [], _, rawRegister => (true, rawRegister)
  | f :: fields, value, rawRegister =>
    match f.extract value rawRegister with
    | (false, raw) => (false, raw)
    | (true, raw) => write fields value raw

def reset : CSRStructure → (rawRegister : RV64UDWord) → RV64UDWord
  | [], rawRegister => rawRegister
  | f :: fields, rawRegister => reset fields (f.reset rawRegister)

end CSRStructure

end Besm.Exec
