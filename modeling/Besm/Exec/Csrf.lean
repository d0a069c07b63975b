import Besm.Exec.Csr

namespace Besm.Exec

open Besm.Util

/-! The masks of `mstatus` come from the generated encoding header; these are
the positions the privileged architecture gives them. -/

def mstatusSie : RV64UDWord := 0x00000002
def mstatusMie : RV64UDWord := 0x00000008
def mstatusSpie : RV64UDWord := 0x00000020
def mstatusMpie : RV64UDWord := 0x00000080
def mstatusSpp : RV64UDWord := 0x00000100
def mstatusMpp : RV64UDWord := 0x00001800

namespace MStatus

def sie : CSRField := csrUncheckedField mstatusSie 0
def mie : CSRField := csrUncheckedField mstatusMie 0
def spie : CSRField := csrUncheckedField mstatusSpie 0
def mpie : CSRField := csrUncheckedField mstatusMpie 0
def spp : CSRField := csrUncheckedField mstatusSpp 0
def mpp : CSRField := csrUncheckedField mstatusMpp 0

def fields : CSRStructure := [sie, mie, spie, mpie, spp, mpp]

end MStatus

namespace MEPC

def valueValidator (value : RV64UDWord) : Bool := value % (ialign / 8) = 0

def value : CSRField := csrWARLField (~~~0) valueValidator 0

def fields : CSRStructure := [value]

end MEPC

namespace MCause

def interrupt : CSRField := csrUncheckedField (1 <<< 63) 0
def exceptionCode : CSRField := csrUncheckedField ((1 <<< 63) - 1) 0

def fields : CSRStructure := [interrupt, exceptionCode]

end MCause

namespace MTVec

def vectoredMode : RV64UDWord := 1

def modeValidator (mode : RV64UDWord) : Bool := mode ≤ 1
def baseValidator (base : RV64UDWord) : Bool := base % 4 = 0

def mode : CSRField := csrWARLField 0b11 modeValidator 0
def base : CSRField := csrWARLField (~~~0b11) baseValidator 0

def fields : CSRStructure := [mode, base]

end MTVec

namespace MHartID

def value : CSRField := csrUncheckedField 0b11 0

def fields : CSRStructure := [value]

end MHartID

inductive ICSR
  | mhartid
  | mstatus
  | mepc
  | mtvec
  | mcause
  deriving DecidableEq, Repr

namespace ICSR

def id : ICSR → RV64UDWord
  | mhartid => 0xF14
  | mstatus => 0x300
  | mtvec => 0x305
  | mepc => 0x341
  | mcause => 0x342

def fields : ICSR → CSRStructure
  | mhartid => MHartID.fields
  | mstatus => MStatus.fields
  | mtvec => MTVec.fields
  | mepc => MEPC.fields
  | mcause => MCause.fields

end ICSR

def privillegeMachine : RV64UDWord := 3
def privillegeSupervisor : RV64UDWord := 1
def privillegeUser : RV64UDWord := 0

structure CSRF where
  privillege : RV64UDWord
  mhartid : RV64UDWord
  mstatus : RV64UDWord
  mepc : RV64UDWord
  mtvec : RV64UDWord
  mcause : RV64UDWord
  deriving DecidableEq, Repr

namespace CSRF

def create : CSRF where
  privillege := privillegeMachine
  mhartid := CSRStructure.reset MHartID.fields 0
  mstatus := CSRStructure.reset MStatus.fields 0
  mepc := CSRStructure.reset MEPC.fields 0
  mtvec := CSRStructure.reset MTVec.fields 0
  mcause := CSRStructure.reset MCause.fields 0

def registers (id : RV64UDWord) : Option ICSR :=
  if id = ICSR.id .mhartid then some .mhartid
  else if id = ICSR.id .mstatus then some .mstatus
  else if id = ICSR.id .mepc then some .mepc
  else if id = ICSR.id .mtvec then some .mtvec
  else if id = ICSR.id .mcause then some .mcause
  else none

def raw (c : CSRF) : ICSR → RV64UDWord
  | .mhartid => c.mhartid
  | .mstatus => c.mstatus
  | .mepc => c.mepc
  | .mtvec => c.mtvec
  | .mcause => c.mcause

def setRaw (c : CSRF) (reg : ICSR) (value : RV64UDWord) : CSRF :=
  match reg with
  | .mhartid => { c with mhartid := value }
  | .mstatus => { c with mstatus := value }
  | .mepc => { c with mepc := value }
  | .mtvec => { c with mtvec := value }
  | .mcause => { c with mcause := value }

def registerPrivillege (id : RV64UDWord) : RV64UDWord :=
  (extractBits 2 8 (id.setWidth 32)).setWidth 64

def registerReadOnly (id : RV64UDWord) : Bool :=
  extractBits 2 10 (id.setWidth 32) = 0b11

def fitPrivillege (c : CSRF) (id : RV64UDWord) : Bool :=
  registerPrivillege id = c.privillege

/-- The old value of a register, and the file after the register is written
with `f` of it; `none` when the access is refused. -/
def update (c : CSRF) (rawId : RV64UDWord) (f : RV64UDWord → RV64UDWord) :
    Option RV64UDWord × CSRF :=
  if !c.fitPrivillege rawId || registerReadOnly rawId then (none, c)
  else
    match registers rawId with
    | none => (none, c)
    | some reg =>
      let oldValue := c.raw reg
      match reg.fields.write (f oldValue) oldValue with
      | (false, value) => (none, c.setRaw reg value)
      | (true, value) => (some oldValue, c.setRaw reg value)

def write (c : CSRF) (rawId value : RV64UDWord) : Option RV64UDWord × CSRF :=
  c.update rawId fun _ => value

def setBits (c : CSRF) (rawId mask : RV64UDWord) : Option RV64UDWord × CSRF :=
  c.update rawId fun oldValue => oldValue ||| mask

def clearBits (c : CSRF) (rawId mask : RV64UDWord) : Option RV64UDWord × CSRF :=
  c.update rawId fun oldValue => oldValue &&& ~~~mask

def read (c : CSRF) (rawId : RV64UDWord) : Option RV64UDWord :=
  if !c.fitPrivillege rawId then none
  else (registers rawId).map c.raw

end CSRF

end Besm.Exec
