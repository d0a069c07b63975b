import Besm.Lib.Numeral
import Besm.Standalone.Trace

namespace Besm.Standalone

open Besm.Exec Besm.Mem Besm.Sim Besm.Lib

def hex {w : Nat} (value : BitVec w) : List Char := Nat.toDigits 16 value.toNat

def TraceLine.text : TraceLine → List Char
  | .instr currentPC mnem => hex currentPC ++ (": ".toList ++ mnem.toList)
  | .reg rd value => "\tReg [".toList ++ ((hex rd).leftpad 2 '0' ++ ("] <= ".toList ++ hex value))
  | .pc value => "\tPc <= ".toList ++ hex value
  | .mem addr val => "\tMem [".toList ++ (hex addr ++ ("] <= ".toList ++ hex val))

end Besm.Standalone
