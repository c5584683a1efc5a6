/-!
# Doubles by their bits

A double-precision number as it travels and is stored. Unlike the machine's numbers, two of these are
equal exactly when their bits are, so that a value that is no number equals itself and keeps its sign.
-/
namespace HeaderRelay

structure Double where
  bits : UInt64
  deriving DecidableEq, Repr, Inhabited

namespace Double

def toFloat (d : Double) : Float := Float.ofBits d.bits

def ofFloat (f : Float) : Double := ⟨f.toBits⟩

def negate (d : Double) : Double := ⟨d.bits ^^^ 0x8000000000000000⟩

def infinity : Double := ⟨0x7ff0000000000000⟩

def nan : Double := ⟨0x7ff8000000000000⟩

end Double

end HeaderRelay
