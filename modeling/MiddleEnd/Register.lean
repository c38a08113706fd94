/-! Physical registers and the places a value can be put in. -/

namespace MiddleEnd

structure Register where
  /-- The number by which the hardware encodes it. -/
  num : UInt8
  name : String
  deriving DecidableEq

inductive Location where
  | register (reg : Register)
  | frame
  deriving DecidableEq

namespace Location

def register? : Location → Option Register
  | register reg => some reg
  | frame => none

def isFrame : Location → Bool
  | register _ => false
  | frame => true

def text : Location → String
  | register reg => reg.name
  | frame => "frame"

end Location

end MiddleEnd
